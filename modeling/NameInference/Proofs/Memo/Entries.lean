import NameInference.Memo

/-!
# Entries of a memo

Every operation on a memo changes the entry of one question at most, and says what that entry
becomes. Nothing else is needed to follow a memo through a run.
-/

namespace NameInference.Memo

variable {κ : Type} {β : κ → Type} [BEq κ] [Hashable κ] [LawfulBEq κ] {memo : Memo κ β} {key q : κ}

@[simp] theorem find?_empty : ({} : Memo κ β).find? key = none := Std.DHashMap.get?_empty

@[simp] theorem find?_hit : memo.hit.find? key = memo.find? key := rfl

@[simp] theorem find?_trip : memo.trip.find? key = memo.find? key := rfl

@[simp] theorem find?_start_self {sofar : Option (β key)} :
    (memo.start key sofar).find? key = some (.running sofar) := Std.DHashMap.get?_insert_self

@[simp] theorem find?_finish_self {answer : β key} :
    (memo.finish key answer).find? key = some (.done answer) :=
  Std.DHashMap.get?_insert_self

@[simp] theorem find?_forget_self : (memo.forget key).find? key = none :=
  Std.DHashMap.get?_erase_self

theorem get?_insert_of_ne {entries : Std.DHashMap κ fun k => MemoEntry (β k)}
    {entry : MemoEntry (β key)} (h : q ≠ key) :
    (entries.insert key entry).get? q = entries.get? q := by
  rw [Std.DHashMap.get?_insert, dif_neg (by simpa using h.symm)]

theorem find?_start_of_ne {sofar : Option (β key)} (h : q ≠ key) :
    (memo.start key sofar).find? q = memo.find? q :=
  get?_insert_of_ne h

theorem find?_finish_of_ne {answer : β key} (h : q ≠ key) :
    (memo.finish key answer).find? q = memo.find? q :=
  get?_insert_of_ne h

theorem find?_forget_of_ne (h : q ≠ key) : (memo.forget key).find? q = memo.find? q := by
  rw [find?, forget, Std.DHashMap.get?_erase, if_neg (by simpa using h.symm), find?]

/-- A growing answer grows where it stands. -/
theorem find?_grow_self {f : β key → β key} {sofar : β key}
    (h : memo.find? key = some (.running (some sofar))) :
    (memo.grow key f).find? key = some (.running (some (f sofar))) := by
  rw [grow, h]
  exact Std.DHashMap.get?_insert_self

/-- Nothing else grows. -/
theorem find?_grow {f : β key → β key}
    (h : q ≠ key ∨ ∀ sofar, memo.find? key ≠ some (.running (some sofar))) :
    (memo.grow key f).find? q = memo.find? q := by
  unfold grow
  split
  · next sofar hsofar =>
    rcases h with h | h
    · exact get?_insert_of_ne h
    · exact absurd hsofar (h sofar)
  · rfl

/-- A question is being computed if it has an entry without an answer. -/
theorem isRunning_iff :
    memo.isRunning key = true ↔ ∃ sofar, memo.find? key = some (.running sofar) := by
  unfold isRunning
  split
  · next sofar h => simp [h]
  · next h =>
    constructor
    · intro hfalse
      cases hfalse
    · rintro ⟨sofar, hsofar⟩
      exact absurd hsofar (h sofar)

theorem isRunning_congr {memo' : Memo κ β} (h : memo'.find? key = memo.find? key) :
    memo'.isRunning key = memo.isRunning key := by
  rw [isRunning, isRunning, h]

/-- Growing neither begins nor ends a computation. -/
theorem isRunning_grow {f : β key → β key} : (memo.grow key f).isRunning q = memo.isRunning q := by
  by_cases hq : q = key
  · subst hq
    by_cases hrunning : ∃ sofar, memo.find? q = some (.running (some sofar))
    · obtain ⟨sofar, hsofar⟩ := hrunning
      rw [isRunning, isRunning, find?_grow_self hsofar, hsofar]
    · exact isRunning_congr (find?_grow (Or.inr fun sofar hsofar => hrunning ⟨sofar, hsofar⟩))
  · exact isRunning_congr (find?_grow (Or.inl hq))

theorem isRunning_start {sofar : Option (β key)} :
    (memo.start key sofar).isRunning q = true ↔ q = key ∨ memo.isRunning q = true := by
  by_cases hq : q = key
  · subst hq
    simp [isRunning]
  · rw [isRunning_congr (find?_start_of_ne hq)]
    simp [hq]

theorem isRunning_finish {answer : β key} :
    (memo.finish key answer).isRunning q = true ↔ q ≠ key ∧ memo.isRunning q = true := by
  by_cases hq : q = key
  · subst hq
    simp [isRunning]
  · rw [isRunning_congr (find?_finish_of_ne hq)]
    simp [hq]

theorem isRunning_forget :
    (memo.forget key).isRunning q = true ↔ q ≠ key ∧ memo.isRunning q = true := by
  by_cases hq : q = key
  · subst hq
    simp [isRunning]
  · rw [isRunning_congr (find?_forget_of_ne hq)]
    simp [hq]

/-- Every answer that is recorded now is recorded later. -/
def Keeps (memo later : Memo κ β) : Prop :=
  ∀ key a, memo.find? key = some (.done a) → later.find? key = some (.done a)

theorem Keeps.refl (memo : Memo κ β) : memo.Keeps memo := fun _ _ h => h

theorem Keeps.trans {memo' memo'' : Memo κ β} (h : memo.Keeps memo') (h' : memo'.Keeps memo'') :
    memo.Keeps memo'' :=
  fun key a hfound => h' key a (h key a hfound)

/-- Whatever becomes of a question without a recorded answer, the recorded ones stay. -/
theorem keeps_of_ne {later : Memo κ β} (hkey : ∀ a, memo.find? key ≠ some (.done a))
    (h : ∀ q, q ≠ key → later.find? q = memo.find? q) : memo.Keeps later := by
  intro q a hfound
  by_cases hq : q = key
  · subst hq
    exact absurd hfound (hkey a)
  · rw [h q hq, hfound]

/-- Growing touches no recorded answer. -/
theorem keeps_grow {f : β key → β key} : memo.Keeps (memo.grow key f) := by
  intro q a hfound
  rw [find?_grow, hfound]
  by_cases hq : q = key
  · subst hq
    exact Or.inr fun sofar hsofar => by simp [hfound] at hsofar
  · exact Or.inl hq

theorem contains_eq_false_iff : memo.contains key = false ↔ memo.find? key = none := by
  rw [contains, find?, ← Bool.not_eq_true, Std.DHashMap.contains_eq_isSome_get?,
    Option.not_isSome_iff_eq_none]

@[simp] theorem hits_grow {f : β key → β key} : (memo.grow key f).hits = memo.hits := by
  unfold grow
  split <;> rfl

@[simp] theorem misses_grow {f : β key → β key} : (memo.grow key f).misses = memo.misses := by
  unfold grow
  split <;> rfl

@[simp] theorem trips_grow {f : β key → β key} : (memo.grow key f).trips = memo.trips := by
  unfold grow
  split <;> rfl

end NameInference.Memo

namespace NameInference.MemoSlot

variable {σ ε κ : Type} {β : κ → Type} [BEq κ] [Hashable κ] [LawfulBEq κ]

section Answer

variable {slot : MemoSlot σ κ β} {recovers : ε → Bool} {key : κ} {fallback : β key}
  {compute : ExceptT ε (StateM σ) (β key)} {s t : σ} {a : β key} {e : ε}

theorem answer_of_done (h : (slot.read s).find? key = some (.done a)) :
    slot.answer recovers key fallback compute s = (.ok a, slot.update (·.hit) s) := by
  rw [answer, h]

theorem answer_of_running {sofar : Option (β key)}
    (h : (slot.read s).find? key = some (.running sofar)) :
    slot.answer recovers key fallback compute s = (.ok fallback, slot.update (·.trip) s) := by
  rw [answer, h]

theorem answer_of_ok (h : (slot.read s).find? key = none)
    (hcompute : compute (slot.update (·.start key none) s) = (.ok a, t)) :
    slot.answer recovers key fallback compute s = (.ok a, slot.update (·.finish key a) t) := by
  rw [answer, h]
  simp only [hcompute]

/-- A failure that is not recovered from leaves no entry. -/
theorem answer_of_failed (h : (slot.read s).find? key = none)
    (hcompute : compute (slot.update (·.start key none) s) = (.error e, t))
    (hforeign : recovers e = false) :
    slot.answer recovers key fallback compute s = (.error e, slot.update (·.forget key) t) := by
  rw [answer, h]
  simp only [hcompute, hforeign, Bool.false_eq_true, if_false]

end Answer

section Generate

variable {slot : MemoSlot σ κ β} {recovers : ε → Bool} {key : κ} {empty : β key}
  {compute : ((β key → β key) → ExceptT ε (StateM σ) Unit) → ExceptT ε (StateM σ) Unit} {s t : σ}
    {a : β key} {e : ε}

/-- Gives a piece to a growing answer. -/
def grow (slot : MemoSlot σ κ β) (key : κ) (f : β key → β key) :
    ExceptT ε (StateM σ) Unit := fun s =>
  (.ok (), slot.update (·.grow key f) s)

theorem generate_of_done (h : (slot.read s).find? key = some (.done a)) :
    slot.generate recovers key empty compute s = (.ok a, slot.update (·.hit) s) := by
  rw [generate, h]

theorem generate_of_running {sofar : Option (β key)}
    (h : (slot.read s).find? key = some (.running sofar)) :
    slot.generate recovers key empty compute s =
      (.ok (sofar.getD empty), slot.update (·.trip) s) := by
  rw [generate, h]

theorem generate_of_ok (h : (slot.read s).find? key = none)
    (hcompute : compute (slot.grow key) (slot.update (·.start key (some empty)) s) = (.ok (), t))
    (ha : ((slot.read t).sofar? key).getD empty = a) :
    slot.generate recovers key empty compute s = (.ok a, slot.update (·.finish key a) t) := by
  unfold grow at hcompute
  rw [generate, h]
  simp only [hcompute, ha]

end Generate

/-- A call ends with the recorded answer, with a fallback if the question is being computed, or with
its computation, from the end of which `close` takes the answer unless nobody recovers from it. -/
inductive Ending (slot : MemoSlot σ κ β) (recovers : ε → Bool) (key : κ) (initial : Option (β key))
    (fallback : Option (β key) → β key) {α : Type} (close : Except ε α → σ → β key)
    (compute : ExceptT ε (StateM σ) α) (s : σ) : Except ε (β key) × σ → Prop where
  | known {a : β key} (found : (slot.read s).find? key = some (.done a)) :
      Ending slot recovers key initial fallback close compute s (.ok a, slot.update (·.hit) s)
  | again {sofar : Option (β key)} (found : (slot.read s).find? key = some (.running sofar)) :
      Ending slot recovers key initial fallback close compute s (.ok (fallback sofar),
        slot.update (·.trip) s)
  | finished {outcome : Except ε α} {t : σ} (found : (slot.read s).find? key = none)
      (run : compute (slot.update (·.start key initial) s) = (outcome, t))
      (recovered : ∀ e, outcome = .error e → recovers e = true) :
      Ending slot recovers key initial fallback close compute s
        (.ok (close outcome t), slot.update (·.finish key (close outcome t)) t)
  | failed {e : ε} {t : σ} (found : (slot.read s).find? key = none)
      (run : compute (slot.update (·.start key initial) s) = (.error e, t))
        (foreign : recovers e = false) :
      Ending slot recovers key initial fallback close compute s
        (.error e, slot.update (·.forget key) t)

variable (slot : MemoSlot σ κ β) (recovers : ε → Bool) {key : κ}

/-- However an answer is found, it ends in one of the ways listed. -/
theorem answer_ending (fallback : β key) (compute : ExceptT ε (StateM σ) (β key)) (s : σ) :
    Ending slot recovers key none (fun _ => fallback)
    (fun outcome _ => outcome.toOption.getD fallback) compute s
      (slot.answer recovers key fallback compute s) := by
  unfold answer
  split
  · next a found => exact .known found
  · next sofar found => exact .again found
  · next found =>
    split
    · next a t run => exact .finished found run nofun
    · next e t run =>
      split
      · next recovered => exact .finished found run fun _ h => Except.error.inj h ▸ recovered
      · next foreign => exact .failed found run (Bool.eq_false_iff.mpr foreign)

theorem generate_ending (empty : β key)
    (compute : ((β key → β key) → ExceptT ε (StateM σ) Unit) → ExceptT ε (StateM σ) Unit) (s : σ) :
    Ending slot recovers key (some empty) (·.getD empty)
    (fun _ t => ((slot.read t).sofar? key).getD empty)
      (compute (slot.grow key)) s (slot.generate recovers key empty compute s) := by
  unfold generate
  split
  · next a found => exact .known found
  · next sofar found => exact .again found
  · next found =>
    simp only
    split
    · next t run => exact .finished found run nofun
    · next e t run =>
      split
      · next recovered => exact .finished found run fun _ h => Except.error.inj h ▸ recovered
      · next foreign => exact .failed found run (Bool.eq_false_iff.mpr foreign)

end NameInference.MemoSlot
