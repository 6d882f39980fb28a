import NameInference.Proofs.Memo.Journal

/-!
# What a memo promises to nested calls

However calls are nested and however they end, the same questions are being computed after a call as
before it, a recorded answer stays and is given to every later call, and a question is computed
again only after a failure that nobody recovers from. A question that comes back to itself gets its
fallback, or a beginning of what its answer will be.
-/

namespace NameInference

open List Memo

variable {κ : Type} {β : κ → Type} {ε : Type} [BEq κ] [Hashable κ]

/-- Whether an event is a call. -/
def Event.isCall : Event κ β ε → Bool
  | .asked _ _ => true
  | _ => false

/-- The line with number `i` shows an event and the memo right after it. -/
def Line (journal : List (Moment κ β ε)) (i : Nat) (event : Event κ β ε) (memo : Memo κ β) : Prop :=
  journal[i]? = some ⟨event, memo⟩

section Lines

variable {journal : List (Moment κ β ε)} {event : Event κ β ε} {memo : Memo κ β}
  {x y : Moment κ β ε} {i : Nat}

theorem Line.lt_length (h : Line journal i event memo) : i < journal.length :=
  (List.getElem?_eq_some_iff.mp h).1

theorem Line.unique {event' : Event κ β ε} {memo' : Memo κ β} (h : Line journal i event memo)
    (h' : Line journal i event' memo') : event = event' ∧ memo = memo' := by
  cases Option.some.inj (h.symm.trans h')
  exact ⟨rfl, rfl⟩

/-- Lines are never struck out. -/
theorem Line.append (h : Line journal i event memo) (more : List (Moment κ β ε)) :
    Line (journal ++ more) i event memo := by
  rw [Line, getElem?_append_left h.lt_length]
  exact h

theorem line_append_one : Line (journal ++ [x]) i event memo ↔
    Line journal i event memo ∨ i = journal.length ∧ x = ⟨event, memo⟩ := by
  constructor
  · intro h
    rcases Nat.lt_or_ge i journal.length with hlt | hge
    · rw [Line, getElem?_append_left hlt] at h
      exact Or.inl h
    · have hlast : i = journal.length := by
        have := h.lt_length
        simp at this
        omega
      subst hlast
      simpa [Line] using h
  · rintro (h | ⟨rfl, rfl⟩)
    · exact h.append _
    · simp [Line]

/-- The two lines that are written one after the other. -/
theorem line_append_first : Line (journal ++ [x, y]) journal.length x.event x.memo := by
  simp [Line]

theorem line_append_second : Line (journal ++ [x, y]) (journal.length + 1) y.event y.memo := by
  simp [Line]

theorem line_append_two : Line (journal ++ [x, y]) i event memo ↔
    Line journal i event memo ∨ i = journal.length ∧ x = ⟨event, memo⟩ ∨
      i = journal.length + 1 ∧ y = ⟨event, memo⟩ := by
  rw [show journal ++ [x, y] = (journal ++ [x]) ++ [y] by simp, line_append_one, line_append_one,
    or_assoc]
  simp

end Lines

variable [LawfulBEq κ]

/-- What the journal of every script shows. -/
structure Protocol (recovers : ε → Bool) (s : Watched κ β ε) : Prop where
  /-- Every call is answered, be it by a failure. -/
  answers : ∀ {i key request memo}, Line s.journal i (.asked key request) memo →
    ∃ j outcome memo', i < j ∧ Line s.journal j (.answered i key outcome) memo'
  /-- When a call is answered, the same questions are being computed as when it was made. -/
  restores : ∀ {i j key request memo outcome memo'}, Line s.journal i (.asked key request) memo →
    Line s.journal j (.answered i key outcome) memo' → ∀ q, memo'.isRunning q = memo.isRunning q
  /-- A recorded answer stays. -/
  keeps : s.journal.Pairwise fun x y => x.memo.Keeps y.memo
  /-- A recorded answer is given at once, and nothing is computed for it. -/
  recalls : ∀ {i key request memo a}, Line s.journal i (.asked key request) memo →
    memo.find? key = some (.done a) →
    ∃ memo', Line s.journal (i + 1) (.answered i key (.ok a)) memo'
  /-- Between two computations of a question the first one ends in a failure that nobody recovers
  from. -/
  recomputes : ∀ {i j call call' key memo memo'}, i < j → Line s.journal i (.began call key) memo →
    Line s.journal j (.began call' key) memo' →
    ∃ l e memo'', i < l ∧ l < j ∧ Line s.journal l (.ended call key (some e)) memo'' ∧
    recovers e = false
  /-- After such a failure the question is unknown and the failure is passed on. -/
  forgets : ∀ {l call key e memo}, Line s.journal l (.ended call key (some e)) memo →
    recovers e = false →
    ∃ memo', Line s.journal (l + 1) (.answered call key (.error e)) memo' ∧
    memo'.contains key = false
  /-- After any other end the answer is recorded and given. -/
  records : ∀ {l call key failure memo}, Line s.journal l (.ended call key failure) memo →
    (∀ e ∈ failure, recovers e = true) →
    ∃ a memo', Line s.journal (l + 1) (.answered call key (.ok a)) memo' ∧
    memo'.find? key = some (.done a)
  /-- A question that is being computed gets the fallback of the call. -/
  fallsBack : ∀ {i key fallback memo}, Line s.journal i (.asked key (.answer fallback)) memo →
    memo.isRunning key = true →
    ∃ memo', Line s.journal (i + 1) (.answered i key (.ok fallback)) memo'
  /-- While an answer grows by appending, a call for it gets a beginning of what it will be. -/
  showsPart : ∀ {γ : Type} {key : κ} (items : β key → List γ) {i l j empty empty' a m₁ m₂ m₃},
    Line s.journal i (.asked key (.generate empty)) m₁ →
    Line s.journal l (.asked key (.generate empty')) m₂ →
    Line s.journal j (.answered i key (.ok a)) m₃ → i < l → l < j →
    (∀ k f m, i < k → k < j → Line s.journal k (.grew key f) m → ∀ x, items x <+: items (f x)) →
    ∃ x m, Line s.journal (l + 1) (.answered l key (.ok x)) m ∧ items x <+: items a
  /-- Every call is counted once. -/
  counts : s.memo.hits + s.memo.misses + s.memo.trips = s.journal.countP (·.event.isCall)

namespace Stage

variable {recovers : ε → Bool} {a b c : Stage κ β ε}

/-- The questions under way are distinct, and they are the ones that are marked. -/
structure Stacked (c : Stage κ β ε) : Prop where
  nodup : (c.frames.map Frame.key).Nodup
  isRunning_iff : ∀ q, c.memo.isRunning q = true ↔ q ∈ c.frames.map Frame.key

namespace Stacked

variable {memo : Memo κ β} {journal : List (Moment κ β ε)} {frames : List (Frame κ β)}
  {frame : Frame κ β}

theorem ne_of_mem (h : Stacked ⟨memo, journal, frame :: frames⟩) {other : Frame κ β}
    (hother : other ∈ frames) :
    other.key ≠ frame.key := by
  have hnodup := h.nodup
  rw [map_cons, nodup_cons] at hnodup
  exact fun heq => hnodup.1 (heq ▸ mem_map_of_mem hother)

/-- What is under way is marked. -/
theorem exists_running (h : Stacked ⟨memo, journal, frames⟩) (hframe : frame ∈ frames) :
    ∃ sofar, memo.find? frame.key = some (.running sofar) :=
  Memo.isRunning_iff.mp ((h.isRunning_iff frame.key).mpr (List.mem_map_of_mem hframe))

theorem not_done (h : Stacked ⟨memo, journal, frames⟩) (hframe : frame ∈ frames) (x : β frame.key) :
    memo.find? frame.key ≠ some (.done x) := by
  obtain ⟨sofar, hsofar⟩ := h.exists_running hframe
  rw [hsofar]
  nofun

theorem close (h : Stacked ⟨memo, journal, frame :: frames⟩) {memo' : Memo κ β}
    {journal' : List (Moment κ β ε)}
    (hrunning : ∀ q, memo'.isRunning q = true ↔ q ≠ frame.key ∧ memo.isRunning q = true) :
    Stacked ⟨memo', journal', frames⟩ := by
  have hnodup := h.nodup
  rw [map_cons, nodup_cons] at hnodup
  refine ⟨hnodup.2, fun q => ?_⟩
  rw [hrunning, h.isRunning_iff, map_cons, mem_cons]
  constructor
  · rintro ⟨hne, heq | hmem⟩
    · exact absurd heq hne
    · exact hmem
  · intro hmem
    exact ⟨fun heq => hnodup.1 (heq ▸ hmem), Or.inr hmem⟩

theorem step (h : Stacked a) (hstep : Step recovers a b) : Stacked b := by
  cases hstep with
  | known | again => exact ⟨h.nodup, h.isRunning_iff⟩
  | @start memo journal frames key request hfound =>
    have hnew : key ∉ frames.map Frame.key := by
      intro hmem
      obtain ⟨sofar, hsofar⟩ := Memo.isRunning_iff.mp ((h.isRunning_iff key).mpr hmem)
      cases hfound.symm.trans hsofar
    refine ⟨nodup_cons.mpr ⟨hnew, h.nodup⟩, fun q => ?_⟩
    rw [isRunning_start, h.isRunning_iff, map_cons, mem_cons]
  | grow hgrown =>
    rcases hgrown with rfl | rfl
    · exact ⟨h.nodup, h.isRunning_iff⟩
    · exact ⟨h.nodup, fun q => by rw [isRunning_grow]; exact h.isRunning_iff q⟩
  | finish => exact h.close fun q => isRunning_finish
  | forget => exact h.close fun q => isRunning_forget

end Stacked

/-- A stage that can be reached from an empty memo. -/
abbrev Reached (recovers : ε → Bool) (c : Stage κ β ε) : Prop := Steps recovers {} c

/-- What holds at first and is kept by every step from a reached stage holds of every reached stage.
-/
theorem Reached.induction {P : Stage κ β ε → Prop} (h : Reached recovers c) (first : P {})
    (step : ∀ {a b}, Reached recovers a → P a → Step recovers a b → P b) : P c := by
  induction h with
  | refl => exact first
  | tail hsteps hstep ih => exact step hsteps ih hstep

theorem Reached.stacked (h : Reached recovers c) : Stacked c :=
  h.induction ⟨.nil, fun q => by simp [Memo.isRunning]⟩ fun _ => Stacked.step

theorem Step.keeps (hstep : Step recovers a b) (h : Stacked a) : a.memo.Keeps b.memo := by
  cases hstep with
  | known | again => exact .refl _
  | start request hfound => exact keeps_of_ne (by simp [hfound]) fun q => find?_start_of_ne
  | grow hgrown =>
    rcases hgrown with rfl | rfl
    · exact .refl _
    · exact keeps_grow
  | finish => exact keeps_of_ne (h.not_done mem_cons_self) fun q => find?_finish_of_ne
  | forget => exact keeps_of_ne (h.not_done mem_cons_self) fun q => find?_forget_of_ne

/-- The lines that a step writes show the memo before it or after it. -/
theorem Step.journal_eq (hstep : Step recovers a b) :
    ∃ before after, b.journal = a.journal ++ (before ++ after) ∧ (∀ x ∈ before, x.memo = a.memo) ∧
      ∀ x ∈ after, x.memo = b.memo := by
  cases hstep with
  | grow => exact ⟨[], [_], rfl, by simp, by simp⟩
  | known | again | start | finish | forget => exact ⟨[_], [_], rfl, by simp, by simp⟩

theorem Step.line (hstep : Step recovers a b) {i : Nat} {event : Event κ β ε} {memo : Memo κ β}
    (h : Line a.journal i event memo) : Line b.journal i event memo := by
  obtain ⟨before, after, hjournal, -⟩ := hstep.journal_eq
  rw [hjournal]
  exact h.append _

/-- Recorded answers stay from line to line, and up to now. -/
structure Kept (c : Stage κ β ε) : Prop where
  lines : c.journal.Pairwise fun x y => x.memo.Keeps y.memo
  now : ∀ x ∈ c.journal, x.memo.Keeps c.memo

theorem Kept.step (h : Kept a) (ha : Stacked a) (hstep : Step recovers a b) : Kept b := by
  have hkeeps := hstep.keeps ha
  obtain ⟨before, after, hjournal, hbefore, hafter⟩ := hstep.journal_eq
  have hbetween : ∀ x ∈ before ++ after, a.memo.Keeps x.memo ∧ x.memo.Keeps b.memo := by
    intro x hx
    rcases mem_append.mp hx with hx | hx
    · rw [hbefore x hx]
      exact ⟨.refl _, hkeeps⟩
    · rw [hafter x hx]
      exact ⟨hkeeps, .refl _⟩
  have hnew : (before ++ after).Pairwise fun x y => x.memo.Keeps y.memo := by
    refine pairwise_append.mpr ⟨?_, ?_, fun x hx y hy => ?_⟩
    · refine pairwise_of_forall_mem_list fun x hx y hy => ?_
      rw [hbefore x hx, hbefore y hy]
      exact .refl _
    · refine pairwise_of_forall_mem_list fun x hx y hy => ?_
      rw [hafter x hx, hafter y hy]
      exact .refl _
    · rw [hbefore x hx, hafter y hy]
      exact hkeeps
  refine ⟨?_, fun x hx => ?_⟩
  · rw [hjournal, pairwise_append]
    exact ⟨h.lines, hnew, fun x hx y hy => (h.now x hx).trans (hbetween y hy).1⟩
  · rw [hjournal] at hx
    rcases mem_append.mp hx with hx | hx
    · exact (h.now x hx).trans hkeeps
    · exact (hbetween x hx).2

theorem Reached.kept (h : Reached recovers c) : Kept c :=
  h.induction ⟨.nil, by simp⟩ fun ha h hstep => h.step ha.stacked hstep

/-- What follows a call: an answer if one is known or the question is being computed, else a
computation. -/
def response (i : Nat) (key : κ) (request : MemoRequest (β key)) :
    Option (MemoEntry (β key)) → Event κ β ε
  | none => .began i key
  | some (.running sofar) => .answered i key (.ok (request.reentry sofar))
  | some (.done x) => .answered i key (.ok x)

/-- The line behind the end of a computation: its failure, and the question is unknown, or its
recorded answer. -/
def Closes (recovers : ε → Bool) (journal : List (Moment κ β ε)) (l call : Nat) (key : κ)
    (failure : Option ε) : Prop :=
  (∃ e memo, failure = some e ∧ recovers e = false ∧
    Line journal (l + 1) (.answered call key (.error e)) memo ∧ memo.find? key = none) ∨
  (∀ e ∈ failure, recovers e = true) ∧
    ∃ x memo, Line journal (l + 1) (.answered call key (.ok x)) memo ∧
    memo.find? key = some (.done x)

/-- What a line with number `i` says that a step writes. A call is answered at once, or with the end
of the innermost computation, and a growing answer is then what it holds. -/
def Written (recovers : ε → Bool) (a b : Stage κ β ε) (i : Nat) (memo : Memo κ β) :
    Event κ β ε → Prop
  | .asked key request => i = a.journal.length ∧ memo = a.memo ∧
    ∃ memo', Line b.journal (i + 1) (response i key request (memo.find? key)) memo'
  | .began call key => i = a.journal.length + 1 ∧ a.memo.find? key = none ∧
    ∃ frame ∈ b.frames, frame.call = call ∧ frame.key = key
  | .grew _ _ => True
  | .ended call key failure => i = a.journal.length ∧ Closes recovers b.journal i call key failure
  | .answered call key outcome => i = a.journal.length + 1 ∧ memo = b.memo ∧
    (call = a.journal.length ∧ (∃ request, Line b.journal call (.asked key request) a.memo) ∧
        (∀ q, b.memo.isRunning q = a.memo.isRunning q) ∨
      (∃ failure, Line b.journal a.journal.length (.ended call key failure) a.memo) ∧
        ∃ request, a.frames = ⟨call, key, request⟩ :: b.frames ∧
          ∀ x empty, outcome = .ok x → request = .generate empty →
          x = (a.memo.sofar? key).getD empty)

/-- A line of the journal is an old one or the one that the step writes. -/
theorem Step.line_cases (hstep : Step recovers a b) {i : Nat} {event : Event κ β ε}
    {memo : Memo κ β} (hline : Line b.journal i event memo) :
    Line a.journal i event memo ∨ Written recovers a b i memo event := by
  cases hstep with
  | known request hfound | again request hfound =>
    rcases line_append_two.mp hline with hline | ⟨rfl, ⟨⟩⟩ | ⟨rfl, ⟨⟩⟩
    · exact Or.inl hline
    · refine Or.inr ⟨rfl, rfl, ?_⟩
      rw [hfound]
      exact ⟨_, line_append_second⟩
    · exact Or.inr ⟨rfl, rfl, Or.inl ⟨rfl, ⟨request, line_append_first⟩, fun q => rfl⟩⟩
  | start request hfound =>
    rcases line_append_two.mp hline with hline | ⟨rfl, ⟨⟩⟩ | ⟨rfl, ⟨⟩⟩
    · exact Or.inl hline
    · refine Or.inr ⟨rfl, rfl, ?_⟩
      rw [hfound]
      exact ⟨_, line_append_second⟩
    · exact Or.inr ⟨rfl, hfound, _, mem_cons_self, rfl, rfl⟩
  | grow =>
    rcases line_append_one.mp hline with hline | ⟨-, ⟨⟩⟩
    · exact Or.inl hline
    · exact Or.inr trivial
  | finish failure x hrecovered hgiven =>
    rcases line_append_two.mp hline with hline | ⟨rfl, ⟨⟩⟩ | ⟨rfl, ⟨⟩⟩
    · exact Or.inl hline
    · exact Or.inr ⟨rfl, Or.inr ⟨hrecovered, _, _, line_append_second, find?_finish_self⟩⟩
    · refine Or.inr ⟨rfl, rfl, Or.inr ⟨⟨_, line_append_first⟩, _, rfl, ?_⟩⟩
      rintro _ empty ⟨⟩ hrequest
      exact hgiven empty hrequest
  | forget hforeign =>
    rcases line_append_two.mp hline with hline | ⟨rfl, ⟨⟩⟩ | ⟨rfl, ⟨⟩⟩
    · exact Or.inl hline
    · exact Or.inr ⟨rfl, Or.inl ⟨_, _, rfl, hforeign, line_append_second, find?_forget_self⟩⟩
    · exact Or.inr ⟨rfl, rfl, Or.inr ⟨⟨_, line_append_first⟩, _, rfl, nofun⟩⟩

/-- A computation under way goes on, or it ends. -/
theorem Step.frame_cases (hstep : Step recovers a b) {frame : Frame κ β}
    (hframe : frame ∈ a.frames) :
    frame ∈ b.frames ∨
      ∃ failure, Line b.journal a.journal.length (.ended frame.call frame.key failure) a.memo ∧
        Closes recovers b.journal a.journal.length frame.call frame.key failure := by
  cases hstep with
  | known | again | grow => exact Or.inl hframe
  | start => exact Or.inl (mem_cons_of_mem _ hframe)
  | finish failure x hrecovered =>
    rcases mem_cons.mp hframe with rfl | hframe
    · exact Or.inr ⟨_, line_append_first,
        Or.inr ⟨hrecovered, _, _, line_append_second, find?_finish_self⟩⟩
    · exact Or.inl hframe
  | forget hforeign =>
    rcases mem_cons.mp hframe with rfl | hframe
    · exact Or.inr ⟨_, line_append_first,
        Or.inl ⟨_, _, rfl, hforeign, line_append_second, find?_forget_self⟩⟩
    · exact Or.inl hframe

theorem Reached.responds (h : Reached recovers c) :
    ∀ {i key request memo}, Line c.journal i (.asked key request) memo →
      ∃ memo', Line c.journal (i + 1) (response i key request (memo.find? key)) memo' := by
  refine h.induction
    (P := fun c => ∀ {i key request memo}, Line c.journal i (.asked key request) memo →
      ∃ memo', Line c.journal (i + 1) (response i key request (memo.find? key)) memo') nofun
      fun {a b} _ ih hstep i key request memo hline => ?_
  rcases hstep.line_cases hline with hline | ⟨-, -, hresponds⟩
  · obtain ⟨memo', hline'⟩ := ih hline
    exact ⟨memo', hstep.line hline'⟩
  · exact hresponds

theorem Reached.closes (h : Reached recovers c) :
    ∀ {l call key failure memo}, Line c.journal l (.ended call key failure) memo →
      Closes recovers c.journal l call key failure := by
  refine h.induction
    (P := fun c => ∀ {l call key failure memo}, Line c.journal l (.ended call key failure) memo →
      Closes recovers c.journal l call key failure) nofun
      fun {a b} _ ih hstep l call key failure memo hline => ?_
  rcases hstep.line_cases hline with hline | ⟨-, hcloses⟩
  · rcases ih hline with
      ⟨e, memo', hfailure, hforeign, hline', hnone⟩ | ⟨hrecovered, x, memo', hline', hdone⟩
    · exact Or.inl ⟨e, memo', hfailure, hforeign, hstep.line hline', hnone⟩
    · exact Or.inr ⟨hrecovered, x, memo', hstep.line hline', hdone⟩
  · exact hcloses

/-- Which questions are being computed at the call of a computation under way, at an answer, and at
a call. -/
structure Bracketed (c : Stage κ β ε) : Prop where
  opened : ∀ {above frame below}, c.frames = above ++ frame :: below →
    ∃ memo, Line c.journal frame.call (.asked frame.key frame.request) memo ∧
      ∀ q, memo.isRunning q = true ↔ q ∈ below.map Frame.key
  closed : ∀ {i j key outcome memo'}, Line c.journal j (.answered i key outcome) memo' →
    ∃ request memo, i < j ∧ Line c.journal i (.asked key request) memo ∧ ∀ q, memo'.isRunning q =
      memo.isRunning q
  pending : ∀ {i key request memo}, Line c.journal i (.asked key request) memo →
    (∃ frame ∈ c.frames, frame.call = i ∧ frame.key = key) ∨
      ∃ j outcome memo', Line c.journal j (.answered i key outcome) memo'

namespace Bracketed

/-- The line of the call of a computation under way. -/
theorem line_of_mem (h : Bracketed c) {frame : Frame κ β} (hframe : frame ∈ c.frames) :
    ∃ memo, Line c.journal frame.call (.asked frame.key frame.request) memo := by
  obtain ⟨above, below, hframes⟩ := append_of_mem hframe
  obtain ⟨memo, hline, -⟩ := h.opened hframes
  exact ⟨memo, hline⟩

theorem step (h : Bracketed a) (ha : Stacked a) (hstep : Step recovers a b) : Bracketed b where
  opened {above frame below} hframes := by
    -- A frame was there before with the same frames below, or it has just been opened.
    have hold (above : List (Frame κ β)) (hframes : a.frames = above ++ frame :: below) :
        ∃ memo, Line b.journal frame.call (.asked frame.key frame.request) memo ∧
          ∀ q, memo.isRunning q = true ↔ q ∈ below.map Frame.key := by
      obtain ⟨memo, hline, hrunning⟩ := h.opened hframes
      exact ⟨memo, hstep.line hline, hrunning⟩
    cases hstep with
    | known | again | grow => exact hold above hframes
    | start =>
      cases above with
      | nil =>
        cases hframes
        exact ⟨_, line_append_first, ha.isRunning_iff⟩
      | cons =>
        cases hframes
        exact hold _ rfl
    | finish | forget => exact hold (_ :: above) (congrArg (List.cons _) hframes)
  closed hline := by
    rcases hstep.line_cases hline with
      hline | ⟨rfl, rfl, ⟨rfl, ⟨request, hasked⟩, hsame⟩ | ⟨-, request, hframes, -⟩⟩
    · obtain ⟨request, memo, hlt, hasked, hrunning⟩ := h.closed hline
      exact ⟨request, memo, hlt, hstep.line hasked, hrunning⟩
    · exact ⟨request, a.memo, Nat.lt_succ_self _, hasked, hsame⟩
    · obtain ⟨memo, hasked, hrunning⟩ := h.opened (hframes.trans (nil_append _).symm)
      refine ⟨request, memo, Nat.lt_succ_of_lt hasked.lt_length, hstep.line hasked, fun q => ?_⟩
      rw [Bool.eq_iff_iff, (ha.step hstep).isRunning_iff, hrunning]
  pending {i key request memo} hline := by
    rcases hstep.line_cases hline with hline | ⟨rfl, rfl, memo', hresponse⟩
    · rcases h.pending hline with ⟨frame, hframe, rfl, rfl⟩ | ⟨j, outcome, memo', hanswered⟩
      · rcases hstep.frame_cases hframe with
          hframe | ⟨-, -, ⟨_, _, -, -, hanswered, -⟩ | ⟨-, _, _, hanswered, -⟩⟩
        · exact Or.inl ⟨frame, hframe, rfl, rfl⟩
        · exact Or.inr ⟨_, _, _, hanswered⟩
        · exact Or.inr ⟨_, _, _, hanswered⟩
      · exact Or.inr ⟨j, outcome, memo', hstep.line hanswered⟩
    · rcases hfound : a.memo.find? key with _ | _ | _ <;> rw [hfound] at hresponse
      · rcases hstep.line_cases hresponse with hbegan | ⟨-, -, hframe⟩
        · exact absurd hbegan.lt_length (by omega)
        · exact Or.inl hframe
      · exact Or.inr ⟨_, _, _, hresponse⟩
      · exact Or.inr ⟨_, _, _, hresponse⟩

end Bracketed

theorem Reached.bracketed (h : Reached recovers c) : Bracketed c := by
  refine h.induction ⟨?_, nofun, nofun⟩ fun ha h hstep => h.step ha.stacked hstep
  intro above frame below hframes
  cases above <;> cases hframes

/-- What became of every computation that has begun. -/
structure Computed (recovers : ε → Bool) (c : Stage κ β ε) : Prop where
  fate : ∀ {i call key memo}, Line c.journal i (.began call key) memo →
    (∃ frame ∈ c.frames, frame.call = call ∧ frame.key = key) ∨
    (∃ l e memo', i < l ∧ Line c.journal l (.ended call key (some e)) memo' ∧ recovers e = false) ∨
    ∃ x, c.memo.find? key = some (.done x)
  between : ∀ {i j call call' key memo memo'}, i < j → Line c.journal i (.began call key) memo →
    Line c.journal j (.began call' key) memo' →
    ∃ l e memo'', i < l ∧ l < j ∧ Line c.journal l (.ended call key (some e)) memo'' ∧
    recovers e = false

theorem Computed.step (h : Computed recovers a) (ha : Reached recovers a)
    (hstep : Step recovers a b) :
    Computed recovers b := by
  have hb : Kept b := Reached.kept (ha.tail hstep)
  refine ⟨fun {i call key memo} hline => ?_, fun {i j call call' key memo memo'} hij hi hj => ?_⟩
  · rcases hstep.line_cases hline with hline | ⟨-, -, hframe⟩
    · rcases h.fate hline with
        ⟨frame, hframe, rfl, rfl⟩ | ⟨l, e, memo', hlt, hended, hforeign⟩ | ⟨x, hx⟩
      · rcases hstep.frame_cases hframe with
          hframe | ⟨_, hended, ⟨e, _, rfl, hforeign, -⟩ | ⟨-, x, _, hanswered, hx⟩⟩
        · exact Or.inl ⟨frame, hframe, rfl, rfl⟩
        · exact Or.inr (Or.inl ⟨_, e, _, hline.lt_length, hended, hforeign⟩)
        · exact Or.inr (Or.inr ⟨x, hb.now _ (mem_of_getElem? hanswered) _ x hx⟩)
      · exact Or.inr (Or.inl ⟨l, e, memo', hlt, hstep.line hended, hforeign⟩)
      · exact Or.inr (Or.inr ⟨x, hstep.keeps ha.stacked key x hx⟩)
    · exact Or.inl hframe
  · rcases hstep.line_cases hi with hi | ⟨rfl, -⟩
    · rcases hstep.line_cases hj with hj | ⟨rfl, hfound, -⟩
      · obtain ⟨l, e, memo'', hil, hlj, hended, hforeign⟩ := h.between hij hi hj
        exact ⟨l, e, memo'', hil, hlj, hstep.line hended, hforeign⟩
      · -- The question is neither under way nor recorded, so its last computation has failed.
        rcases h.fate hi with
          ⟨frame, hframe, -, rfl⟩ | ⟨l, e, memo', hil, hended, hforeign⟩ | ⟨x, hx⟩
        · obtain ⟨sofar, hsofar⟩ := ha.stacked.exists_running hframe
          cases hfound.symm.trans hsofar
        · exact ⟨l, e, memo', hil, Nat.lt_succ_of_lt hended.lt_length, hstep.line hended, hforeign⟩
        · cases hfound.symm.trans hx
    · rcases hstep.line_cases hj with hj | ⟨rfl, -⟩
      · have := hj.lt_length
        omega
      · omega

theorem Reached.computed (h : Reached recovers c) : Computed recovers c :=
  h.induction ⟨nofun, nofun⟩ fun ha h hstep => h.step ha hstep

/-- The answer of a computation under way that grows by appending begins with everything that calls
for it were given meanwhile. -/
def Growing (c : Stage κ β ε) : Prop :=
  ∀ frame ∈ c.frames, ∀ empty, frame.request = .generate empty →
    ∃ sofar, c.memo.find? frame.key = some (.running (some sofar)) ∧
      ∀ {γ : Type} (items : β frame.key → List γ),
        (∀ k f memo, frame.call < k → Line c.journal k (.grew frame.key f) memo →
          ∀ x, items x <+: items (f x)) →
        ∀ {l empty' memo}, frame.call < l →
        Line c.journal l (.asked frame.key (.generate empty')) memo →
          ∃ x memo', Line c.journal (l + 1) (.answered l frame.key (.ok x)) memo' ∧
          items x <+: items sofar

/-- What is under way was so before, or has just begun with nothing in its answer. -/
theorem Step.mem_frames (hstep : Step recovers a b) {frame : Frame κ β}
    (hframe : frame ∈ b.frames) :
    frame ∈ a.frames ∨
      frame.call = a.journal.length ∧ b.memo.find? frame.key =
        some (.running frame.request.initial) := by
  cases hstep with
  | known | again | grow => exact Or.inl hframe
  | start =>
    rcases mem_cons.mp hframe with rfl | hframe
    · exact Or.inr ⟨rfl, find?_start_self⟩
    · exact Or.inl hframe
  | finish | forget => exact Or.inl (mem_cons_of_mem _ hframe)

/-- A growing answer stays or grows by one piece, which is written down. -/
theorem Step.sofar_cases (hstep : Step recovers a b) (ha : Stacked a) {frame : Frame κ β}
    (hframe : frame ∈ a.frames) (hframe' : frame ∈ b.frames) {sofar : β frame.key}
    (hsofar : a.memo.find? frame.key = some (.running (some sofar))) :
    b.memo.find? frame.key = some (.running (some sofar)) ∨
      ∃ f, Line b.journal a.journal.length (.grew frame.key f) b.memo ∧
        b.memo.find? frame.key = some (.running (some (f sofar))) := by
  cases hstep with
  | known | again => exact Or.inl hsofar
  | @start memo journal frames key request hfound =>
    refine Or.inl ?_
    rw [← hsofar]
    refine find?_start_of_ne fun hkey => ?_
    subst hkey
    cases hfound.symm.trans hsofar
  | @grow memo memo' journal frames key f hgrown =>
    rcases hgrown with rfl | rfl
    · exact Or.inl hsofar
    · by_cases hkey : frame.key = key
      · subst hkey
        exact Or.inr ⟨f, line_append_one.mpr (Or.inr ⟨rfl, rfl⟩), find?_grow_self hsofar⟩
      · exact Or.inl ((find?_grow (Or.inl hkey)).trans hsofar)
  | finish => exact Or.inl ((find?_finish_of_ne (ha.ne_of_mem hframe')).trans hsofar)
  | forget => exact Or.inl ((find?_forget_of_ne (ha.ne_of_mem hframe')).trans hsofar)

theorem Growing.step (h : Growing a) (ha : Reached recovers a) (hstep : Step recovers a b) :
    Growing b := by
  intro frame hframe' empty hrequest
  rcases hstep.mem_frames hframe' with hframe | ⟨hcall, hnew⟩
  · obtain ⟨sofar, hsofar, hparts⟩ := h frame hframe empty hrequest
    obtain ⟨_, hasked⟩ := ha.bracketed.line_of_mem hframe
    rcases hstep.sofar_cases ha.stacked hframe hframe' hsofar with hsofar' | ⟨f, hgrew, hsofar'⟩
    · refine ⟨sofar, hsofar', fun items happends l empty' memo hlt hline => ?_⟩
      rcases hstep.line_cases hline with hline' | ⟨rfl, rfl, memo', hanswered⟩
      · obtain ⟨x, memo', hanswered, hx⟩ := hparts items
          (fun k f memo hk hline => happends k f memo hk (hstep.line hline)) hlt hline'
        exact ⟨x, memo', hstep.line hanswered, hx⟩
      · -- A call that is made now gets what the answer holds now.
        rw [hsofar] at hanswered
        exact ⟨sofar, memo', hanswered, prefix_refl _⟩
    · refine ⟨f sofar, hsofar', fun items happends l empty' memo hlt hline => ?_⟩
      have hgrows : items sofar <+: items (f sofar) := happends _ f _ hasked.lt_length hgrew sofar
      rcases hstep.line_cases hline with hline' | ⟨rfl, -⟩
      · obtain ⟨x, memo', hanswered, hx⟩ := hparts items
          (fun k f memo hk hline => happends k f memo hk (hstep.line hline)) hlt hline'
        exact ⟨x, memo', hstep.line hanswered, hx.trans hgrows⟩
      · cases (hgrew.unique hline).1
  · rw [hrequest] at hnew
    refine ⟨empty, hnew, fun items happends l empty' memo hlt hline => ?_⟩
    rcases hstep.line_cases hline with hline | ⟨rfl, -⟩
    · have := hline.lt_length
      omega
    · omega

theorem Reached.growing (h : Reached recovers c) : Growing c :=
  h.induction (fun _ hframe => by cases hframe) fun ha h hstep => h.step ha hstep

/-- What calls for a growing answer were given is a beginning of the answer. -/
def Shown (c : Stage κ β ε) : Prop :=
  ∀ {γ : Type} {key : κ} (items : β key → List γ) {i l j empty empty' x m₁ m₂ m₃},
    Line c.journal i (.asked key (.generate empty)) m₁ →
    Line c.journal l (.asked key (.generate empty')) m₂ →
    Line c.journal j (.answered i key (.ok x)) m₃ → i < l → l < j →
    (∀ k f m, i < k → k < j → Line c.journal k (.grew key f) m → ∀ y, items y <+: items (f y)) →
    ∃ y m, Line c.journal (l + 1) (.answered l key (.ok y)) m ∧ items y <+: items x

theorem Shown.step (h : Shown a) (ha : Reached recovers a) (hstep : Step recovers a b) :
    Shown b := by
  intro γ key items i l j empty empty' x m₁ m₂ m₃ hi hl hj hil hlj happends
  -- Lines before the end of the old journal stand in the old journal.
  have hold {k : Nat} {request : MemoRequest (β key)} {memo : Memo κ β}
      (hline : Line b.journal k (.asked key request) memo) (hk : k < a.journal.length) :
      Line a.journal k (.asked key request) memo := by
    rcases hstep.line_cases hline with hline | ⟨rfl, -⟩
    · exact hline
    · omega
  rcases hstep.line_cases hj with
    hj | ⟨rfl, -, ⟨rfl, -⟩ | ⟨⟨failure, hended⟩, request, hframes, hgiven⟩⟩
  · have hlast := hj.lt_length
    obtain ⟨y, m, hanswered, hy⟩ := h items (hold hi (by omega)) (hold hl (by omega)) hj hil hlj
      fun k f m hik hkj hline => happends k f m hik hkj (hstep.line hline)
    exact ⟨y, m, hstep.line hanswered, hy⟩
  · omega
  · have hi' := hold hi (by omega)
    have hl' : Line a.journal l (.asked key (.generate empty')) m₂ := by
      rcases hstep.line_cases hl with hl | ⟨rfl, -⟩
      · exact hl
      · cases (hended.unique hl).1
    have hframe : ⟨i, key, request⟩ ∈ a.frames := hframes ▸ mem_cons_self
    obtain ⟨_, hasked⟩ := ha.bracketed.line_of_mem hframe
    cases (hasked.unique hi').1
    obtain ⟨sofar, hsofar, hparts⟩ := ha.growing _ hframe empty rfl
    have hx : x = sofar := by
      rw [hgiven x empty rfl rfl, Memo.sofar?, hsofar]
      rfl
    subst hx
    obtain ⟨y, m, hanswered, hy⟩ := hparts items
      (fun k f m hik hline => happends k f m hik (Nat.lt_succ_of_lt hline.lt_length)
        (hstep.line hline)) hil hl'
    exact ⟨y, m, hstep.line hanswered, hy⟩

theorem Reached.shown (h : Reached recovers c) : Shown c :=
  h.induction (P := Shown) nofun fun ha h hstep => h.step ha hstep

theorem Reached.counted (h : Reached recovers c) :
    c.memo.hits + c.memo.misses + c.memo.trips = c.journal.countP (·.event.isCall) := by
  refine h.induction (P := fun c => c.memo.hits + c.memo.misses + c.memo.trips = c.journal.countP
    (·.event.isCall)) rfl fun _ ih hstep => ?_
  cases hstep with
  | grow hgrown =>
    rcases hgrown with rfl | rfl
    · simpa [Event.isCall] using ih
    · simpa [Event.isCall] using ih
  | known | again | start =>
    simp only [countP_append, ← ih]
    simp [Event.isCall, Memo.hit, Memo.trip, Memo.start]
    omega
  | finish | forget => simpa [Event.isCall, Memo.finish, Memo.forget] using ih

end Stage

/-- However calls are nested and however they end, the memo keeps its promises. -/
theorem Script.play_protocol {α : Type} (recovers : ε → Bool) (script : Script κ β ε α) :
    Protocol recovers (script.play recovers) := by
  have hreached : Stage.Reached recovers (.of (script.play recovers) []) := script.play_steps
  have hbracketed := hreached.bracketed
  refine ⟨?_, ?_, hreached.kept.lines, ?_, hreached.computed.between, ?_, ?_, ?_, hreached.shown,
    hreached.counted⟩
  · intro i key request memo hline
    rcases hbracketed.pending hline with ⟨frame, hframe, -⟩ | ⟨j, outcome, memo', hanswered⟩
    · cases hframe
    · obtain ⟨_, _, hlt, -⟩ := hbracketed.closed hanswered
      exact ⟨j, outcome, memo', hlt, hanswered⟩
  · intro i j key request memo outcome memo' hasked hanswered
    obtain ⟨request', _, -, hasked', hrunning⟩ := hbracketed.closed hanswered
    rw [(hasked.unique hasked').2]
    exact hrunning
  · intro i key request memo x hline hdone
    have hresponds := hreached.responds hline
    rw [hdone] at hresponds
    exact hresponds
  · intro l call key e memo hline hforeign
    rcases hreached.closes hline with ⟨_, memo', ⟨⟩, -, hanswered, hnone⟩ | ⟨hrecovered, -⟩
    · exact ⟨memo', hanswered, contains_eq_false_iff.mpr hnone⟩
    · cases hforeign.symm.trans (hrecovered e rfl)
  · intro l call key failure memo hline hrecovered
    rcases hreached.closes hline with ⟨e, memo', rfl, hforeign, -⟩ | ⟨-, hrecorded⟩
    · cases hforeign.symm.trans (hrecovered e rfl)
    · exact hrecorded
  · intro i key fallback memo hline hrunning
    obtain ⟨sofar, hsofar⟩ := isRunning_iff.mp hrunning
    have hresponds := hreached.responds hline
    rw [hsofar] at hresponds
    exact hresponds

/-- A growing answer that is asked for while it grows, around a question that fails and is asked for
again. -/
def Script.sample : Script Nat (fun _ => List Nat) Bool Unit :=
  .generate 0 [] (.grow 0 (· ++ [1]) (.generate 0 [] (.give ()) fun _ => .grow 0 (· ++ [2])
    (.answer 1 [7] (.fail false) fun _ => .answer 1 [7] (.give [3]) fun _ => .give ()))) fun _ =>
      .give ()

/-- The memo of the sample: one answer grows around another one forgotten and found again. -/
theorem Script.memo_play_sample : (Script.sample.play id).memo =
    ((((((((({} : Memo Nat fun _ => List Nat).start 0 (some [])).grow 0 (· ++ [1])).trip.grow 0
      (· ++ [2])).start 1 none).forget 1).start 1 none).finish 1 [3]).finish 0 [1, 2]) := by
  have hpure {α : Type} (a : α) (s : Watched Nat (fun _ => List Nat) Bool) :
      (pure a : ExceptT Bool (StateM _) α) s = (.ok a, s) := rfl
  have hthrow {α : Type} (e : Bool) (s : Watched Nat (fun _ => List Nat) Bool) :
      (throw e : ExceptT Bool (StateM _) α) s = (.error e, s) := rfl
  simp [sample, play, run, hpure, hthrow, Watched.generate, Watched.answer, Watched.watch,
    Watched.slot, Watched.note, Watched.failure?, MemoSlot.generate, MemoSlot.answer,
    Growers.extend, find?_start_of_ne, find?_grow, find?_grow_self, find?_finish_of_ne,
    find?_forget_of_ne, Memo.sofar?]

theorem Script.play_protocol_sample :
    (Script.sample.play id).memo.find? 0 = some (.done [1, 2]) ∧
      (Script.sample.play id).memo.trips = 1 ∧ Protocol id (Script.sample.play id) := by
  refine ⟨?_, ?_, Script.play_protocol id Script.sample⟩
  · rw [memo_play_sample, find?_finish_self]
  · rw [memo_play_sample]
    simp [Memo.start, Memo.trip, Memo.forget, Memo.finish]

end NameInference
