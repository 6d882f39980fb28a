import Mathlib.Logic.Relation
import NameInference.Proofs.Memo.Entries

/-!
# Scripts of calls on one memo

A script is a finite program that asks a memo for answers and goes on with them. Every computation
it hands to the memo is a script again, so calls nest in every possible way. What happens while it
is played is written into a journal, with the memo at that moment. Playing a script is a sequence of
a few kinds of steps, over which the rest is proved.
-/

namespace NameInference

variable {α : Type}

/-- What a call asks for: an answer that falls back to a given one, or one that grows from an empty
one. -/
inductive MemoRequest (α : Type) where
  | answer (fallback : α)
  | generate (empty : α)

namespace MemoRequest

variable {α : Type}

/-- What a growing answer holds at first; other answers do not grow. -/
def initial : MemoRequest α → Option α
  | answer _ => none
  | generate empty => some empty

/-- What the call gets if the question is being computed. -/
def reentry (sofar : Option α) : MemoRequest α → α
  | answer fallback => fallback
  | generate empty => sofar.getD empty

end MemoRequest

section Script

variable (κ : Type) (β : κ → Type) (ε : Type)

/-- A program of nested calls. Behind a call it goes on with the outcome, which may be a failure. A
piece is given to the innermost growing answer of its question around. -/
inductive Script : Type → Type 1 where
  | give {α : Type} (a : α) : Script α
  | fail {α : Type} (e : ε) : Script α
  | answer {α : Type} (key : κ) (fallback : β key) (compute : Script (β key))
      (next : Except ε (β key) → Script α) : Script α
  | generate {α : Type} (key : κ) (empty : β key) (compute : Script Unit)
      (next : Except ε (β key) → Script α) : Script α
  | grow {α : Type} (key : κ) (f : β key → β key) (next : Script α) : Script α

/-- What is written down. A call is referred to by the number of its own line in the journal. -/
inductive Event where
  | asked (key : κ) (request : MemoRequest (β key))
  | began (call : Nat) (key : κ)
  | grew (key : κ) (f : β key → β key)
  | ended (call : Nat) (key : κ) (failure : Option ε)
  | answered (call : Nat) (key : κ) (outcome : Except ε (β key))

variable [BEq κ] [Hashable κ]

/-- A line of the journal: what happened, and the memo right after it. A call has not changed the
memo yet. -/
structure Moment where
  event : Event κ β ε
  memo : Memo κ β

/-- A memo and its journal. -/
structure Watched where
  memo : Memo κ β := {}
  journal : List (Moment κ β ε) := []

end Script

variable {κ : Type} {β : κ → Type} {ε : Type} [BEq κ] [Hashable κ] [LawfulBEq κ]

namespace Watched

/-- The memo beside its journal. -/
def slot : MemoSlot (Watched κ β ε) κ β := ⟨memo, fun f s => { s with memo := f s.memo }⟩

/-- Writes a line. -/
def note (event : Event κ β ε) (s : Watched κ β ε) : Watched κ β ε :=
  { s with journal := s.journal ++ [⟨event, s.memo⟩] }

/-- The failure of an outcome. -/
def failure? {α : Type} : Except ε α → Option ε
  | .ok _ => none
  | .error e => some e

/-- Writes down the begin and the end of a computation. -/
def watch {α : Type} (call : Nat) (key : κ) (compute : ExceptT ε (StateM (Watched κ β ε)) α) :
    ExceptT ε (StateM (Watched κ β ε)) α := fun s =>
  let (outcome, t) := compute (s.note (.began call key))
  (outcome, t.note (.ended call key (failure? outcome)))

/-- Asks for an answer and writes down the call and its outcome. -/
def answer (recovers : ε → Bool) (key : κ) (fallback : β key)
    (compute : ExceptT ε (StateM (Watched κ β ε)) (β key)) :
    StateM (Watched κ β ε) (Except ε (β key)) := fun s =>
  let call := s.journal.length
  let (outcome, t) := slot.answer recovers key fallback (watch call key compute)
    (s.note (.asked key (.answer fallback)))
  (outcome, t.note (.answered call key outcome))

/-- Asks for an answer that grows and writes down the call and its outcome. -/
def generate (recovers : ε → Bool) (key : κ) (empty : β key)
    (compute : ((β key → β key) → ExceptT ε (StateM (Watched κ β ε)) Unit) →
    ExceptT ε (StateM (Watched κ β ε)) Unit) : StateM (Watched κ β ε) (Except ε (β key)) := fun s =>
  let call := s.journal.length
  let (outcome, t) := slot.generate recovers key empty (fun grow => watch call key (compute grow))
    (s.note (.asked key (.generate empty)))
  (outcome, t.note (.answered call key outcome))

end Watched

/-- The ways to give pieces to the growing answers around. -/
abbrev Growers (κ : Type) (β : κ → Type) (ε : Type) [BEq κ] [Hashable κ] :=
  (key : κ) → (β key → β key) → ExceptT ε (StateM (Watched κ β ε)) Unit

namespace Growers

/-- No answer grows. -/
def none : Growers κ β ε := fun _ _ => pure ()

/-- One more answer grows. -/
def extend (growers : Growers κ β ε) (key : κ)
    (grow : (β key → β key) → ExceptT ε (StateM (Watched κ β ε)) Unit) :
    Growers κ β ε := fun q f =>
  if h : q == key then grow ((eq_of_beq h) ▸ f) else growers q f

end Growers

namespace Script

/-- Plays a script. Failures that `recovers` accepts are the ones that a computation may have and
still be answered. -/
def run (recovers : ε → Bool) :
    {α : Type} → Script κ β ε α → Growers κ β ε → ExceptT ε (StateM (Watched κ β ε)) α
  | _, give a, _ => pure a
  | _, fail e, _ => throw e
  | _, answer key fallback compute next, growers => fun s =>
    let (outcome, t) := Watched.answer recovers key fallback (compute.run recovers growers) s
    (next outcome).run recovers growers t
  | _, generate key empty compute next, growers => fun s =>
    let (outcome, t) := Watched.generate recovers key empty
      (fun grow => compute.run recovers (growers.extend key grow)) s
    (next outcome).run recovers growers t
  | _, grow key f next, growers => fun s =>
    next.run recovers growers ((growers key f s).2.note (.grew key f))

/-- The memo and its journal after a script, from an empty memo on. -/
def play {α : Type} (recovers : ε → Bool) (script : Script κ β ε α) : Watched κ β ε :=
  (script.run recovers .none {}).2

end Script

/-- A computation that is under way: the number of its call, its question and what was asked for. -/
structure Frame (κ : Type) (β : κ → Type) where
  call : Nat
  key : κ
  request : MemoRequest (β key)

/-- A memo with its journal, and the computations under way, innermost first. -/
structure Stage (κ : Type) (β : κ → Type) (ε : Type) [BEq κ] [Hashable κ] where
  memo : Memo κ β := {}
  journal : List (Moment κ β ε) := []
  frames : List (Frame κ β) := []

namespace Stage

/-- The stage of a watched memo. -/
def of (s : Watched κ β ε) (frames : List (Frame κ β)) : Stage κ β ε := ⟨s.memo, s.journal, frames⟩

/-- What can happen next: a call is answered at once or opens a computation, an answer grows, or the
innermost computation ends and its call is answered. -/
inductive Step (recovers : ε → Bool) : Stage κ β ε → Stage κ β ε → Prop where
  | known {memo : Memo κ β} {journal : List (Moment κ β ε)} {frames : List (Frame κ β)} {key : κ}
      (request : MemoRequest (β key)) {a : β key} (found : memo.find? key = some (.done a)) :
      Step recovers ⟨memo, journal, frames⟩
        ⟨memo.hit,
         journal ++ [⟨.asked key request, memo⟩, ⟨.answered journal.length key (.ok a), memo.hit⟩],
        frames⟩
  | again {memo : Memo κ β} {journal : List (Moment κ β ε)} {frames : List (Frame κ β)} {key : κ}
      (request : MemoRequest (β key)) {sofar : Option (β key)}
      (found : memo.find? key = some (.running sofar)) : Step recovers ⟨memo, journal, frames⟩
        ⟨memo.trip, journal ++ [⟨.asked key request, memo⟩,
          ⟨.answered journal.length key (.ok (request.reentry sofar)), memo.trip⟩], frames⟩
  | start {memo : Memo κ β} {journal : List (Moment κ β ε)} {frames : List (Frame κ β)} {key : κ}
      (request : MemoRequest (β key)) (found : memo.find? key = none) :
      Step recovers ⟨memo, journal, frames⟩
        ⟨memo.start key request.initial, journal ++ [⟨.asked key request, memo⟩,
          ⟨.began journal.length key, memo.start key request.initial⟩],
          ⟨journal.length, key, request⟩ :: frames⟩
  | grow {memo memo' : Memo κ β} {journal : List (Moment κ β ε)} {frames : List (Frame κ β)}
      {key : κ} {f : β key → β key} (grown : memo' = memo ∨ memo' = memo.grow key f) :
      Step recovers ⟨memo, journal, frames⟩ ⟨memo', journal ++ [⟨.grew key f, memo'⟩], frames⟩
  | finish {memo : Memo κ β} {journal : List (Moment κ β ε)} {frames : List (Frame κ β)}
    {frame : Frame κ β}
      (failure : Option ε) (a : β frame.key) (recovered : ∀ e ∈ failure, recovers e = true)
      (given : ∀ empty, frame.request = .generate empty → a = (memo.sofar? frame.key).getD empty) :
      Step recovers ⟨memo, journal, frame :: frames⟩
        ⟨memo.finish frame.key a, journal ++ [⟨.ended frame.call frame.key failure, memo⟩,
          ⟨.answered frame.call frame.key (.ok a), memo.finish frame.key a⟩], frames⟩
  | forget {memo : Memo κ β} {journal : List (Moment κ β ε)} {frames : List (Frame κ β)}
      {frame : Frame κ β} {e : ε} (foreign : recovers e = false) :
      Step recovers ⟨memo, journal, frame :: frames⟩
        ⟨memo.forget frame.key, journal ++ [⟨.ended frame.call frame.key (some e), memo⟩,
          ⟨.answered frame.call frame.key (.error e), memo.forget frame.key⟩], frames⟩

/-- Any number of steps. -/
abbrev Steps (recovers : ε → Bool) : Stage κ β ε → Stage κ β ε → Prop :=
  Relation.ReflTransGen (Step recovers)

end Stage

namespace Growers

/-- A piece is lost or goes to the answer of its question. -/
def Sound (growers : Growers κ β ε) : Prop :=
  ∀ key f s, (growers key f s).2 = s ∨ (growers key f s).2 = Watched.slot.update (·.grow key f) s

theorem sound_none : (none : Growers κ β ε).Sound := fun _ _ _ => Or.inl rfl

theorem Sound.extend {growers : Growers κ β ε} (h : growers.Sound) (key : κ) :
    (growers.extend key (Watched.slot.grow key)).Sound := by
  intro q f s
  by_cases hq : q = key
  · subst hq
    refine Or.inr ?_
    rw [Growers.extend, dif_pos (beq_self_eq_true q)]
    rfl
  · rw [Growers.extend, dif_neg (by simpa using hq)]
    exact h q f s

end Growers

section Steps

open Stage

variable {recovers : ε → Bool} {key : κ} {s t : Watched κ β ε} {frames : List (Frame κ β)}

/-- The state in which the computation of a new question begins. -/
def Watched.begun (request : MemoRequest (β key)) (s : Watched κ β ε) : Watched κ β ε :=
  (slot.update (·.start key request.initial) (s.note (.asked key request))).note
    (.began s.journal.length key)

/-- From a call for a new question to the end of its computation. -/
theorem Watched.steps_computed {compute : ExceptT ε (StateM (Watched κ β ε)) α}
    {outcome : Except ε α}
    (hcompute : ∀ s frames, Steps recovers (of s frames) (of (compute s).2 frames))
    (frames : List (Frame κ β)) (request : MemoRequest (β key)) (hfound : s.memo.find? key = none)
    (hrun : watch s.journal.length key compute
      (slot.update (·.start key request.initial) (s.note (.asked key request))) = (outcome, t)) :
    ∃ u, t = u.note (.ended s.journal.length key (failure? outcome)) ∧
      Steps recovers (of s frames) (of u (⟨s.journal.length, key, request⟩ :: frames)) := by
  have hstart : Step recovers (of s frames) _ := .start request hfound
  have hbegun : Step recovers (of s frames)
      (of (s.begun request) (⟨s.journal.length, key, request⟩ :: frames)) := by
    simpa [of, begun, note, slot] using hstart
  rcases hinside : compute (s.begun request) with ⟨inside, u⟩
  have hsteps := hcompute (s.begun request) (⟨s.journal.length, key, request⟩ :: frames)
  rw [hinside] at hsteps
  have hwatched : watch s.journal.length key compute (slot.update (·.start key request.initial)
      (s.note (.asked key request))) =
        (inside, u.note (.ended s.journal.length key (failure? inside))) := by
    unfold begun at hinside
    rw [watch, hinside]
  cases hwatched.symm.trans hrun
  exact ⟨u, rfl, .head hbegun hsteps⟩

theorem Watched.step_finish {call : Nat} (request : MemoRequest (β key)) (failure : Option ε)
    (a : β key) (hrecovered : ∀ e ∈ failure, recovers e = true)
    (hgiven : ∀ empty, request = .generate empty → a = (t.memo.sofar? key).getD empty) :
    Step recovers (of t (⟨call, key, request⟩ :: frames)) (of ((slot.update (·.finish key a)
      (t.note (.ended call key failure))).note (.answered call key (.ok a))) frames) := by
  have hfinish : Step recovers (of t (⟨call, key, request⟩ :: frames)) _ :=
    .finish failure a hrecovered hgiven
  simpa [of, note, slot] using hfinish

theorem Watched.step_forget {call : Nat} (request : MemoRequest (β key)) {e : ε}
    (hforeign : recovers e = false) :
    Step recovers (of t (⟨call, key, request⟩ :: frames)) (of ((slot.update (·.forget key)
      (t.note (.ended call key (some e)))).note (.answered call key (.error e))) frames) := by
  have hforget : Step recovers (of t (⟨call, key, request⟩ :: frames)) _ := .forget hforeign
  simpa [of, note, slot] using hforget

/-- A call is answered at once, or its computation takes its steps and ends. -/
theorem Watched.steps_of_ending {compute : ExceptT ε (StateM (Watched κ β ε)) α}
    (request : MemoRequest (β key)) {close : Except ε α → Watched κ β ε → β key}
    (hclose : ∀ empty, request = .generate empty →
      ∀ outcome t, close outcome t = (t.memo.sofar? key).getD empty)
    (hcompute : ∀ s frames, Steps recovers (of s frames) (of (compute s).2 frames))
    {r : Except ε (β key) × Watched κ β ε}
    (hcall : slot.Ending recovers key request.initial (request.reentry ·) close
      (watch s.journal.length key compute) (s.note (.asked key request)) r) :
    Steps recovers (of s frames) (of (r.2.note (.answered s.journal.length key r.1)) frames) := by
  cases hcall with
  | known hfound =>
    have hknown : Step recovers (of s frames) _ := .known request hfound
    exact .single (by simpa [of, note, slot] using hknown)
  | again hfound =>
    have hagain : Step recovers (of s frames) _ := .again request hfound
    exact .single (by simpa [of, note, slot] using hagain)
  | @finished outcome t hfound hrun hrecovered =>
    obtain ⟨u, rfl, hsteps⟩ := steps_computed (s := s) hcompute frames request hfound hrun
    refine hsteps.tail (step_finish request (failure? outcome) _ (fun e he => hrecovered e ?_)
        fun empty h =>
      hclose empty h _ _)
    cases outcome <;> cases he
    rfl
  | failed hfound hrun hforeign =>
    obtain ⟨u, rfl, hsteps⟩ := steps_computed (s := s) hcompute frames request hfound hrun
    exact hsteps.tail (step_forget request hforeign)

theorem Watched.answer_steps {compute : ExceptT ε (StateM (Watched κ β ε)) (β key)}
    (fallback : β key)
    (hcompute : ∀ s frames, Steps recovers (of s frames) (of (compute s).2 frames))
    (s : Watched κ β ε) (frames : List (Frame κ β)) :
    Steps recovers (of s frames) (of (answer recovers key fallback compute s).2 frames) :=
  steps_of_ending (.answer fallback) nofun hcompute (slot.answer_ending recovers fallback _ _)

/-- A computation of a growing answer gets a way to give pieces. -/
theorem Watched.generate_steps
    (compute : ((β key → β key) → ExceptT ε (StateM (Watched κ β ε)) Unit) →
      ExceptT ε (StateM (Watched κ β ε)) Unit)
    (empty : β key)
    (hcompute : ∀ s frames, Steps recovers (of s frames) (of (compute (slot.grow key) s).2 frames))
    (s : Watched κ β ε) (frames : List (Frame κ β)) :
    Steps recovers (of s frames) (of (generate recovers key empty compute s).2 frames) := by
  refine steps_of_ending (.generate empty) ?_ hcompute
    (slot.generate_ending recovers empty (fun grow => watch s.journal.length key (compute grow)) _)
  rintro _ ⟨⟩ outcome t
  rfl

/-- Playing a script is a sequence of steps that ends with the computations under way that it began
with. -/
theorem Script.run_steps (script : Script κ β ε α) {growers : Growers κ β ε}
    (hgrowers : growers.Sound) (s : Watched κ β ε) (frames : List (Frame κ β)) :
    Steps recovers (of s frames) (of (script.run recovers growers s).2 frames) := by
  induction script generalizing growers s frames with
  | give a => exact .refl
  | fail e => exact .refl
  | answer key fallback compute next ihcompute ihnext =>
    have hcall := Watched.answer_steps fallback (ihcompute hgrowers) s frames
    exact hcall.trans (ihnext _ hgrowers _ frames)
  | generate key empty compute next ihcompute ihnext =>
    have hcall := Watched.generate_steps
      (fun grow => compute.run recovers (growers.extend key grow)) empty
      (ihcompute (hgrowers.extend key)) s frames
    exact hcall.trans (ihnext _ hgrowers _ frames)
  | grow key f next ih =>
    have hgrow : Step recovers (of s frames)
        (of ((growers key f s).2.note (.grew key f)) frames) := by
      rcases hgrowers key f s with hlost | hgiven
      · rw [hlost]
        exact .grow (Or.inl rfl)
      · rw [hgiven]
        exact .grow (Or.inr rfl)
    exact .head hgrow (ih hgrowers _ frames)

/-- A played script has taken its steps from an empty memo on, and nothing is under way any more. -/
theorem Script.play_steps (script : Script κ β ε α) :
    Steps recovers {} (of (script.play recovers) []) :=
  script.run_steps Growers.sound_none {} []

end Steps

end NameInference
