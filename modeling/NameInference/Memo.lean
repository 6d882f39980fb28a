import Std.Data.DHashMap

/-!
# Remembered answers

A memo keeps the answer of every question that was ever computed, and marks a question while it is
being computed. A question that comes back to itself gets a fallback answer, or, if its answer is a
growing list, what the list holds so far. A computation that fails in a way that can be recovered
from gives the fallback too; any other failure leaves no trace of the question.
-/

namespace NameInference

/-- What is known about a question that was asked. -/
inductive MemoEntry (β : Type) where
  | running (sofar : Option β)
  | done (answer : β)

/-- Answers by question, and how often an answer was known, was new, or was asked for while it was
computed. -/
structure Memo (κ : Type) (β : κ → Type) [BEq κ] [Hashable κ] where
  entries : Std.DHashMap κ fun k => MemoEntry (β k) := {}
  hits : Nat := 0
  misses : Nat := 0
  trips : Nat := 0

namespace Memo

variable {κ : Type} {β : κ → Type} [BEq κ] [Hashable κ] [LawfulBEq κ]

instance : Inhabited (Memo κ β) := ⟨{}⟩

/-- What is known about a question. -/
def find? (memo : Memo κ β) (key : κ) : Option (MemoEntry (β key)) := memo.entries.get? key

/-- Whether the question was asked. -/
def contains (memo : Memo κ β) (key : κ) : Bool := memo.entries.contains key

/-- Whether the question is being computed. -/
def isRunning (memo : Memo κ β) (key : κ) : Bool :=
  match memo.find? key with
  | some (.running _) => true
  | _ => false

/-- Number of questions. -/
def size (memo : Memo κ β) : Nat := memo.entries.size

/-- Counts an answer that was known. -/
def hit (memo : Memo κ β) : Memo κ β := { memo with hits := memo.hits + 1 }

/-- Counts a question that came back to itself. -/
def trip (memo : Memo κ β) : Memo κ β := { memo with trips := memo.trips + 1 }

/-- Marks a new question as being computed. -/
def start (memo : Memo κ β) (key : κ) (sofar : Option (β key)) : Memo κ β :=
  { memo with entries := memo.entries.insert key (.running sofar), misses := memo.misses + 1 }

/-- Changes what a growing answer holds so far. -/
def grow (memo : Memo κ β) (key : κ) (f : β key → β key) : Memo κ β :=
  match memo.find? key with
  | some (.running (some sofar)) =>
    { memo with entries := memo.entries.insert key (.running (some (f sofar))) }
  | _ => memo

/-- What a growing answer holds so far. -/
def sofar? (memo : Memo κ β) (key : κ) : Option (β key) :=
  match memo.find? key with
  | some (.running sofar) => sofar
  | _ => none

/-- Records the answer. -/
def finish (memo : Memo κ β) (key : κ) (answer : β key) : Memo κ β :=
  { memo with entries := memo.entries.insert key (.done answer) }

/-- Forgets the question. -/
def forget (memo : Memo κ β) (key : κ) : Memo κ β := { memo with entries := memo.entries.erase key }

/-- Forgets all questions; the counts stay. -/
def clear (memo : Memo κ β) : Memo κ β := { memo with entries := {} }

end Memo

/-- The memo within a larger state. -/
structure MemoSlot (σ κ : Type) (β : κ → Type) [BEq κ] [Hashable κ] where
  read : σ → Memo κ β
  update : (Memo κ β → Memo κ β) → σ → σ

namespace MemoSlot

variable {σ ε κ : Type} {β : κ → Type} [BEq κ] [Hashable κ] [LawfulBEq κ]

/-- The answer of a question: the recorded one, the fallback if the question is being computed, or
else a new one, which is recorded. Failures that `recovers` accepts give the fallback. -/
def answer (slot : MemoSlot σ κ β) (recovers : ε → Bool) (key : κ) (fallback : β key)
    (compute : ExceptT ε (StateM σ) (β key)) : ExceptT ε (StateM σ) (β key) := fun s =>
  match (slot.read s).find? key with
  | some (.done answer) => (.ok answer, slot.update (·.hit) s)
  | some (.running _) => (.ok fallback, slot.update (·.trip) s)
  | none =>
    match compute (slot.update (·.start key none) s) with
    | (.ok answer, s) => (.ok answer, slot.update (·.finish key answer) s)
    | (.error e, s) =>
      if recovers e then (.ok fallback, slot.update (·.finish key fallback) s)
      else (.error e, slot.update (·.forget key) s)

/-- The answer of a question that is computed piece by piece from an empty one. Asked again
meanwhile, the question gets the pieces so far; after a failure that `recovers` accepts they are the
answer. -/
def generate (slot : MemoSlot σ κ β) (recovers : ε → Bool) (key : κ) (empty : β key)
    (compute : ((β key → β key) → ExceptT ε (StateM σ) Unit) → ExceptT ε (StateM σ) Unit) :
    ExceptT ε (StateM σ) (β key) := fun s =>
  match (slot.read s).find? key with
  | some (.done answer) => (.ok answer, slot.update (·.hit) s)
  | some (.running sofar) => (.ok (sofar.getD empty), slot.update (·.trip) s)
  | none =>
    let grow (f : β key → β key) : ExceptT ε (StateM σ) Unit := fun s =>
      (.ok (), slot.update (·.grow key f) s)
    let close (s : σ) : Except ε (β key) × σ :=
      let answer := ((slot.read s).sofar? key).getD empty
      (.ok answer, slot.update (·.finish key answer) s)
    match compute grow (slot.update (·.start key (some empty)) s) with
    | (.ok _, s) => close s
    | (.error e, s) => if recovers e then close s else (.error e, slot.update (·.forget key) s)

end MemoSlot

end NameInference
