/-!
# Sets of values

Inferred values are handles, and every answer is a finite set of handles, kept as a strictly
ascending list. The empty set is the answer "nothing is known".
-/

namespace NameInference

/-- The handle of an interned value. -/
abbrev ValueId := Nat

/-- The hash of something that has the given parts, from a first number on. -/
def hashParts (seed : UInt64) (parts : List UInt64) : UInt64 := parts.foldl mixHash seed

/-- A finite set of handles in ascending order. -/
structure ValueSet where
  ids : List ValueId := []
  deriving DecidableEq, Repr, Inhabited

namespace ValueSet

instance : EmptyCollection ValueSet := ⟨⟨[]⟩⟩

instance : Hashable ValueSet := ⟨fun s => hashParts (hash s.ids.length) (s.ids.map hash)⟩

/-- The number of handles below the given one in an ascending list, of which one half is looked at,
then half of that one, and so on. -/
def lowerBound (id : ValueId) (ids : List ValueId) : Nat :=
  match h : ids.drop (ids.length / 2) with
  | [] => 0
  | middle :: right =>
    if middle < id then ids.length / 2 + 1 + lowerBound id right
    else lowerBound id (ids.take (ids.length / 2))
termination_by ids.length
decreasing_by
  all_goals
    have hlength := congrArg List.length h
    simp only [List.length_drop, List.length_cons, List.length_take] at *
    omega

/-- Whether the handle is a member. -/
def contains (s : ValueSet) (id : ValueId) : Bool :=
  (s.ids.drop (lowerBound id s.ids)).head?.any (· ≤ id)

/-- The set with one more member, which goes where it belongs unless it is there. -/
def insert (s : ValueSet) (id : ValueId) : ValueSet :=
  let (below, above) := s.ids.splitAt (lowerBound id s.ids)
  if above.head? == some id then s else ⟨below ++ id :: above⟩

/-- The first of any equal handles that follow each other. -/
def unique : List ValueId → List ValueId
  | [] => []
  | [id] => [id]
  | id :: next :: rest => if id == next then unique (next :: rest) else id :: unique (next :: rest)

/-- The set of the members of a list. -/
def ofList (ids : List ValueId) : ValueSet := ⟨unique ids.mergeSort⟩

/-- The set of one member. -/
def single (id : ValueId) : ValueSet := ⟨[id]⟩

/-- Two ascending lists as one, with what is in both taken once. -/
def mergeEither : List ValueId → List ValueId → List ValueId
  | [], t => t
  | s, [] => s
  | a :: s, b :: t =>
    if a < b then a :: mergeEither s (b :: t)
    else if b < a then b :: mergeEither (a :: s) t
    else a :: mergeEither s t
termination_by s t => s.length + t.length

/-- What is in both of two ascending lists. -/
def mergeBoth : List ValueId → List ValueId → List ValueId
  | [], _ | _, [] => []
  | a :: s, b :: t =>
    if a < b then mergeBoth s (b :: t) else if b < a then mergeBoth (a :: s) t
    else a :: mergeBoth s t
termination_by s t => s.length + t.length

/-- The members of either set. -/
def union (s t : ValueSet) : ValueSet := ⟨mergeEither s.ids t.ids⟩

/-- The members of both sets. -/
def inter (s t : ValueSet) : ValueSet := ⟨mergeBoth s.ids t.ids⟩

/-- A set with the members of another one added. Nothing is merged if one of them is empty. -/
def join (s t : ValueSet) : ValueSet :=
  if t.ids.isEmpty then s else if s.ids.isEmpty then t else s.union t

/-- The members of all sets. -/
def ofSets (sets : List ValueSet) : ValueSet := sets.foldl join ∅

/-- The members that satisfy a test. -/
def filter (s : ValueSet) (keep : ValueId → Bool) : ValueSet := ⟨s.ids.filter keep⟩

/-- The members of the images of all members. -/
def bind (s : ValueSet) (f : ValueId → ValueSet) : ValueSet :=
  s.ids.foldl (fun out id => out.join (f id)) ∅

/-- Number of members. -/
def size (s : ValueSet) : Nat := s.ids.length

/-- Whether there is no member. -/
def isEmpty (s : ValueSet) : Bool := s.ids.isEmpty

/-- The smallest member. -/
def first? (s : ValueSet) : Option ValueId := s.ids.head?

/-- The member of a set of one. -/
def only? (s : ValueSet) : Option ValueId :=
  match s.ids with
  | [id] => some id
  | _ => none

end ValueSet

end NameInference
