import NameInference.Syntax.Node

/-!
# Places

A place is a node together with the way up to the root of its tree: the ancestors, innermost first,
each with the number of the child through which the way leads. Two places are the same if they are
in the same tree and their ways have the same numbers; the nodes are then the same too.
-/

namespace NameInference

/-- What identifies a place: the number of its tree and the child numbers on the way up. -/
structure PlaceKey where
  tree : Nat
  path : List Nat
  deriving DecidableEq, Hashable, Repr, Inhabited

/-- A node in a tree. -/
structure Place where
  tree : Nat
  node : Node
  above : List (Nat × Node) := []
  deriving Inhabited

namespace Place

/-- The root of a tree. -/
def root (tree : Nat) (module : Module) : Place := ⟨tree, module.root, []⟩

/-- The numbers of the children on the way up. -/
def path (p : Place) : List Nat := p.above.map (·.1)

/-- What identifies the place. -/
def key (p : Place) : PlaceKey := ⟨p.tree, p.path⟩

/-- Number of proper ancestors. -/
def depth (p : Place) : Nat := p.above.length

def start (p : Place) : Position := p.node.start

def stop (p : Place) : Position := p.node.stop

def label (p : Place) : String := p.node.form.label

/-- The child with number `i` is `n`. -/
def enter (p : Place) (i : Nat) (n : Node) : Place := ⟨p.tree, n, (i, p.node) :: p.above⟩

/-- The places of the children, in the order of `Form.parts`. -/
def children (p : Place) : List Place := p.node.children.mapIdx p.enter

/-- What the node is, over the places of its parts. -/
def form (p : Place) : Form Place := p.node.form.number p.enter

/-- The place of the parent node. -/
def parent? (p : Place) : Option Place :=
  match p.above with
  | [] => none
  | (_, n) :: rest => some ⟨p.tree, n, rest⟩

/-- The places along a way up, innermost first. -/
def alongWay (tree : Nat) : List (Nat × Node) → List Place
  | [] => []
  | (_, n) :: rest => ⟨tree, n, rest⟩ :: alongWay tree rest

/-- The proper ancestors, innermost first. -/
def ancestors (p : Place) : List Place := alongWay p.tree p.above

/-- The place itself and its ancestors, innermost first. -/
def upwards (p : Place) : List Place := p :: p.ancestors

/-- Whether two places are one. -/
def same (p q : Place) : Bool := p.key == q.key

/-- Whether `p` is `q` or an ancestor of `q`. -/
def covers (p q : Place) : Bool := p.tree == q.tree && p.path.isSuffixOf q.path

/-- The number of the child of `p` through which the way leads up from `q`, if `p` is a proper
ancestor. -/
def childNumber? (p q : Place) : Option Nat :=
  if p.covers q && p.depth < q.depth then q.path[q.depth - p.depth - 1]? else none

theorem sizeOf_lt_of_mem_children {p c : Place} (h : c ∈ p.children) :
    sizeOf c.node < sizeOf p.node := by
  obtain ⟨i, hi, rfl⟩ := List.mem_mapIdx.1 h
  exact Node.sizeOf_lt_of_mem_children (List.getElem_mem hi)

/-- The place and all places below it, each before its children. -/
def walk (p : Place) : List Place :=
  p :: p.children.attach.flatMap fun ⟨c, _⟩ => walk c
termination_by sizeOf p.node
decreasing_by exact sizeOf_lt_of_mem_children ‹_›

/-- The identifier of a name. -/
def id? (p : Place) : Option Text := p.node.id?

/-- Whether the node begins at or before the position and ends after it. -/
def containsPosition (p : Place) (position : Position) : Bool :=
  p.start.upTo position && position.before p.stop

/-- The deeper one of a place and the best one so far. -/
def deeper (best : Option Place) (p : Place) : Option Place :=
  match best with
  | none => some p
  | some b => if b.depth < p.depth then some p else best

/-- The deepest place below the root that contains the position; of several, the first. -/
def deepestAt (root : Place) (position : Position) : Option Place :=
  (root.walk.drop 1).foldl (fun best p =>
    if p.containsPosition position then deeper best p else best) none

end Place

namespace Module

/-- The source text of a span, lines joined by line feeds; nothing if the span leaves the lines. -/
def text (m : Module) (span : Span) : Text :=
  if span.stop.line < span.start.line || m.lines.length < span.stop.line then []
  else
    let lines := (m.lines.take span.stop.line).drop (span.start.line - 1)
    let cut := lines.mapIdx fun i line =>
      let upTo := if i + 1 == lines.length then line.take (span.stop.col - 1) else line
      if i == 0 then upTo.drop (span.start.col - 1) else upTo
    Text.joined [0x0A] cut

end Module

end NameInference
