import NameInference.Syntax.Form

/-!
# Syntax trees

A node is a form whose parts are nodes, with the span it covers and, for an expression, the way it
is used. Every part is smaller than the node it belongs to, so that functions on trees may recurse
on the parts.
-/

namespace NameInference

/-- A node of a syntax tree. Only expressions are bound or deleted. -/
inductive Node where
  | mk (span : Span) (usage : Usage) (form : Form Node)

namespace Form

variable {ν : Type} [SizeOf ν] {a : ν}

private theorem sizeOf_lt_list {xs : List ν} (h : a ∈ xs) : sizeOf a < sizeOf xs :=
  List.sizeOf_lt_of_mem h

private theorem sizeOf_lt_option {x : Option ν} (h : a ∈ x.toList) : sizeOf a < sizeOf x := by
  cases x <;> simp_all

private theorem sizeOf_lt_keywords {xs : List (Keyword ν)} (h : a ∈ xs.map (·.value)) :
    sizeOf a < sizeOf xs := by
  obtain ⟨x, hx, rfl⟩ := List.mem_map.1 h
  have := List.sizeOf_lt_of_mem hx
  cases x
  simp at this ⊢
  omega

private theorem sizeOf_lt_comparisons {xs : List (Comparison ν)} (h : a ∈ xs.map (·.operand)) :
    sizeOf a < sizeOf xs := by
  obtain ⟨x, hx, rfl⟩ := List.mem_map.1 h
  have := List.sizeOf_lt_of_mem hx
  cases x
  simp at this ⊢
  omega

private theorem sizeOf_lt_entries {xs : List (Entry ν)} (h : a ∈ xs.flatMap Entry.parts) :
    sizeOf a < sizeOf xs := by
  obtain ⟨x, hx, ha⟩ := List.mem_flatMap.1 h
  have := List.sizeOf_lt_of_mem hx
  obtain ⟨key, value⟩ := x
  simp only [Entry.parts, List.mem_append, List.mem_singleton, Entry.mk.sizeOf_spec] at ha this
  rcases ha with ha | rfl
  · have := sizeOf_lt_option ha
    omega
  · omega

private theorem sizeOf_lt_clauses {xs : List (Clause ν)} (h : a ∈ xs.flatMap Clause.parts) :
    sizeOf a < sizeOf xs := by
  obtain ⟨x, hx, ha⟩ := List.mem_flatMap.1 h
  have := List.sizeOf_lt_of_mem hx
  obtain ⟨isAsync, target, iterable, conditions⟩ := x
  simp only [Clause.parts, List.mem_cons, Clause.mk.sizeOf_spec] at ha this
  rcases ha with rfl | rfl | ha
  · omega
  · omega
  · have := List.sizeOf_lt_of_mem ha
    omega

/-- A part is smaller than its form. -/
theorem sizeOf_lt_of_mem_parts {f : Form ν} (h : a ∈ f.parts) : sizeOf a < sizeOf f := by
  cases f <;>
    simp only [parts, List.mem_append, List.mem_cons, List.not_mem_nil, or_false, List.append_assoc,
      List.cons_append] at h <;>
    simp <;>
    grind only [→ sizeOf_lt_list, → sizeOf_lt_option, → sizeOf_lt_keywords, → sizeOf_lt_comparisons,
      → sizeOf_lt_entries, → sizeOf_lt_clauses]

end Form

namespace Node

def span : Node → Span
  | mk span _ _ => span

def usage : Node → Usage
  | mk _ usage _ => usage

def form : Node → Form Node
  | mk _ _ form => form

/-- Where the node begins. -/
def start (n : Node) : Position := n.span.start

/-- Where the node ends. -/
def stop (n : Node) : Position := n.span.stop

/-- The nodes that the node is made of, in the order of `Form.parts`. -/
def children (n : Node) : List Node := n.form.parts

/-- A child is smaller than the node. -/
theorem sizeOf_lt_of_mem_children {n c : Node} (h : c ∈ n.children) : sizeOf c < sizeOf n := by
  obtain ⟨span, usage, form⟩ := n
  have := Form.sizeOf_lt_of_mem_parts (f := form) h
  simp only [mk.sizeOf_spec]
  omega

/-- The identifier of a name node. -/
def id? (n : Node) : Option Text :=
  match n.form with
  | .name id => some id
  | _ => none

mutual

/-- Marks what an assignment or a deletion binds: the expression itself and, through tuples, lists
and stars, its parts. -/
def withUsage (usage : Usage) : Node → Node
  | .mk span _ form => .mk span usage (formWithUsage usage form)

/-- Marks the parts of a form. -/
def formWithUsage (usage : Usage) : Form Node → Form Node
  | .tuple elements => .tuple (allWithUsage usage elements)
  | .list elements => .list (allWithUsage usage elements)
  | .starred value => .starred (withUsage usage value)
  | form => form

/-- Marks each node. -/
def allWithUsage (usage : Usage) : List Node → List Node
  | [] => []
  | n :: rest => withUsage usage n :: allWithUsage usage rest

end

instance : Inhabited Node := ⟨.mk default default .noneLit⟩

end Node

/-- A parsed source: its tree and its physical lines. -/
structure Module where
  file : Text
  root : Node
  lines : List Text
  deriving Inhabited

end NameInference
