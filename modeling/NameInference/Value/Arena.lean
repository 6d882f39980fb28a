import Std.Data.HashMap

/-!
# Interning

An arena gives every item a handle: its number in the order of first occurrence. Items with the same
key are the same item and have the same handle. The index leads from the hash of a key to the
handles of all items with this hash, and among these the item is told by its key.
-/

namespace NameInference

/-- Interned items, and their handles by the hashes of their keys. -/
structure Arena (α κ : Type) [BEq κ] [Hashable κ] where
  items : Array α := #[]
  index : Std.HashMap UInt64 (List Nat) := {}

namespace Arena

variable {α κ : Type} [BEq κ] [Hashable κ]

/-- Number of interned items. -/
def size (arena : Arena α κ) : Nat := arena.items.size

/-- The item of a handle. -/
def get? (arena : Arena α κ) (handle : Nat) : Option α := arena.items[handle]?

/-- The handles of the items with a hash. -/
def bucket (arena : Arena α κ) (hash : UInt64) : List Nat := arena.index.getD hash []

/-- The handle of the item with a key. -/
def find? (key : α → κ) (arena : Arena α κ) (k : κ) : Option Nat :=
  (arena.bucket (hash k)).find? fun handle => (arena.get? handle).any (key · == k)

/-- The arena with one more item. -/
def push (key : α → κ) (arena : Arena α κ) (a : α) : Arena α κ :=
  ⟨arena.items.push a,
    arena.index.insert (hash (key a)) (arena.bucket (hash (key a)) ++ [arena.size])⟩

/-- The handle of an item, which is added if there is none with its key. -/
def intern (key : α → κ) (arena : Arena α κ) (a : α) : Nat × Arena α κ :=
  match arena.find? key (key a) with
  | some handle => (handle, arena)
  | none => (arena.size, arena.push key a)

instance : Inhabited (Arena α κ) := ⟨{}⟩

end Arena

end NameInference
