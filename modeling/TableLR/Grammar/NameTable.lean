/-! Names numbered in the order in which they first appeared. -/
namespace TableLR

/-- A list of different names; the number of a name is its place. -/
structure NameTable where
  names : Array String
  nodup : names.toList.Nodup

namespace NameTable

def empty : NameTable := ⟨#[], by simp⟩

instance : Inhabited NameTable := ⟨empty⟩

def size (t : NameTable) : Nat := t.names.size

def contains (t : NameTable) (name : String) : Bool := t.names.contains name

def index? (t : NameTable) (name : String) : Option Nat := t.names.idxOf? name

def name? (t : NameTable) (i : Nat) : Option String := t.names[i]?

def nameOrMark (t : NameTable) (i : Nat) : String := (t.name? i).getD "?"

/-- Numbers a name. A name that is in the table keeps its number. -/
def intern (t : NameTable) (name : String) : NameTable × Nat :=
  if h : name ∈ t.names then (t, t.names.idxOf name)
  else
    (⟨t.names.push name, by
      rw [Array.toList_push, List.nodup_append]
      refine ⟨t.nodup, by simp, ?_⟩
      intro a ha b hb
      rw [List.mem_singleton.mp hb]
      rintro rfl
      exact h (Array.mem_toList_iff.mp ha)⟩, t.names.size)

end NameTable

end TableLR
