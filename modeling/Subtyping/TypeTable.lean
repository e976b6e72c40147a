import Std.Data.HashMap
import Subtyping.Handle

/-!
# Type tables

A `TypeTable` gives every shape one handle, numbered in the order in which shapes are first met.
Nothing is ever removed or changed, so a handle keeps its shape for good.
-/

namespace Subtyping

/-- The shapes met so far, by number, and the number of each. -/
structure TypeTable where
  shapes : Array Shape := #[]
  index : Std.HashMap Shape Handle := ∅

namespace TypeTable

/-- The number of types. -/
def size (t : TypeTable) : Nat :=
  t.shapes.size

/-- The shape of a type. -/
def shape? (t : TypeTable) (ty : Handle) : Option Shape :=
  match ty.num with
  | 0 => none
  | n + 1 => t.shapes[n]?

/-- The handle of a shape: the one it has, or else the next number. -/
def intern (t : TypeTable) (shape : Shape) : Handle × TypeTable :=
  match t.index[shape]? with
  | some ty => (ty, t)
  | none =>
    let ty : Handle := ⟨t.shapes.size + 1⟩
    (ty, { shapes := t.shapes.push shape, index := t.index.insert shape ty })

/-- A type keeps its shape when further shapes are met. -/
theorem shape?_intern_of_eq_some {t : TypeTable} {ty : Handle} {s : Shape}
    (h : t.shape? ty = some s) (shape : Shape) : (t.intern shape).2.shape? ty = some s := by
  unfold intern
  split
  · exact h
  · unfold shape? at h ⊢
    split at h
    · simp at h
    · rename_i n _
      obtain ⟨hn, rfl⟩ := Array.getElem?_eq_some_iff.1 h
      simp [Array.getElem?_push, hn, Nat.ne_of_lt hn]

end TypeTable

end Subtyping
