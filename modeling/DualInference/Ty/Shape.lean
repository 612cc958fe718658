/-
Shapes: what the root of a type looks like. The views (`element?`, `pointee?`, `parts?`, `aggregate?`) take a type
apart when it has the shape they ask for; `Shape` names the tests themselves. All of them look at the root alone, so
a type is pruned before it is looked at.
-/
import DualInference.Ty.Store

namespace DualInference

namespace Ty

/-- the element type of an array of either sort -/
def element? : Ty → Option Ty
  | .array t => some t
  | .arrayValue t _ => some t
  | _ => none

/-- what a reference type points at -/
def pointee? : Ty → Option Ty
  | .ref t => some t
  | _ => none

/-- the element types of a tuple type -/
def parts? : Ty → Option (List Ty)
  | .tuple ts => some ts
  | _ => none

/-- the symbol and the parameters of an aggregate type -/
def aggregate? : Ty → Option (SymbolId × List Ty)
  | .aggregate _ e ts => some (e, ts)
  | _ => none

theorem element?_eq_some {t u : Ty} (h : t.element? = some u) : ∃ w, t = .wrap w u := by
  unfold element? at h
  split at h
  · cases h
    exact ⟨_, rfl⟩
  · cases h
    exact ⟨_, rfl⟩
  · cases h

theorem pointee?_eq_some {t u : Ty} (h : t.pointee? = some u) : t = .ref u := by
  unfold pointee? at h
  split at h
  · cases h
    rfl
  · cases h

theorem parts?_eq_some {t : Ty} {ts : List Ty} (h : t.parts? = some ts) : t = .tuple ts := by
  unfold parts? at h
  split at h
  · cases h
    rfl
  · cases h

theorem aggregate?_eq_some {t : Ty} {p : SymbolId × List Ty} (h : t.aggregate? = some p) :
    ∃ kind, t = .aggregate kind p.1 p.2 := by
  unfold aggregate? at h
  split at h
  · cases h
    exact ⟨_, rfl⟩
  · cases h

end Ty

/-- a test on the root of a type -/
inductive Shape where
  | bool
  | char
  | int
  | array
  | arrayValue
  /-- an array of either sort -/
  | indexable
  | ref
  | record
  | struct
  | tuple
  /-- a record or a struct -/
  | aggregate
  /-- a type whose values can be called: the aggregates -/
  | callable
deriving DecidableEq

namespace Shape

def all : List Shape :=
  [.bool, .char, .int, .array, .arrayValue, .indexable, .ref, .record, .struct, .tuple, .aggregate, .callable]

/-- does the root of the type pass the test -/
def fits : Shape → Ty → Bool
  | .bool, t => t = .bool
  | .char, t => t = .char
  | .int, t => t = .int
  | .array, .array _ => true
  | .arrayValue, .arrayValue _ _ => true
  | .indexable, t => t.element?.isSome
  | .ref, t => t.pointee?.isSome
  | .record, .aggregate .record _ _ => true
  | .struct, .aggregate .struct _ _ => true
  | .tuple, t => t.parts?.isSome
  | .aggregate, t => t.aggregate?.isSome
  | .callable, t => t.aggregate?.isSome
  | _, _ => false

end Shape

/-- does a type have the shape, bindings followed -/
def Store.hasShape (s : Store) (shape : Shape) (t : Ty) : Bool :=
  shape.fits (s.prune t)

end DualInference
