/-
The store of type variables: which variables have been made, and what those bound so far are bound to. Variables are
numbered in the order in which they are made. A binding that outlasts the operation that made it is never changed or
removed; it may mention variables made or bound before or after its own.

All readings of a type are walks that go on into the binding of each bound variable they meet (`follow`). When no
variable is reachable from its own binding, the variables entered one inside the other are all different, so no walk
enters more bindings than there are variables; `read` takes that bound. The readings differ in the walk and in what
they make of an unbound variable:
- `prune` follows bindings at the root of a type only, and stops at an unbound variable or another type;
- `resolve` replaces every bound variable, wherever it stands;
- `deref?` does the same, and gives up at the first unbound variable;
- `occurs` looks for an unbound variable, and stops where it finds it.
-/
import DualInference.Ty.Basic

namespace DualInference

/-- the type variables made so far, by number, each with its binding if it has one -/
structure Store where
  cells : Array (Option Ty) := #[]
deriving DecidableEq

namespace Store

/-! ## Making and binding variables -/

/-- how many variables there are; also the number of the next one -/
def size (s : Store) : Nat :=
  s.cells.size

/-- what a variable is bound to -/
def binding? (s : Store) (v : VarId) : Option Ty :=
  s.cells[v]?.join

/-- a new variable, unbound -/
def fresh (s : Store) : VarId × Store :=
  (s.size, { s with cells := s.cells.push none })

/-- bind a variable; the caller sees to it that it is unbound and not reachable from `t` -/
def bind (s : Store) (v : VarId) (t : Ty) : Store :=
  { s with cells := s.cells.setIfInBounds v (some t) }

@[simp] theorem size_fresh (s : Store) : s.fresh.2.size = s.size + 1 := by
  simp [fresh, size]

@[simp] theorem size_bind (s : Store) (v : VarId) (t : Ty) : (s.bind v t).size = s.size := by
  simp [bind, size]

/-- A new variable has no binding, and the others keep theirs. -/
@[simp] theorem binding?_fresh (s : Store) (v : VarId) : s.fresh.2.binding? v = s.binding? v := by
  by_cases h : v = s.cells.size
  · simp [fresh, binding?, h]
  · simp [fresh, binding?, Array.getElem?_push, h]

theorem binding?_bind (s : Store) {v : VarId} (h : v < s.size) (w : VarId) (t : Ty) :
    (s.bind v t).binding? w = if w = v then some t else s.binding? w := by
  by_cases hw : w = v
  · subst hw
    simp [bind, binding?, Array.getElem?_setIfInBounds_self_of_lt h]
  · simp [bind, binding?, Array.getElem?_setIfInBounds_ne (Ne.symm hw), hw]

/-- Only variables of the store can be bound. -/
theorem bind_of_size_le {s : Store} {v : VarId} (h : s.size ≤ v) (t : Ty) : s.bind v t = s := by
  rw [bind, Array.setIfInBounds_eq_of_size_le h]

/-- Only the variables of the store can have a binding. -/
theorem lt_size_of_binding? {s : Store} {v : VarId} {t : Ty} (h : s.binding? v = some t) : v < s.size := by
  by_cases hv : v < s.cells.size
  · exact hv
  · simp [binding?, Array.getElem?_eq_none (Nat.le_of_not_lt hv)] at h

theorem binding?_of_size_le {s : Store} {v : VarId} (h : s.size ≤ v) : s.binding? v = none := by
  cases hv : s.binding? v with
  | none => rfl
  | some t => exact absurd (lt_size_of_binding? hv) (Nat.not_lt.2 h)

/-! ## Reading types -/

/-- walk through a type, entering at most `n` bindings one inside the other. A variable `v` reads as
`leaf v (some a)` if it is bound and its binding reads as `a`, and as `leaf v none` otherwise. -/
def follow {α : Type} (s : Store) (walk : (VarId → α) → Ty → α) (leaf : VarId → Option α → α) : Nat → Ty → α
  | 0 => walk fun v => leaf v none
  | n + 1 => walk fun v => leaf v ((s.binding? v).map (s.follow walk leaf n))

/-- walk through a type and all bindings below it -/
def read {α : Type} (s : Store) (walk : (VarId → α) → Ty → α) (leaf : VarId → Option α → α) (t : Ty) : α :=
  s.follow walk leaf s.size t

/-- the type with bindings followed at its root -/
def prune (s : Store) (t : Ty) : Ty :=
  s.read Ty.atRoot (fun v u? => u?.getD (.var v)) t

/-- the type with bindings followed everywhere -/
def resolve (s : Store) (t : Ty) : Ty :=
  s.read Ty.subst (fun v u? => u?.getD (.var v)) t

/-- the resolved form, provided no unbound variable is left in it -/
def deref? (s : Store) (t : Ty) : Option Ty :=
  s.read Ty.subst? (fun _ u? => u?.join) t

/-- is the unbound variable `v` reachable from `t` -/
def occurs (s : Store) (v : VarId) (t : Ty) : Bool :=
  s.read Ty.anyVar (fun w found => found.getD (w == v)) t

/-- the text of a type, bindings followed -/
def display (s : Store) (name : SymbolId → String) (t : Ty) : String :=
  (s.resolve t).render name

end Store

end DualInference
