/-
The algorithms on types as they call themselves.

A variable that is bound is followed by a call on its binding, so nothing in the types says how often an algorithm calls
itself; in a store with a cycle it never comes to an end. Here the calls may be nested `n` deep at most, and there is no
result if that is not deep enough. A call makes one call at most for each part of a type, so where there is a result it
was reached after finitely many calls.

Otherwise each algorithm is the one of `Ty.Store`, `Ty.Text`, `Ty.Unify` and `Ty.InPlace`, where bindings are counted
instead of calls.
-/
import DualInference.Ty.InPlace

namespace DualInference

namespace Store

/-- follow bindings at the root -/
def prunedWithin (s : Store) : (n : Nat) → Ty → Option Ty
  | 0, _ => none
  | n + 1, .var v =>
    match s.binding? v with
    | some u => s.prunedWithin n u
    | none => some (.var v)
  | _ + 1, t => some t

/-- is the unbound variable `v` reachable from the type -/
def occursWithin (s : Store) (v : VarId) : (n : Nat) → Ty → Option Bool
  | 0, _ => none
  | n + 1, t => do
    match ← s.prunedWithin n t with
    | .scalar _ => return false
    | .wrap _ t => s.occursWithin v n t
    | .compound _ ts => ts.anyM (s.occursWithin v n)
    | .var w => return w == v

/-- what some calls come to, one after another up to the first that comes to nothing -/
def collect {α β : Type} (call : α → Option (Option β)) : List α → Option (Option (List β))
  | [] => some (some [])
  | a :: as => do
    match ← call a with
    | none => return none
    | some b => return (← collect call as).map (b :: ·)

/-- the type with bindings followed everywhere, provided no unbound variable is met -/
def derefWithin (s : Store) : (n : Nat) → Ty → Option (Option Ty)
  | 0, _ => none
  | _ + 1, .scalar c => some (some (.scalar c))
  | n + 1, .wrap w t => (s.derefWithin n t).map (·.map (.wrap w))
  | n + 1, .compound f ts => (collect (s.derefWithin n) ts).map (·.map (.compound f))
  | n + 1, .var v =>
    match s.binding? v with
    | some u => s.derefWithin n u
    | none => some none

/-- equality up to bindings -/
def equalWithin (s : Store) : (n : Nat) → Ty → Ty → Option Bool
  | 0, _, _ => none
  | n + 1, a, b => do
    match ← s.prunedWithin n a, ← s.prunedWithin n b with
    | .var v, .var w => return v = w
    | .scalar p, .scalar q => return p = q
    | .wrap p t, .wrap q u => if p = q then s.equalWithin n t u else return false
    | .compound p ts, .compound q us =>
      if p = q ∧ ts.length = us.length then (ts.zip us).allM fun (t, u) => s.equalWithin n t u else return false
    | _, _ => return false

/-- the text of a type, bindings followed as it is written -/
def displayWithin (s : Store) (name : SymbolId → String) : (n : Nat) → Ty → Option String
  | 0, _ => none
  | _ + 1, .scalar c => some c.render
  | n + 1, .wrap w t => (s.displayWithin name n t).map w.render
  | n + 1, .compound f ts => (ts.mapM (s.displayWithin name n)).map (f.render name)
  | n + 1, .var v =>
    match s.binding? v with
    | some u => s.displayWithin name n u
    | none => some ("?" ++ toString v)

namespace Attempt

/-- bind `v` to `t`, unless `v` is reachable from `t` -/
def assignWithin (n : Nat) (x : Attempt) (v : VarId) (t : Ty) : Option (Bool × Attempt) := do
  if ← x.store.occursWithin v n t then return (false, x)
  return (true, ⟨x.store.bind v t, v :: x.trail⟩)

/-- go through two lists pair by pair, up to the first pair that fails -/
def inTurn (call : Ty → Ty → Attempt → Option (Bool × Attempt)) : List Ty → List Ty → Attempt → Option (Bool × Attempt)
  | t :: ts, u :: us, x => do
    match ← call t u x with
    | (true, x') => inTurn call ts us x'
    | (false, x') => return (false, x')
  | _, _, x => some (true, x)

/-- make two types equal, keeping a trail of what is bound -/
def unifyWithin : (n : Nat) → Ty → Ty → Attempt → Option (Bool × Attempt)
  | 0, _, _, _ => none
  | n + 1, a, b, x => do
    match ← x.store.prunedWithin n a, ← x.store.prunedWithin n b with
    | .var v, .var w => if v = w then return (true, x) else x.assignWithin n v (.var w)
    | .var v, t => x.assignWithin n v t
    | t, .var w => x.assignWithin n w t
    | .scalar p, .scalar q => return (p = q, x)
    | .wrap p t, .wrap q u => if p = q then unifyWithin n t u x else return (false, x)
    | .compound p ts, .compound q us =>
      if p = q ∧ ts.length = us.length then inTurn (unifyWithin n) ts us x else return (false, x)
    | _, _ => return (false, x)

end Attempt

/-- make two types equal, and say whether that can be done; if not, what was bound is unbound again -/
def unifyInPlaceWithin (s : Store) (n : Nat) (a b : Ty) : Option (Bool × Store) := do
  match ← Attempt.unifyWithin n a b { store := s } with
  | (true, x) => return (true, x.store)
  | (false, x) => return (false, x.undo)

end Store

end DualInference
