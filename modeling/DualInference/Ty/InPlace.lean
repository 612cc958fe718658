/-
Unification in place, the way a session does it: the two types are gone through as in `Store.unify`, but each binding is
made in the one store there is, and the variable is noted on a trail. If the types turn out not to unify, the variables
on the trail are unbound again, the latest first.
-/
import DualInference.Ty.Unify

namespace DualInference

namespace Store

/-- take the binding of a variable away -/
def unbind (s : Store) (v : VarId) : Store :=
  { s with cells := s.cells.setIfInBounds v none }

/-- a unification on its way -/
structure Attempt where
  store : Store
  /-- the variables bound on the way, the latest first -/
  trail : List VarId := []

namespace Attempt

/-- bind `v` to `t`, unless `v` is reachable from `t` -/
def assign (x : Attempt) (v : VarId) (t : Ty) : Bool × Attempt :=
  if x.store.occurs v t then (false, x) else (true, ⟨x.store.bind v t, v :: x.trail⟩)

/-- the store with the bindings made on the way taken away -/
def undo (x : Attempt) : Store :=
  x.trail.foldl unbind x.store

mutual

/-- go through two types down to the places where a variable stands on either side, and there go on with `meet`; what
was bound before things fail stays bound -/
def alongside (meet : Ty → Ty → Attempt → Bool × Attempt) : Ty → Ty → Attempt → Bool × Attempt
  | .var v, b, x => meet (.var v) b x
  | a, .var w, x => meet a (.var w) x
  | .scalar p, .scalar q, x => (p = q, x)
  | .wrap p t, .wrap q u, x => if p = q then alongside meet t u x else (false, x)
  | .compound p ts, .compound q us, x =>
    if p = q ∧ ts.length = us.length then alongsideList meet ts us x else (false, x)
  | _, _, x => (false, x)

def alongsideList (meet : Ty → Ty → Attempt → Bool × Attempt) : List Ty → List Ty → Attempt → Bool × Attempt
  | t :: ts, u :: us, x =>
    match alongside meet t u x with
    | (true, x') => alongsideList meet ts us x'
    | (false, x') => (false, x')
  | _, _, x => (true, x)

end

/-- go through two types, pruning at most `n` times on the way down to any place -/
def within : (n : Nat) → Ty → Ty → Attempt → Bool × Attempt
  | 0 => alongside fun _ _ x => (false, x)
  | n + 1 => alongside fun a b x =>
    match x.store.prune a, x.store.prune b with
    | .var v, .var w => if v = w then (true, x) else x.assign v (.var w)
    | .var v, t => x.assign v t
    | t, .var w => x.assign w t
    | t, u => within n t u x

end Attempt

/-- make two types equal, and say whether that can be done; if not, no binding is left behind -/
def unifyInPlace (s : Store) (a b : Ty) : Bool × Store :=
  match Attempt.within (2 * s.size) a b { store := s } with
  | (true, x) => (true, x.store)
  | (false, x) => (false, x.undo)

end Store

end DualInference
