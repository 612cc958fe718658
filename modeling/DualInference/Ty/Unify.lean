/-
Two types side by side in a store: equality up to bindings, and unification.

Both go through the two types together, from left to right, as far as their heads are equal (`alongside`). Where a
variable stands on either side both sides are pruned (`reconcileWithin`). Two equal variables agree; what happens
where an unbound variable meets anything else is the only difference:
- `equal` says no, so it binds nothing;
- `unify` binds the variable to the other side unless it occurs there, the left side being looked at first, and goes
  on in the extended store.
Lists of different lengths never agree.

Comparison that fails gives no store, so the caller goes on with the one it has: failure leaves no binding behind.

Each pruning enters a binding on at least one of the two sides. The bindings entered on one side, one inside the
other, are of different variables, also while new bindings are being made; so twice the number of variables is deep
enough.
-/
import DualInference.Ty.Store

namespace DualInference

namespace Store

/-! ## Side by side -/

mutual

/-- compare two types down to the places where a variable stands on either side, and there go on with `meet`; each
comparison is made in the store that those before it leave behind -/
def alongside (meet : Store → Ty → Ty → Option Store) : Store → Ty → Ty → Option Store
  | s, .var v, b => meet s (.var v) b
  | s, a, .var w => meet s a (.var w)
  | s, .scalar p, .scalar q => if p = q then some s else none
  | s, .wrap p t, .wrap q u => if p = q then alongside meet s t u else none
  | s, .compound p ts, .compound q us =>
    if p = q ∧ ts.length = us.length then alongsideList meet s ts us else none
  | _, _, _ => none

def alongsideList (meet : Store → Ty → Ty → Option Store) : Store → List Ty → List Ty → Option Store
  | s, t :: ts, u :: us =>
    match alongside meet s t u with
    | some s' => alongsideList meet s' ts us
    | none => none
  | s, _, _ => some s

end

/-- compare two types, pruning at most `n` times on the way down to any place; `settle` decides what becomes of the
store where an unbound variable meets another type -/
def reconcileWithin (settle : Store → VarId → Ty → Option Store) : (n : Nat) → Store → Ty → Ty → Option Store
  | 0 => alongside fun _ _ _ => none
  | n + 1 => alongside fun s a b =>
    match s.prune a, s.prune b with
    | .var v, .var w => if v = w then some s else settle s v (.var w)
    | .var v, t => settle s v t
    | t, .var w => settle s w t
    | t, u => reconcileWithin settle n s t u

/-- compare two types, following all bindings below them -/
def reconcile (settle : Store → VarId → Ty → Option Store) (s : Store) (a b : Ty) : Option Store :=
  reconcileWithin settle (2 * s.size) s a b

/-! ## Equality and unification -/

/-- equality up to bindings; binds nothing -/
def equal (s : Store) (a b : Ty) : Bool :=
  (s.reconcile (fun _ _ _ => none) a b).isSome

/-- bind `v` to `t`, unless `v` is reachable from `t` -/
def assign (s : Store) (v : VarId) (t : Ty) : Option Store :=
  if s.occurs v t then none else some (s.bind v t)

/-- the least extension of the store in which the two types are equal, if there is one -/
def unify (s : Store) (a b : Ty) : Option Store :=
  s.reconcile assign a b

end Store

end DualInference
