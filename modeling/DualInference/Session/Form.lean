/-
Types on their way in and out of a session.

A request writes a type with the names of aggregates and the labels of variables (`TypeForm`), which are read where
the request stands. An answer shows a type as it was built, bindings not followed but shown in place (`Snapshot`).
-/
import DualInference.Cache
import DualInference.Ty.Store

namespace DualInference

/-! ## Types in requests -/

/-- a type as a request writes it -/
inductive TypeForm where
  | scalar (s : Scalar)
  | wrap (w : Wrapper) (t : TypeForm)
  | aggregate (kind : AggregateKind) (name : String) (ts : List TypeForm)
  | tuple (ts : List TypeForm)
  | var (label : String)
deriving Inhabited

namespace TypeForm

mutual

/-- the type meant, given what names and labels stand for -/
def read (symbol : String → Option SymbolId) (var : String → Option VarId) : TypeForm → Option Ty
  | .scalar s => some (.scalar s)
  | .wrap w t => (read symbol var t).map (.wrap w)
  | .aggregate kind name ts => do
    let e ← symbol name
    return .aggregate kind e (← readList symbol var ts)
  | .tuple ts => (readList symbol var ts).map .tuple
  | .var label => (var label).map .var

def readList (symbol : String → Option SymbolId) (var : String → Option VarId) : List TypeForm → Option (List Ty)
  | [] => some []
  | t :: ts => do
    let u ← read symbol var t
    return u :: (← readList symbol var ts)

end

end TypeForm

/-- one component of a key as a request writes it -/
structure DenotationForm where
  isValue : Bool
  type : TypeForm

/-- the component meant -/
def DenotationForm.read (symbol : String → Option SymbolId) (var : String → Option VarId) (d : DenotationForm) :
    Option Denotation :=
  (d.type.read symbol var).map (if d.isValue then .value else .type)

/-! ## Types in answers -/

/-- a type as it was built, with what its variables are bound to -/
inductive Snapshot where
  | scalar (s : Scalar)
  | wrap (w : Wrapper) (t : Snapshot)
  | aggregate (kind : AggregateKind) (name : String) (ts : List Snapshot)
  | tuple (ts : List Snapshot)
  | unbound (v : VarId)
  | bound (v : VarId) (t : Snapshot)
deriving Inhabited

namespace Snapshot

mutual

/-- the snapshot of a type, given those of its variables -/
def ofTy (name : SymbolId → String) (f : VarId → Snapshot) : Ty → Snapshot
  | .scalar s => .scalar s
  | .wrap w t => .wrap w (ofTy name f t)
  | .compound (.aggregate kind e) ts => .aggregate kind (name e) (ofTyList name f ts)
  | .compound .tuple ts => .tuple (ofTyList name f ts)
  | .var v => f v

def ofTyList (name : SymbolId → String) (f : VarId → Snapshot) : List Ty → List Snapshot
  | [] => []
  | t :: ts => ofTy name f t :: ofTyList name f ts

end

/-- the snapshot of a variable, given that of its binding if it has one -/
def ofVar (v : VarId) : Option Snapshot → Snapshot
  | some t => .bound v t
  | none => .unbound v

end Snapshot

/-- the snapshot of a type, given the names of symbols -/
def Store.snapshot (s : Store) (name : SymbolId → String) (t : Ty) : Snapshot :=
  s.read (Snapshot.ofTy name) Snapshot.ofVar t

end DualInference
