/-
Procedure calls. The arguments are inferred first, in the caller's environment, and what they denote is the key of
the call. The return type is found once per key and remembered; to need it while it is being found is an error.

To find it, the type variables of the procedure start fresh, each formal type is unified with the argument at its
position, and nothing may be left open. Then the declared return type is read, or else the body is inferred, with
the parameters in front of the type variables; a procedure with neither returns nothing.
-/
import DualInference.Inference.Basic

namespace DualInference

/-- the type expression of a formal -/
def Formal.typeExpr : Formal → Expr
  | .value _ _ t => t
  | .type t => t

/-- the argument has to be a value where the formal is one, and a type where it is one -/
def Formal.accept (formal : Formal) (actual : Denotation) (span : Span) : Infer Unit :=
  match formal, actual with
  | .value _ _ _, .type _ => Infer.fail .valueExpected span
  | .type _, .value _ => Infer.fail .typeExpected span
  | .value _ _ _, .value _ => return ()
  | .type _, .type _ => return ()

/-- the type of a parameter inside the body -/
def Passing.paramType (t : Ty) : Passing → Ty
  | .byValue => t
  | .byRef => .ref t

namespace Context

variable (cx : Context)

/-- unify each formal type with the argument at its position -/
def unifyFormals (env : Env) : List Formal → Key → List Expr → Infer Unit
  | formal :: formals, actual :: actuals, arg :: args => do
    formal.accept actual arg.span
    let t ← cx.type env formal.typeExpr
    cx.unified t actual.ty arg.span
    unifyFormals env formals actuals args
  | _, _, _ => return ()

/-- add the value parameters to a frame, with the types of their arguments -/
def addParams (frame : Frame) : List Formal → Key → Infer Frame
  | .value passing name _ :: formals, actual :: actuals => do
    let t ← Infer.closed actual.ty (cx.display actual.ty) name.span
    let frame' ← Infer.lift (frame.add name (.param (passing.paramType t)))
    addParams frame' formals actuals
  | .type _ :: formals, _ :: actuals => addParams frame formals actuals
  | _, _ => return frame

/-- type conditions are not checked, so a procedure that has any cannot be called -/
def unconditional : List Expr → Infer Unit
  | [] => return ()
  | condition :: _ => Infer.fail (.unsupported "type conditions") condition.span

/-- what the body or the declared return type says, read in `env` -/
def result (env : Env) (d : Procedure) : Infer Ty :=
  match d.returnType, d.body with
  | some declared, _ => cx.type env declared
  | none, some body => cx.value env body
  | none, none => return .void

/-- the return type of a procedure for a key, `args` being the expressions it came from -/
def returnType (origin : Origin) (d : Procedure) (key : Key) (args : List Expr) (span : Span) : Infer Ty := do
  arity "argument(s)" d.formals.length key.length span
  let home ← cx.home origin span
  let vars ← Infer.freshVars d.typeVars
  let locals ← Infer.lift (Frame.ofTypeVars d.typeVars vars)
  cx.unifyFormals { home with locals } d.formals key args
  unconditional d.conditions
  let types ← Infer.solution span d.typeVars vars
  let solved ← Infer.lift (Frame.ofTypeVars d.typeVars types)
  let params ← cx.addParams [] d.formals key
  let t ← cx.result { home with locals := params ++ solved } d
  Infer.closed t (cx.display t) d.span

/-- a call on the name of a procedure -/
def callProcedure (origin : Origin) (d : Procedure) (span : Span) (env : Env) (args : List Expr) :
    Infer Denotation := do
  let key ← cx.denotations env args
  return .value (← cx.remember origin.id key span (cx.returnType origin d key args span))

end Context

end DualInference
