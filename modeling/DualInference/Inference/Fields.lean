/-
Records and structs: instantiation, fields, construction.

What is written in a declaration is read in its home, behind a frame that gives the declared type variables their
types. There are two ways to fill the fields of an aggregate:
- a call on its name finds the parameters: they start as fresh variables, each field type is unified with its
  argument, and in the end nothing may be left open;
- a call on a type or value whose parameters are known compares each argument with its field type exactly.
-/
import DualInference.Inference.Basic

namespace DualInference

/-- the aggregate type applied to as many parameters as it declares -/
def instantiate (origin : Origin) (kind : AggregateKind) (d : Aggregate) (params : List Ty) (span : Span) :
    Infer Ty := do
  arity "type parameter(s)" d.typeVars.length params.length span
  return .aggregate kind origin.id params

/-- a symbol of the given name applied to type parameters, which has to be an aggregate -/
def Meaning.instantiate (m : Meaning) (name : String) (params : List Ty) (span : Span) : Infer Ty :=
  match m with
  | .aggregate origin kind d => DualInference.instantiate origin kind d params span
  | _ => Infer.fail (.kindMismatch name "a record or struct") span

namespace Context

variable (cx : Context)

/-- fields with their types, from left to right -/
def fieldsIn (env : Env) : List Field → Infer (List (String × Ty))
  | [] => return []
  | f :: fs => do
    let t ← cx.type env f.type
    return (f.name.name, t) :: (← fieldsIn env fs)

/-- the fields of an aggregate type, with the types they have at its parameters -/
def fieldTypes (t : Ty) (span : Span) : Infer (List (String × Ty)) := do
  let (id, params) ← cx.view Ty.aggregate? t span
  match (cx.table.symbol? id).map (Symbol.meaning id) with
  | some (.aggregate origin _ d) =>
    let home ← cx.home origin span
    let locals ← Infer.lift (Frame.ofTypeVars d.typeVars params)
    cx.fieldsIn { home with locals } d.fields
  | _ => cx.invalidType t span

/-- `base.name` -/
def field (env : Env) (base : Expr) (name : Ident) : Infer Denotation := do
  let t ← cx.value env base
  match (← cx.fieldTypes t base.span).lookup name.name with
  | some u => return .value u
  | none => Infer.fail (.undefinedName name.name) name.span

/-- unify each field type, read in `fieldEnv`, with the argument at its position, read in `env` -/
def unifyFields (fieldEnv env : Env) : List Field → List Expr → Infer Unit
  | f :: fs, arg :: args => do
    let formal ← cx.type fieldEnv f.type
    let actual ← cx.value env arg
    cx.unified formal actual arg.span
    unifyFields fieldEnv env fs args
  | _, _ => return ()

/-- a call on the name of an aggregate -/
def construct (origin : Origin) (kind : AggregateKind) (d : Aggregate) (span : Span) (env : Env)
    (args : List Expr) : Infer Denotation := do
  arity "argument(s)" d.fields.length args.length span
  let home ← cx.home origin span
  let vars ← Infer.freshVars d.typeVars
  let locals ← Infer.lift (Frame.ofTypeVars d.typeVars vars)
  cx.unifyFields { home with locals } env d.fields args
  let params ← Infer.solution span d.typeVars vars
  return .value (.aggregate kind origin.id params)

/-- compare each field type with the argument at its position -/
def compareFields (env : Env) : List (String × Ty) → List Expr → Infer Unit
  | (_, t) :: fields, arg :: args => do
    let actual ← cx.value env arg
    cx.same t actual arg.span
    compareFields env fields args
  | _, _ => return ()

/-- a call on anything else: the callee has to be, or to denote, an aggregate type -/
def callType (span : Span) (env : Env) (callee : Expr) (args : List Expr) : Infer Denotation := do
  let d ← cx.infer env callee
  let t := (← Infer.store).prune d.ty
  let fields ← cx.fieldTypes t callee.span
  arity "argument(s)" fields.length args.length span
  cx.compareFields env fields args
  return .value t

end Context

end DualInference
