/-
Inference. Every expression denotes a value of some type or a type; inference finds which, and the type.

`Context.rule` has one case for each form of expression. A call or an index on a bare name goes by what the name
means; names without a rule of their own, and all other callees and bases, fall to the structural rule: a call on an
aggregate type, an element of an array.

`inferWithin` ties the knot: an expression is inferred by its rule, with one level less for everything the rule
leads to. `projectWithin` is for those who need one side of the duality: a value, or a type.
-/
import DualInference.Inference.Fields
import DualInference.Inference.Global
import DualInference.Inference.Primitive
import DualInference.Inference.ReturnType

namespace DualInference

namespace Context

variable (cx : Context)

/-! ## Names -/

/-- what an identifier means, which has to be something -/
def meaning (env : Env) (name : Ident) : Infer Meaning :=
  match env.meaning? cx.table name.name with
  | some m => return m
  | none => Infer.fail (.undefinedName name.name) name.span

/-- a bare name -/
def name (env : Env) (name : Ident) : Infer Denotation := do
  match ← cx.meaning env name with
  | .typeVar t => return .type (((← Infer.store).deref? t).getD t)
  | .localVar t => return .value t
  | .builtin b =>
    match b.scalar? with
    | some t => return .type t
    | none => Infer.fail (.arity "type parameter(s)" b.paramCount 0) name.span
  | .aggregate origin kind d =>
    return .type (← (Meaning.aggregate origin kind d).instantiate origin.name [] name.span)
  | .global origin d group position => return .value (← cx.globalType origin d group position name.span)
  | .primitive _ => Infer.fail (.kindMismatch name.name "a value or a type") name.span
  | .procedure _ _ => Infer.fail (.kindMismatch name.name "a value or a type") name.span
  | .overloadable => Infer.fail (.kindMismatch name.name "a value or a type") name.span
  | .unusable => Infer.fail (.kindMismatch name.name "a value or a type") name.span

/-! ## Index expressions -/

/-- an element of an array -/
def arrayElement (span : Span) (env : Env) (base : Expr) (indexes : List Expr) : Infer Denotation := do
  let t ← cx.value env base
  let element ← cx.view Ty.element? t base.span
  match indexes with
  | [index] =>
    let i ← cx.value env index
    cx.shaped .int i index.span
    return .value element
  | _ => Infer.fail (.arity "index(es)" 1 indexes.length) span

/-- the one parameter of a generic type -/
def typeParam (span : Span) (env : Env) : List Expr → Infer Ty
  | [t] => cx.type env t
  | params => Infer.fail (.arity "type parameter(s)" 1 params.length) span

/-- an array type with a literal size -/
def arrayValueType (span : Span) (env : Env) : List Expr → Infer Ty
  | [element, size] => do
    let t ← cx.type env element
    return .arrayValue t (← natLiteral size)
  | params => Infer.fail (.arity "type parameter(s)" 2 params.length) span

/-- `base[index, …]` -/
def index (span : Span) (env : Env) (base : Expr) (indexes : List Expr) : Infer Denotation :=
  match base.bareName? with
  | none => cx.arrayElement span env base indexes
  | some name => do
    match ← cx.meaning env name with
    | .builtin .array => return .type (.array (← cx.typeParam span env indexes))
    | .builtin .arrayValue => return .type (← cx.arrayValueType span env indexes)
    | .builtin .ref => return .type (.ref (← cx.typeParam span env indexes))
    | .aggregate origin kind d =>
      let params ← cx.types env indexes
      return .type (← (Meaning.aggregate origin kind d).instantiate origin.name params span)
    | _ => cx.arrayElement span env base indexes

/-! ## Calls -/

/-- `callee(arg, …)` -/
def call (span : Span) (env : Env) (callee : Expr) (args : List Expr) : Infer Denotation :=
  match callee.bareName? with
  | none => cx.callType span env callee args
  | some name => do
    match ← cx.meaning env name with
    | .primitive op => return .value (← cx.callPrimitive op span env args)
    | .aggregate origin kind d => cx.construct origin kind d span env args
    | .procedure origin d => cx.callProcedure origin d span env args
    | .overloadable => Infer.fail (.unsupported "calls to overloadable procedures") span
    | _ => cx.callType span env callee args

/-! ## Literals -/

/-- elements that have to be of the given type -/
def sameElements (env : Env) (t : Ty) : List Expr → Infer Unit
  | [] => return ()
  | e :: es => do
    let u ← cx.value env e
    cx.same t u e.span
    sameElements env t es

/-- an array literal has the type of its first element, and its length is part of the type -/
def arrayLiteral (span : Span) (env : Env) : List Expr → Infer Ty
  | [] => Infer.fail .emptyArrayLiteral span
  | e :: es => do
    let t ← cx.value env e
    cx.sameElements env t es
    return .arrayValue t (es.length + 1)

/-! ## All expressions -/

/-- the rule for an expression -/
def rule (env : Env) : Expr → Infer Denotation
  | .addressOf _ operand => return .value (.ref (← cx.value env operand))
  | .index span base indexes => cx.index span env base indexes
  | .call span callee args => cx.call span env callee args
  | .field _ base name => cx.field env base name
  | .element span base position => do
    let t ← cx.value env base
    let parts ← cx.view Ty.parts? t base.span
    return .value (← part parts position span)
  | .pointee _ base => do
    let t ← cx.value env base
    return .value (← cx.view Ty.pointee? t base.span)
  | .array span elements => return .value (← cx.arrayLiteral span env elements)
  | .tuple _ elements => return .value (.tuple (← cx.values env elements))
  | .name _ ident => cx.name env ident
  | .bool _ _ => return .value .bool
  | .int _ _ => return .value .int
  | .char _ _ => return .value .char

end Context

/-- what an expression denotes, going at most `depth` levels deep -/
def inferWithin : (depth : Nat) → SymbolTable → Env → Expr → Infer Denotation
  | 0, _, _, _ => Infer.tooDeep
  | depth + 1, table, env, e => Context.rule { table, infer := inferWithin depth table } env e

/-! ## One side of the duality -/

inductive Side where
  | value
  | type
deriving DecidableEq

/-- the type on the side where an expression has to stand, of the given shape if one is given -/
def Context.project (cx : Context) (side : Side) (env : Env) (e : Expr) (shape : Option Shape) : Infer Ty := do
  let t ← match side with
    | .value => cx.value env e
    | .type => cx.type env e
  match shape with
  | some shape => cx.shaped shape t e.span
  | none => pure ()
  return t

/-- the type of a value or a denoted type, going at most `depth` levels deep -/
def projectWithin (depth : Nat) (table : SymbolTable) (side : Side) (env : Env) (e : Expr) (shape : Option Shape) :
    Infer Ty :=
  Context.project { table, infer := inferWithin depth table } side env e shape

end DualInference
