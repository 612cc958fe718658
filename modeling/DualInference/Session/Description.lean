/-
Descriptions of symbols: name, kind, whether the home is alive, and details that depend on the kind. Scopes and
symbols also have a one-line text for debugging, in which names stand quoted.
-/
import DualInference.Inference.Basic
import DualInference.Session.Form

namespace DualInference

/-! ## Details -/

/-- a symbol with details of some sort -/
structure Card (Detail : Type) where
  name : String
  kind : String
  /-- is the home of the symbol alive -/
  alive : Bool
  detail : Detail

structure InstanceDetail where
  typeVars : List String
  /-- spans of the arguments, each with its name if it is a bare name -/
  args : List (Option String × Span)

inductive FormalDetail where
  | value (passing : Passing) (name : String)
  | type

structure OverloadDetail where
  typeVars : List String
  formals : List FormalDetail

inductive SymbolDetail where
  | predicate (typeVars : List String) (instances : List (Card InstanceDetail))
  | predicateInstance (d : InstanceDetail)
  | aggregate (kind : AggregateKind) (typeVars fields : List String)
  | procedure (typeVars : List String) (formals : List FormalDetail) (cached : Nat)
  | overloadable (name : String) (overloads : List (Card OverloadDetail))
  | overload (d : OverloadDetail)
  | global (position : Nat) (names : List String) (cached : Nat)
  | typeVar (type : Snapshot) (span : Span)
  | localVar (type : Snapshot)
  | builtin (name : String) (scalar : Option Snapshot) (paramCount : Nat)
  | primitive (name : String)

def PredicateInstance.detail (d : PredicateInstance) : InstanceDetail where
  typeVars := d.typeVars.map (·.name)
  args := d.typeArgs.map fun e => (e.bareName?.map (·.name), e.span)

def Formal.detail : Formal → FormalDetail
  | .value passing name _ => .value passing name.name
  | .type _ => .type

def Procedure.overloadDetail (d : Procedure) : OverloadDetail where
  typeVars := d.typeVars.map (·.name)
  formals := d.formals.map (·.detail)

/-- the details of a symbol whose home is alive or not -/
def SymbolKind.detail (tab : SymbolTable) (st : State) (id : SymbolId) (alive : Bool) : SymbolKind → SymbolDetail
  | .predicate d instances =>
    .predicate (d.typeVars.map (·.name))
      (instances.map fun i => ⟨i.name.name, (SymbolKind.predicateInstance i).name, alive, i.detail⟩)
  | .predicateInstance d => .predicateInstance d.detail
  | .aggregate kind d => .aggregate kind (d.typeVars.map (·.name)) (d.fields.map (·.name.name))
  | .procedure d => .procedure (d.typeVars.map (·.name)) (d.formals.map (·.detail)) (st.memo.cache id).size
  | .overloadable name overloads =>
    .overloadable name.name
      (overloads.map fun o => ⟨o.name.name, (SymbolKind.overload o).name, alive, o.overloadDetail⟩)
  | .overload d => .overload d.overloadDetail
  | .global d group position => .global position (d.names.map (·.name.name)) (st.memo.cache group).size
  | .typeVar span t => .typeVar (st.store.snapshot tab.nameOf t) span
  | .localVar t => .localVar (st.store.snapshot tab.nameOf t)
  | .builtin b => .builtin b.name (b.scalar?.map (st.store.snapshot tab.nameOf)) b.paramCount
  | .primitive op => .primitive op.name

/-- the description of a symbol -/
def Symbol.describe (tab : SymbolTable) (st : State) (id : SymbolId) (symbol : Symbol) : Card SymbolDetail :=
  let alive := tab.alive symbol.home
  ⟨symbol.name, symbol.kind.name, alive, symbol.kind.detail tab st id alive⟩

/-! ## Texts -/

/-- a character inside quotes. The names quoted here are ASCII; a control character without a short form is written
with its code in hexadecimal. -/
def quotedChar (c : Char) : String :=
  match c with
  | '"' => "\\\""
  | '\\' => "\\\\"
  | '\n' => "\\n"
  | '\r' => "\\r"
  | '\t' => "\\t"
  | '\x00' => "\\0"
  | c =>
    if c.toNat < 0x20 || c.toNat = 0x7f then "\\u\x7b" ++ String.ofList (Nat.toDigits 16 c.toNat) ++ "\x7d"
    else String.singleton c

/-- a text in double quotes -/
def quotedText (text : String) : String :=
  "\"" ++ String.join (text.toList.map quotedChar) ++ "\""

/-- a line that names the type of a thing and its fields -/
def debugLine (type : String) (fields : List (String × String)) : String :=
  type ++ " \x7b " ++ ", ".intercalate (fields.map fun (name, text) => name ++ ": " ++ text) ++ " \x7d"

/-- the debug text of a scope: the names it binds itself, in order, and whether it lies inside another -/
def SymbolTable.debugScope (tab : SymbolTable) (s : ScopeId) : String :=
  let names := ((tab.names s).map (·.1)).mergeSort
  debugLine "Env" [
    ("names", "[" ++ ", ".intercalate (names.map quotedText) ++ "]"),
    ("has_parent", if (tab.ancestors s).isEmpty then "false" else "true")]

/-- the debug text of a symbol -/
def Symbol.debugText (symbol : Symbol) : String :=
  debugLine "Entity" [("name", quotedText symbol.name), ("kind", quotedText symbol.kind.name)]

end DualInference
