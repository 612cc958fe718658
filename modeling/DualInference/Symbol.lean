/-
Symbols: everything a name can stand for. A symbol knows the scope it was declared in, its home, because what is
written inside a declaration is read there and not where the name is used.
-/
import DualInference.Builtin

namespace DualInference

/-- number of a scope -/
abbrev ScopeId := Nat

inductive SymbolKind where
  /-- a predicate, with the instances attached to it in order -/
  | predicate (d : Predicate) (instances : List PredicateInstance)
  | predicateInstance (d : PredicateInstance)
  | aggregate (kind : AggregateKind) (d : Aggregate)
  | procedure (d : Procedure)
  /-- an overloadable, with the overloads attached to it in order -/
  | overloadable (name : Ident) (overloads : List Procedure)
  | overload (d : Procedure)
  /-- one name of a variable definition; the names of one definition agree on `group`, the symbol of the first -/
  | global (d : Variables) (group : SymbolId) (position : Nat)
  | typeVar (span : Span) (type : Ty)
  | localVar (type : Ty)
  | builtin (b : Builtin)
  | primitive (op : Operation)

/-- what a kind of symbol is called -/
def SymbolKind.name : SymbolKind → String
  | .predicate _ _ => "predicate"
  | .predicateInstance _ => "instance"
  | .aggregate .record _ => "record"
  | .aggregate .struct _ => "struct"
  | .procedure _ => "procedure"
  | .overloadable _ _ => "overloadable"
  | .overload _ => "overload"
  | .global _ _ _ => "variable"
  | .typeVar _ _ => "type variable"
  | .localVar _ => "local variable"
  | .builtin _ => "built-in type"
  | .primitive _ => "primitive operation"

structure Symbol where
  /-- the declared name; a scope may know the symbol under another one -/
  name : String
  home : ScopeId
  kind : SymbolKind

/-- the symbol that an item other than a variable definition declares -/
def Symbol.ofItem? (home : ScopeId) : Item → Option Symbol
  | .predicate d => some ⟨d.name.name, home, .predicate d []⟩
  | .predicateInstance d => some ⟨d.name.name, home, .predicateInstance d⟩
  | .aggregate kind d => some ⟨d.name.name, home, .aggregate kind d⟩
  | .vars _ => none
  | .procedure d => some ⟨d.name.name, home, .procedure d⟩
  | .overloadable name => some ⟨name.name, home, .overloadable name []⟩
  | .overload d => some ⟨d.name.name, home, .overload d⟩

end DualInference
