/-
Modules. A program is bound in one pass over its items, in order, in a top-level scope inside a scope of primitives.
Every declaration is bound under its own name; the names of one variable definition share that definition. Instances
and overloads are not bound: they are attached, in order, to the predicate or overloadable of their name, which has
to come before them. The first item that cannot be bound or attached is the error.

Binding infers nothing.
-/
import DualInference.SymbolTable

namespace DualInference

namespace SymbolTable

def attachInstance (d : PredicateInstance) : SymbolKind → SymbolKind
  | .predicate p instances => .predicate p (instances ++ [d])
  | kind => kind

def attachOverload (d : Procedure) : SymbolKind → SymbolKind
  | .overloadable name overloads => .overloadable name (overloads ++ [d])
  | kind => kind

/-- bind the remaining names of a variable definition, the first of them at the given position -/
def declareNames (s : ScopeId) (d : Variables) (group : SymbolId) :
    SymbolTable → (position : Nat) → List Variable → Except Error SymbolTable
  | tab, _, [] => .ok tab
  | tab, position, v :: vs =>
    match tab.declare s v.name ⟨v.name.name, s, .global d group position⟩ with
    | .ok tab' => declareNames s d group tab' (position + 1) vs
    | .error e => .error e

/-- bind or attach one item in a scope -/
def declareItem (s : ScopeId) (tab : SymbolTable) : Item → Except Error SymbolTable
  | .predicate d => tab.declare s d.name ⟨d.name.name, s, .predicate d []⟩
  | .predicateInstance d => do
    let id ← tab.lookupOwner s .predicate d.name
    return tab.modifyKind id (attachInstance d)
  | .aggregate kind d => tab.declare s d.name ⟨d.name.name, s, .aggregate kind d⟩
  | .vars d => declareNames s d tab.symbols.size tab 0 d.names
  | .procedure d => tab.declare s d.name ⟨d.name.name, s, .procedure d⟩
  | .overloadable name => tab.declare s name ⟨name.name, s, .overloadable name []⟩
  | .overload d => do
    let id ← tab.lookupOwner s .overloadable d.name
    return tab.modifyKind id (attachOverload d)

end SymbolTable

/-- a bound program: its table, and its top-level scope -/
structure Module where
  table : SymbolTable
  scope : ScopeId

namespace Module

/-- a module without items; its scope of primitives is not held for its own sake -/
def empty : Module :=
  let (outer, tab) := SymbolTable.openPrimitives {}
  let (s, tab') := (tab.letGo outer).openChild outer
  ⟨tab', s⟩

/-- bind the items of a program, in order -/
def ofItems (items : List Item) : Except Error Module := do
  let tab ← items.foldlM (SymbolTable.declareItem empty.scope) empty.table
  return ⟨tab, empty.scope⟩

end Module

end DualInference
