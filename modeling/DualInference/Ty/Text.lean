/-
The text of a type, written while its bindings are followed.

A bound variable is written as its binding is, on the spot, and an unbound one by its number; the resolved type is never
made. `Store.display` comes to the same text by way of the resolved type.
-/
import DualInference.Ty.Store

namespace DualInference

namespace Ty

mutual

/-- the text of a type, given the names of symbols and the texts of variables -/
def write (name : SymbolId → String) (f : VarId → String) : Ty → String
  | .scalar s => s.render
  | .wrap w t => w.render (write name f t)
  | .compound p ts => p.render name (writeList name f ts)
  | .var v => f v

def writeList (name : SymbolId → String) (f : VarId → String) : List Ty → List String
  | [] => []
  | t :: ts => write name f t :: writeList name f ts

end

end Ty

/-- the text of a type, bindings followed as it is written -/
def Store.write (s : Store) (name : SymbolId → String) (t : Ty) : String :=
  s.read (Ty.write name) (fun v text? => text?.getD ("?" ++ toString v)) t

end DualInference
