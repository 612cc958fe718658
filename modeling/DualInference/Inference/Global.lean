/-
Global variables. An annotated name has the annotated type. A name without annotation has the type of the
initializer, which is inferred once for the whole definition; if the definition has several names the initializer
has to be a tuple of as many parts, and each name stands for the part at its position. Both are read in the home of
the definition.
-/
import DualInference.Inference.Basic

namespace DualInference

/-- a part of a tuple type -/
def part (parts : List Ty) (position : Nat) (span : Span) : Infer Ty :=
  match parts[position]? with
  | some t => return t
  | none => Infer.fail (.arity "tuple element(s)" (position + 1) parts.length) span

namespace Context

variable (cx : Context)

/-- the type of the initializer of a definition -/
def initType (home : Env) (d : Variables) (group : SymbolId) (span : Span) : Infer Ty :=
  cx.remember group [] span (cx.value home d.init)

/-- the type of the name at a position of a definition, used at `span` -/
def globalType (origin : Origin) (d : Variables) (group : SymbolId) (position : Nat) (span : Span) : Infer Ty := do
  let home ← cx.home origin span
  match d.names[position]?.bind (·.type) with
  | some annotation => cx.type home annotation
  | none =>
    let t ← cx.initType home d group span
    if d.names.length = 1 then return t
    else
      let parts ← cx.view Ty.parts? t d.init.span
      arity "tuple element(s)" d.names.length parts.length d.init.span
      part parts position d.init.span

end Context

end DualInference
