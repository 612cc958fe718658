import DualInference.Builtin
import DualInference.Cache
import DualInference.Diagnostic
import DualInference.Inference.Basic
import DualInference.Inference.Environment
import DualInference.Inference.Fields
import DualInference.Inference.Global
import DualInference.Inference.Infer
import DualInference.Inference.Primitive
import DualInference.Inference.ReturnType
import DualInference.Location
import DualInference.Module
import DualInference.Program
import DualInference.Proofs.Inference.Answers
import DualInference.Proofs.Inference.Built
import DualInference.Proofs.Inference.ConfinedRules
import DualInference.Proofs.Inference.Confinement
import DualInference.Proofs.Inference.DefendedRules
import DualInference.Proofs.Inference.Defense
import DualInference.Proofs.Inference.Disguise
import DualInference.Proofs.Inference.DisguisedRules
import DualInference.Proofs.Inference.Finding
import DualInference.Proofs.Inference.Halting
import DualInference.Proofs.Inference.HaltingRules
import DualInference.Proofs.Inference.Limit
import DualInference.Proofs.Inference.Lockstep
import DualInference.Proofs.Inference.Marks
import DualInference.Proofs.Inference.Parameters
import DualInference.Proofs.Inference.Progress
import DualInference.Proofs.Inference.Records
import DualInference.Proofs.Inference.Results
import DualInference.Proofs.Inference.Rules
import DualInference.Proofs.Inference.Simulation
import DualInference.Proofs.Inference.Steps
import DualInference.Proofs.Inference.TypeExpr
import DualInference.Proofs.Module.Acceptance
import DualInference.Proofs.Module.Binding
import DualInference.Proofs.Module.Calls
import DualInference.Proofs.Module.Construction
import DualInference.Proofs.Module.Contents
import DualInference.Proofs.Module.Declarations
import DualInference.Proofs.Module.Demands
import DualInference.Proofs.Module.History
import DualInference.Proofs.Module.Layers
import DualInference.Proofs.Module.Order
import DualInference.Proofs.Module.ScopeChains
import DualInference.Proofs.Module.Shelter
import DualInference.Proofs.Module.Spans
import DualInference.Proofs.Module.Table
import DualInference.Proofs.Module.Termination
import DualInference.Proofs.Module.Transparency
import DualInference.Proofs.Module.Variables
import DualInference.Proofs.Outcome
import DualInference.Proofs.Session.Bindings
import DualInference.Proofs.Session.Isolation
import DualInference.Proofs.Session.KeyEvents
import DualInference.Proofs.Session.Records
import DualInference.Proofs.Session.Steps
import DualInference.Proofs.Session.TypeLanguage
import DualInference.Proofs.Store.Acyclic
import DualInference.Proofs.Store.Agreement
import DualInference.Proofs.Store.Arranged
import DualInference.Proofs.Store.Dereference
import DualInference.Proofs.Store.Disguise
import DualInference.Proofs.Store.Equations
import DualInference.Proofs.Store.Evolution
import DualInference.Proofs.Store.InPlace
import DualInference.Proofs.Store.Matching
import DualInference.Proofs.Store.Paired
import DualInference.Proofs.Store.Recursion
import DualInference.Proofs.Store.Resolved
import DualInference.Proofs.Store.ResolvedForm
import DualInference.Proofs.Store.Unifier
import DualInference.Proofs.Store.Unify
import DualInference.Proofs.Ty.Alike
import DualInference.Session.CacheRun
import DualInference.Session.Description
import DualInference.Session.Form
import DualInference.Session.Request
import DualInference.Session.Run
import DualInference.Symbol
import DualInference.SymbolTable
import DualInference.Ty.Basic
import DualInference.Ty.InPlace
import DualInference.Ty.Recursion
import DualInference.Ty.Shape
import DualInference.Ty.Store
import DualInference.Ty.Text
import DualInference.Ty.Unify
