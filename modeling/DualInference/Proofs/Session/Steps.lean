/-
Steps of a session.

A session is taken from step to step (`Session.Leads`). What one step can make of it is said once (`Session.Changes`): most
requests only look; the others run an inference, open or let go of scopes, bind a symbol, give a type variable another
type, or make or unify type variables. Everything about all sessions that steps lead to goes by these changes
(`Leads.induction`).
-/
import DualInference.Proofs.Module.Declarations
import DualInference.Session.Run
import Mathlib.Logic.Relation

namespace DualInference

namespace Session

variable {s s' : Session}

/-! ## One step -/

theorem addScope_snd (p : ScopeId × SymbolTable) :
    (s.addScope p).2 = { s with table := p.2, scopes := s.scopes ++ [p.1] } :=
  rfl

/-- what a request can make of a session -/
inductive Changes (s : Session) : Session → Prop
  | nothing : Changes s s
  | inferred {depth : Nat} {scope : ScopeId} {e : Expr} {r : Except Error Denotation} {state : State}
    (h : inferWithin depth s.table { scope } e s.state = some (r, state)) : Changes s { s with state }
  | projected {depth : Nat} {side : Side} {scope : ScopeId} {e : Expr} {shape : Option Shape} {r : Except Error Ty}
    {state : State} (h : projectWithin depth s.table side { scope } e shape s.state = some (r, state)) :
    Changes s { s with state }
  | scopes {table : SymbolTable} {scopes : List ScopeId} (h : table.symbols = s.table.symbols) :
    Changes s { s with table, scopes }
  | primitives (scopes : List ScopeId) : Changes s { s with table := s.table.openPrimitives.2, scopes }
  | declared {number : Nat} {name : String} {form : SymbolForm} {symbol : Symbol} {table : SymbolTable}
    (hmake : s.makeSymbol number name form = .ok symbol) (h : table.symbols = s.table.symbols.push symbol) :
    Changes s { s with table }
  | retyped {number : Nat} {form : TypeForm} {t : Ty} {id : SymbolId} {symbol : Symbol} {kind : SymbolKind}
    (ht : s.type number form = .ok t) (hsymbol : s.table.symbol? id = some symbol)
    (h : retype t symbol.kind = some kind) : Changes s { s with table := s.table.modifyKind id fun _ => kind }
  | fresh (label : String) :
    Changes s { s with
      state.store := s.state.store.fresh.2
      labels := s.labels.filter (·.1 != label) ++ [(label, s.state.store.size)] }
  | compared {number : Nat} {form form' : TypeForm} {t u : Ty} (ht : s.type number form = .ok t)
    (hu : s.type number form' = .ok u) (how : Comparing) : Changes s (s.compare t u how).2

/-- An inference is run, or there is no answer. -/
theorem runInfer_eq_ok {α : Type} {x : Infer α} {f : Session → α → Answer} {answer : Answer}
    (h : s.runInfer x f = .ok (answer, s')) : ∃ r state, x s.state = some (r, state) ∧ s' = { s with state } := by
  unfold Session.runInfer at h
  split at h
  · cases h
  · rename_i hr
    cases h
    exact ⟨_, _, hr, rfl⟩
  · rename_i hr
    cases h
    exact ⟨_, _, hr, rfl⟩

theorem symbol?_of_named {scope : ScopeId} {name : String} {p : SymbolId × Symbol} (h : s.named scope name = .ok p) :
    s.table.symbol? p.1 = some p.2 := by
  obtain ⟨id, _, h⟩ := except_bind_eq_ok h
  obtain ⟨symbol, hsymbol, h⟩ := except_bind_eq_ok h
  cases h
  unfold Session.symbol at hsymbol
  cases hid : s.table.symbol? id with
  | none =>
    rw [hid] at hsymbol
    cases hsymbol
  | some symbol' =>
    rw [hid] at hsymbol
    cases hsymbol
    rfl

/-- What a request leads to, if it has an answer. -/
theorem respond_changes {depth number : Nat} {request : Request} {answer : Answer}
    (hr : s.respond depth number request = .ok (answer, s')) : s.Changes s' := by
  cases request with
  | infer e =>
    obtain ⟨scope, _, hr⟩ := except_bind_eq_ok hr
    obtain ⟨r, state, hrun, rfl⟩ := runInfer_eq_ok hr
    exact .inferred hrun
  | project side e shape =>
    obtain ⟨scope, _, hr⟩ := except_bind_eq_ok hr
    obtain ⟨r, state, hrun, rfl⟩ := runInfer_eq_ok hr
    exact .projected hrun
  | lookup name owner =>
    obtain ⟨scope, _, hr⟩ := except_bind_eq_ok hr
    split at hr
    · cases hr
      exact .nothing
    · obtain ⟨symbol, _, hr⟩ := except_bind_eq_ok hr
      cases hr
      exact .nothing
  | home name span =>
    obtain ⟨scope, _, hr⟩ := except_bind_eq_ok hr
    split at hr
    · cases hr
      exact .nothing
    · obtain ⟨symbol, _, hr⟩ := except_bind_eq_ok hr
      split at hr <;> (cases hr; exact .nothing)
  | has name =>
    obtain ⟨scope, _, hr⟩ := except_bind_eq_ok hr
    cases hr
    exact .nothing
  | debugScope =>
    obtain ⟨scope, _, hr⟩ := except_bind_eq_ok hr
    cases hr
    exact .nothing
  | debugSymbol name =>
    obtain ⟨scope, _, hr⟩ := except_bind_eq_ok hr
    cases hr
    exact .nothing
  | openChild =>
    obtain ⟨scope, _, hr⟩ := except_bind_eq_ok hr
    cases hr
    have hsymbols : (s.table.openChild scope).2.symbols = s.table.symbols := rfl
    exact .scopes hsymbols
  | openRoot =>
    cases hr
    have hsymbols : (s.table.openScope []).2.symbols = s.table.symbols := rfl
    exact .scopes hsymbols
  | openPrimitives =>
    have hs' : s' = (s.addScope s.table.openPrimitives).2 := (congrArg Prod.snd (Except.ok.inj hr)).symm
    rw [hs', addScope_snd]
    exact .primitives _
  | letGo =>
    obtain ⟨scope, _, hr⟩ := except_bind_eq_ok hr
    cases hr
    exact .scopes (SymbolTable.symbols_letGo s.table scope)
  | bind name form home checked =>
    obtain ⟨scope, _, hr⟩ := except_bind_eq_ok hr
    obtain ⟨symbol, hsymbol, hr⟩ := except_bind_eq_ok hr
    split at hr
    · rename_i table htable
      cases hr
      exact .declared hsymbol (SymbolTable.symbols_declare htable)
    · cases hr
      exact .nothing
  | aliasTo name target newName =>
    obtain ⟨scope, _, hr⟩ := except_bind_eq_ok hr
    obtain ⟨target', _, hr⟩ := except_bind_eq_ok hr
    split at hr
    · rename_i table htable
      cases hr
      obtain ⟨id, _, htable⟩ := except_bind_eq_ok htable
      exact .scopes (SymbolTable.symbols_bindIdent htable)
    · cases hr
      exact .nothing
  | setType name form =>
    obtain ⟨scope, _, hr⟩ := except_bind_eq_ok hr
    obtain ⟨⟨id, symbol⟩, hnamed, hr⟩ := except_bind_eq_ok hr
    obtain ⟨t, ht, hr⟩ := except_bind_eq_ok hr
    split at hr
    · rename_i kind hkind
      cases hr
      exact .retyped ht (symbol?_of_named hnamed) hkind
    · cases hr
  | state name form =>
    obtain ⟨scope, _, hr⟩ := except_bind_eq_ok hr
    obtain ⟨⟨id, symbol⟩, _, hr⟩ := except_bind_eq_ok hr
    obtain ⟨key, _, hr⟩ := except_bind_eq_ok hr
    split at hr
    · cases hr
      exact .nothing
    · cases hr
  | fresh label =>
    cases hr
    exact .fresh label
  | vars =>
    cases hr
    exact .nothing
  | compare how x y =>
    obtain ⟨a, ha, hr⟩ := except_bind_eq_ok hr
    obtain ⟨b, hb, hr⟩ := except_bind_eq_ok hr
    cases hr
    exact .compared ha hb how
  | inspect form =>
    obtain ⟨t, _, hr⟩ := except_bind_eq_ok hr
    cases hr
    exact .nothing

/-- A step without an answer changes nothing. -/
theorem step_changes (s : Session) (depth : Nat) (step : Step) : s.Changes (s.step depth step).2 := by
  unfold Session.step
  split
  · rename_i r hr
    exact respond_changes hr
  · exact .nothing

/-! ## All steps -/

/-- sessions to which steps lead; inferences may go as deep as one likes in each of them -/
def Leads : Session → Session → Prop :=
  Relation.ReflTransGen fun s s' => ∃ depth step, s' = (s.step depth step).2

/-- What the changes keep is kept in all sessions that steps lead to. -/
theorem Leads.induction {P : Session → Prop} (h : s.Leads s') (hs : P s)
    (hchanges : ∀ {s s'}, s.Changes s' → P s → P s') : P s' := by
  induction h with
  | refl => exact hs
  | tail _ hstep ih =>
    obtain ⟨depth, step, rfl⟩ := hstep
    exact hchanges (step_changes _ depth step) ih

/-- the session after some steps -/
def after (depth : Nat) (s : Session) (steps : List Step) : Session :=
  steps.foldl (fun s step => (s.step depth step).2) s

theorem leads_after (depth : Nat) (s : Session) (steps : List Step) : s.Leads (s.after depth steps) := by
  induction steps generalizing s with
  | nil => exact .refl
  | cons step steps ih => exact .head ⟨depth, step, rfl⟩ (ih _)

end Session

end DualInference
