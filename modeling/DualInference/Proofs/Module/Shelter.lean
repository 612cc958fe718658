/-
A module that is kept.

Whoever keeps a module may infer in its scope, open scopes inside it, give names in these to local values of types that were
inferred, and let go of any scope but that of the module (`Module.Used`). All that can be opened in the module, which is its
aggregates, its procedures and its variables, is at home in its scope. So although types wander far from where they were
made, through recorded answers, bindings and local values, whatever is opened because of them is found in a scope that
is held. And every aggregate in them was made with as many parameters as it declares, so this is also how its fields
are read.

Both are kept by every step (`Usage.Sound`): the types that come out of an inference are arranged, so nothing else is ever
given to a local value.

Main result: `defensive_branches_are_unreachable`.
-/
import DualInference.Proofs.Inference.DefendedRules
import DualInference.Proofs.Module.Contents
import DualInference.Proofs.Module.History
import DualInference.Proofs.Module.Order

namespace DualInference

/-! ## Using a module -/

/-- where the use of a module has led to -/
structure Usage where
  table : SymbolTable
  state : State := {}
  /-- the types that were inferred on the way -/
  types : List Ty := []

namespace Module

variable (m : Module)

/-- what the use of a module that is kept leads to -/
inductive Used : Usage → Prop
  | start : Used { table := m.table }
  | infer {u : Usage} (h : Used u) {depth : Nat} {scope : ScopeId} {e : Expr} {r : Except Error Denotation} {st : State}
    (hrun : inferWithin depth u.table { scope } e u.state = some (r, st)) :
    Used { u with state := st, types := r.toOption.toList.map Denotation.ty ++ u.types }
  | project {u : Usage} (h : Used u) {depth : Nat} {side : Side} {scope : ScopeId} {e : Expr} {shape : Option Shape}
    {r : Except Error Ty} {st : State} (hrun : projectWithin depth u.table side { scope } e shape u.state = some (r, st)) :
    Used { u with state := st, types := r.toOption.toList ++ u.types }
  | openChild {u : Usage} (h : Used u) (parent : ScopeId) : Used { u with table := (u.table.openChild parent).2 }
  | bindLocal {u : Usage} (h : Used u) {t : Ty} (ht : t ∈ u.types) {scope : ScopeId} {name : Ident} {symbol : Symbol}
    (hsymbol : symbol.kind = .localVar t) {table : SymbolTable}
    (hdeclare : u.table.declare scope name symbol = .ok table) : Used { u with table }
  | letGo {u : Usage} (h : Used u) {scope : ScopeId} (hscope : scope ≠ m.scope) :
    Used { u with table := u.table.letGo scope }

end Module

/-! ## Scopes that are held -/

namespace SymbolTable

variable {tab tab' : SymbolTable}

theorem alive_of_isHeld {s : ScopeId} (h : tab.isHeld s = true) : tab.alive s = true := by
  have hlt : s < tab.scopes.size := by
    by_cases hlt : s < tab.scopes.size
    · exact hlt
    · rw [isHeld, Array.getElem?_eq_none (Nat.le_of_not_lt hlt)] at h
      cases h
  refine List.any_eq_true.2 ⟨s, List.mem_range.2 hlt, ?_⟩
  simp [h]

theorem isHeld_openChild {s : ScopeId} (h : tab.isHeld s = true) (parent : ScopeId) :
    (tab.openChild parent).2.isHeld s = true := by
  rw [isHeld, openChild, openScope, Array.getElem?_push]
  split
  · rfl
  · exact h

theorem isHeld_letGo {s s' : ScopeId} (h : tab.isHeld s = true) (hs : s' ≠ s) : (tab.letGo s').isHeld s = true := by
  rw [isHeld, letGo, Array.getElem?_modify, if_neg hs]
  exact h

/-! ## More symbols -/

/-- the symbols of the one table are in the other one under their numbers -/
def Extends (tab tab' : SymbolTable) : Prop :=
  ∀ id symbol, tab.symbol? id = some symbol → tab'.symbol? id = some symbol

theorem Extends.of_symbols (h : tab'.symbols = tab.symbols) : tab.Extends tab' := by
  intro id symbol hid
  rw [symbol?, h]
  exact hid

theorem Extends.declare {s : ScopeId} {name : Ident} {symbol : Symbol} (h : tab.declare s name symbol = .ok tab') :
    tab.Extends tab' := by
  intro id symbol' hid
  rw [symbol?_push (symbols_declare h), if_neg (Nat.ne_of_lt (symbol?_lt hid)), hid]

theorem Extends.forms (h : tab.Extends tab') : ∀ f n, tab.Forms f n → tab'.Forms f n
  | .aggregate _ _, _, ⟨name, home, d, hid, hlen⟩ => ⟨name, home, d, h _ _ hid, hlen⟩
  | .tuple, _, _ => trivial

end SymbolTable

theorem Meaning.Sheltered.extend {tab tab' : SymbolTable} (h : tab.Extends tab') {home : ScopeId} {m : Meaning}
    (hm : m.Sheltered tab home) : m.Sheltered tab' home := by
  cases m with
  | typeVar t => exact hm.mono h.forms
  | localVar t => exact hm.mono h.forms
  | aggregate origin kind d => exact ⟨hm.1, h _ _ hm.2⟩
  | _ => exact hm

theorem State.Arranged.extend {tab tab' : SymbolTable} (h : tab.Extends tab') {st : State} (hst : st.Arranged tab) :
    st.Arranged tab' :=
  ⟨hst.store.mono h.forms, fun ht => (hst.memo ht).mono h.forms⟩

/-! ## What every step keeps -/

/-- the scope is held and shelters all symbols, and all types are arranged -/
structure Usage.Sound (home : ScopeId) (u : Usage) : Prop where
  held : u.table.isHeld home = true
  symbols : ∀ {id symbol}, u.table.symbol? id = some symbol → (symbol.meaning id).Sheltered u.table home
  state : u.state.Arranged u.table
  types : ∀ t ∈ u.types, u.table.Arranges t

namespace Usage.Sound

variable {home : ScopeId} {u : Usage} (h : u.Sound home)

include h

theorem sheltered : u.table.Sheltered home :=
  ⟨SymbolTable.alive_of_isHeld h.held, h.symbols⟩

/-- A scope more or less, or a local value of a type that was inferred, does no harm. -/
theorem withTable {tab : SymbolTable} (hheld : tab.isHeld home = true) (hextends : u.table.Extends tab)
    (hnew : ∀ {id symbol}, tab.symbol? id = some symbol →
      u.table.symbol? id = some symbol ∨ ∃ t ∈ u.types, symbol.kind = .localVar t) :
    Usage.Sound home { u with table := tab } where
  held := hheld
  symbols {id symbol} hid := by
    rcases hnew hid with hid | ⟨t, ht, hkind⟩
    · exact (h.symbols hid).extend hextends
    · obtain ⟨name, home', kind⟩ := symbol
      cases hkind
      exact (h.types t ht).mono hextends.forms
  state := h.state.extend hextends
  types t ht := (h.types t ht).mono hextends.forms

/-- What a defended computation comes to is arranged. -/
theorem run {α : Type} {x y : Infer α} (type : α → Ty)
    (hx : Infer.Defended u.table (fun a => u.table.Arranges (type a)) x y) {r : Except Error α} {st : State}
    (hrun : x u.state = some (r, st)) :
    Usage.Sound home { u with state := st, types := r.toOption.toList.map type ++ u.types } := by
  obtain ⟨hst, hr⟩ := (hx u.state h.state).2 r st hrun
  refine ⟨h.held, h.symbols, hst, List.forall_mem_append.2 ⟨?_, h.types⟩⟩
  cases r with
  | ok a => exact List.forall_mem_singleton.2 hr
  | error e => nofun

end Usage.Sound

/-- At the start the scope of a module shelters its symbols: the declarations are at home there, and nothing else can be
opened. -/
theorem Module.sound_start {items : List Item} {m : Module} (hm : Module.ofItems items = .ok m) :
    Usage.Sound m.scope { table := m.table } := by
  obtain ⟨hitems, hbound, hscope⟩ := Module.bound_of_ofItems hm
  refine ⟨?_, fun {id symbol} hid => ?_, .fresh, nofun⟩
  · have hheld : Module.empty.table.isHeld Module.empty.scope = true := by decide +kernel
    rw [SymbolTable.isHeld_eq_of_outline (Module.outline_ofItems hm), hscope, hheld]
  · have hdeclared := (Module.settled hm).declared hid
    rcases hbound.symbol?_cases hitems hid with (⟨b, hb⟩ | ⟨op, hop⟩) | ⟨i, p, item, ident, -, -, hsymbol⟩
    · obtain ⟨name, home, kind⟩ := symbol
      cases hb
      trivial
    · obtain ⟨name, home, kind⟩ := symbol
      cases hop
      trivial
    · have hhome : symbol.home = m.scope := by rw [hsymbol, hscope]
      obtain ⟨name, home, kind⟩ := symbol
      cases kind with
      | typeVar span t => exact hdeclared.elim
      | localVar t => exact hdeclared.elim
      | aggregate kind d => exact ⟨hhome, hid⟩
      | procedure d => exact hhome
      | global d group position => exact hhome
      | _ => trivial

/-- Whatever the use of a module leads to is sound. -/
theorem Module.Used.sound {items : List Item} {m : Module} (hm : Module.ofItems items = .ok m) {u : Usage}
    (hu : m.Used u) : u.Sound m.scope := by
  induction hu with
  | start => exact Module.sound_start hm
  | infer _ hrun ih => exact ih.run Denotation.ty (infer_defended ih.sheltered _ Frame.arranged_nil _) hrun
  | project _ hrun ih =>
    have hsound := ih.run id (project_defended ih.sheltered _ _ Frame.arranged_nil _ _) hrun
    rwa [List.map_id] at hsound
  | openChild _ parent ih => exact ih.withTable (SymbolTable.isHeld_openChild ih.held parent) (.of_symbols rfl) .inl
  | letGo _ hscope ih => exact ih.withTable (SymbolTable.isHeld_letGo ih.held hscope) (.of_symbols rfl) .inl
  | bindLocal _ ht hsymbol hdeclare ih =>
    refine ih.withTable ?_ (.declare hdeclare) fun {id symbol} hid => ?_
    · rw [SymbolTable.isHeld_eq_of_outline (SymbolTable.outline_declare hdeclare), ih.held]
    · rw [SymbolTable.symbol?_push (SymbolTable.symbols_declare hdeclare)] at hid
      split at hid
      · cases hid
        exact .inr ⟨_, ht, hsymbol⟩
      · exact .inl hid

/-! ## Main result -/

/-- **Nothing defensive comes up while the module is kept.** Whatever was done with a module before, an inference or a
projection in any scope passes every check on the parameters of the types whose fields it reads: it comes out the same with
the checks, however deep it may go. And it does not fail for a defensive reason: neither is a home found closed, nor
something found to be no record or struct or no polymorphic primitive, nor is a check failed. -/
theorem defensive_branches_are_unreachable {items : List Item} {m : Module} (hm : Module.ofItems items = .ok m)
    {u : Usage} (hu : m.Used u) (scope : ScopeId) (depth : Nat) :
    (∀ e, inferChecked depth u.table { scope } e u.state = inferWithin depth u.table { scope } e u.state ∧
      ∀ err st, inferWithin depth u.table { scope } e u.state = some (.error err, st) → err.cause.isDefensive = false) ∧
    ∀ side e shape, projectChecked depth u.table side { scope } e shape u.state =
        projectWithin depth u.table side { scope } e shape u.state ∧
      ∀ err st, projectWithin depth u.table side { scope } e shape u.state = some (.error err, st) →
        err.cause.isDefensive = false := by
  have hsound := hu.sound hm
  have henv : Frame.Arranged u.table { scope : Env }.locals := Frame.arranged_nil
  refine ⟨fun e => ?_, fun side e shape => ?_⟩
  · obtain ⟨heq, hend⟩ := infer_defended hsound.sheltered depth henv e u.state hsound.state
    exact ⟨heq, fun err st hrun => (hend _ _ hrun).2⟩
  · obtain ⟨heq, hend⟩ := project_defended hsound.sheltered depth side henv e shape u.state hsound.state
    exact ⟨heq, fun err st hrun => (hend _ _ hrun).2⟩

/-- the box program with a scope inside its own in which `b` is a value of the type -/
def boxTable (t : Ty) : SymbolTable :=
  let tab := (boxModule.table.openChild boxModule.scope).2
  match tab.declare 2 { name := "b" } ⟨"b", 2, .localVar t⟩ with
  | .ok table => table
  | .error _ => tab

/-- the box program after `seed` was inferred and its type given to `b` -/
def boxUsage : Usage where
  table := boxTable (.aggregate .record 30 [.int])
  state := boxState
  types := [.aggregate .record 30 [.int]]

/-- A type is inferred in the scope of a module, and given to a local value in a scope inside it. -/
theorem Module.Used.local_of_infer {m : Module} {depth : Nat} {e : Expr} {d : Denotation} {st : State}
    (hrun : inferWithin depth m.table m.env e {} = some (.ok d, st)) {scope : ScopeId} {name : Ident} {symbol : Symbol}
    (hsymbol : symbol.kind = .localVar d.ty) {table : SymbolTable}
    (hdeclare : (m.table.openChild m.scope).2.declare scope name symbol = .ok table) :
    m.Used { table, state := st, types := [d.ty] } := by
  have hinferred : m.Used { table := m.table, state := st, types := [d.ty] } := .infer .start hrun
  exact (hinferred.openChild m.scope).bindLocal List.mem_cons_self hsymbol hdeclare

theorem used_boxUsage : boxModule.Used boxUsage := by
  have hok : ((boxModule.table.openChild boxModule.scope).2.declare 2 { name := "b" }
      ⟨"b", 2, .localVar (.aggregate .record 30 [.int])⟩).isOk = true := by decide +kernel
  unfold boxUsage boxTable
  dsimp only
  split
  · rename_i table hdeclare
    exact .local_of_infer infer_seed rfl hdeclare
  · rename_i e hdeclare
    rw [hdeclare] at hok
    cases hok

/-- `b.item` is read at one parameter, and `b(true)` fails because of its argument. -/
theorem local_box_is_read_at_its_parameter :
    (inferChecked 8 boxUsage.table { scope := 2 } (.field {} (.bare "b") { name := "item" }) boxUsage.state).map (·.1) =
      some (.ok (.value .int)) ∧
    ∃ err st, inferWithin 8 boxUsage.table { scope := 2 } (.call {} (.bare "b") [.bool {} true]) boxUsage.state =
      some (.error err, st) ∧ err.cause.isDefensive = false := by
  have hunreachable := defensive_branches_are_unreachable ofItems_boxProgram used_boxUsage 2 8
  have hcall : (inferWithin 8 boxUsage.table { scope := 2 } (.call {} (.bare "b") [.bool {} true])
      boxUsage.state).map (·.1) = some (.error ⟨.typeMismatch "Int" "Bool", {}⟩) := by decide +kernel
  refine ⟨?_, ?_⟩
  · rw [(hunreachable.1 _).1]
    decide +kernel
  · obtain ⟨⟨r, st⟩, hrun, rfl⟩ := Option.map_eq_some_iff.1 hcall
    exact ⟨_, st, hrun, (hunreachable.1 _).2 _ st hrun⟩

-- A box without parameter is a type that nothing infers. The check finds it, and without the check its type variable is a
-- name that nothing declares.
example :
    (inferChecked 8 (boxTable (.aggregate .record 30 [])) { scope := 2 } (.field {} (.bare "b") { name := "item" }) {}).map
      (·.1) = some (.error ⟨.unsupported misfit, {}⟩) ∧
    (inferWithin 8 (boxTable (.aggregate .record 30 [])) { scope := 2 } (.field {} (.bare "b") { name := "item" }) {}).map
      (·.1) = some (.error ⟨.undefinedName "T", {}⟩) := by
  decide +kernel

end DualInference
