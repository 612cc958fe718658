/-
Records in a session.

Between two inferences a driver may do what it likes: bind symbols, let go of scopes, give a type variable another type,
unify types. Nothing of it touches a procedure, or a name of a variable definition, that is there already
(`SymbolTable.Enlarges`), and the store only evolves. So what is recorded of procedures stays right between inferences as
well as within them (`Session.WellRecorded`).

Main result: `recorded_calls_match`. Wherever a type is recorded for a procedure and a key, in a session that steps lead
to, the key fits the procedure, the types of its values are known, and the recorded type has no variables.
-/
import DualInference.Proofs.Inference.Records
import DualInference.Proofs.Module.Acceptance
import DualInference.Proofs.Session.Bindings

namespace DualInference

/-! ## Tables -/

/-- Symbols other than type variables are as they were, and what is new of variable definitions are names that go by
themselves. -/
structure SymbolTable.Enlarges (tab tab' : SymbolTable) : Prop where
  kept : ∀ {id symbol}, tab.symbol? id = some symbol → (∀ span t, symbol.kind ≠ .typeVar span t) →
    tab'.symbol? id = some symbol
  global : ∀ {id name home d group position}, tab'.symbol? id = some ⟨name, home, .global d group position⟩ →
    tab.symbol? id = some ⟨name, home, .global d group position⟩ ∨ group = id

namespace SymbolTable

variable {tab tab' : SymbolTable}

theorem Enlarges.of_symbols (h : tab'.symbols = tab.symbols) : tab.Enlarges tab' := by
  have hsymbol : ∀ id, tab'.symbol? id = tab.symbol? id := fun id => by rw [symbol?, h, symbol?]
  exact ⟨fun hid _ => by rwa [hsymbol], fun hid => .inl (by rwa [hsymbol] at hid)⟩

theorem Enlarges.grouped (h : tab.Enlarges tab') (hgrouped : tab.Grouped) : tab'.Grouped := by
  intro id name home d group position hid
  rcases h.global hid with hold | rfl
  · obtain ⟨name', home', d', position', hgroup⟩ := hgrouped hold
    exact ⟨name', home', d', position', h.kept hgroup nofun⟩
  · exact ⟨name, home, d, position, hid⟩

/-- A record is one in the larger table too. -/
theorem Enlarges.record (h : tab.Enlarges tab') {s : Store} {id : SymbolId} {key : Key} {t : Ty}
    (hrecord : Record tab s id key t) : Record tab' s id key t := by
  cases hrecord with
  | call hsymbol hfits hclosed => exact .call (h.kept hsymbol nofun) hfits hclosed
  | initializer hsymbol => exact .initializer (h.kept hsymbol nofun)

theorem enlarges_openPrimitives (tab : SymbolTable) : tab.Enlarges tab.openPrimitives.2 := by
  have hdeclares := openPrimitives_declares tab
  have hold : ∀ id, id < tab.symbols.size → tab.openPrimitives.2.symbol? id = tab.symbol? id := hdeclares.old
  refine ⟨fun {id symbol} hid _ => ?_, fun {id name home d group position} hid => ?_⟩
  · rw [hold id (symbol?_lt hid), hid]
  · by_cases hlt : id < tab.symbols.size
    · exact .inl (hold id hlt ▸ hid)
    · -- a primitive is no name of a variable definition
      obtain ⟨k, rfl⟩ := Nat.exists_eq_add_of_le (Nat.le_of_not_lt hlt)
      have hnew := hdeclares.new k
      rw [show (tab.openScope []).2.symbols.size + k = tab.symbols.size + k from rfl, hid] at hnew
      obtain ⟨entry, hentry, heq⟩ := Option.map_eq_some_iff.1 hnew.symm
      rcases kind_of_primitive (List.mem_of_getElem? hentry) with ⟨b, rfl⟩ | ⟨op, rfl⟩
      · cases heq
      · cases heq

end SymbolTable

/-! ## Sessions -/

namespace Session

variable {s s' : Session}

/-- A name of a variable definition that is bound in a session goes by itself. -/
theorem group_of_makeSymbol {number : Nat} {name : String} {form : SymbolForm} {symbol : Symbol}
    (hmake : s.makeSymbol number name form = .ok symbol) {d : Variables} {group : SymbolId} {position : Nat}
    (hkind : symbol.kind = .global d group position) : group = s.table.symbols.size := by
  obtain ⟨home, _, hmake⟩ := except_bind_eq_ok hmake
  cases form with
  | localVar form =>
    obtain ⟨t, _, hmake⟩ := except_bind_eq_ok hmake
    cases hmake
    cases hkind
  | typeVar form span =>
    obtain ⟨t, _, hmake⟩ := except_bind_eq_ok hmake
    cases hmake
    cases hkind
  | global d' position' =>
    dsimp only at hmake
    split at hmake
    · cases hmake
      cases hkind
      rfl
    · cases hmake
  | item i =>
    cases i with
    | vars d' => cases hmake
    | _ =>
      cases hmake
      cases hkind

theorem compare_table (t u : Ty) (how : Comparing) : (s.compare t u how).2.table = s.table := by
  cases how with
  | unify =>
    unfold Session.compare
    generalize s.state.store.unifyInPlace t u = r
    rfl
  | equal | identical => rfl

/-- What can change in a session leaves procedures and variable definitions alone. -/
theorem Changes.enlarges (hc : s.Changes s') : s.table.Enlarges s'.table := by
  cases hc with
  | nothing | inferred _ | projected _ | fresh _ => exact .of_symbols rfl
  | scopes hsymbols => exact .of_symbols hsymbols
  | primitives scopes =>
    dsimp only
    exact s.table.enlarges_openPrimitives
  | compared _ _ how => exact .of_symbols (congrArg SymbolTable.symbols (compare_table _ _ how))
  | declared hmake hsymbols =>
    refine ⟨fun {id symbol'} hid _ => ?_, fun {id name home d group position} hid => ?_⟩
    · rw [SymbolTable.symbol?_push hsymbols, if_neg (Nat.ne_of_lt (SymbolTable.symbol?_lt hid)), hid]
    · rw [SymbolTable.symbol?_push hsymbols] at hid
      split at hid
      · rename_i heq
        cases hid
        exact .inr ((group_of_makeSymbol hmake rfl).trans heq.symm)
      · exact .inl hid
  | @retyped number form t id symbol kind _ hsymbol hkind =>
    obtain ⟨name, home, old⟩ := symbol
    cases old with
    | typeVar span u =>
      cases hkind
      refine ⟨fun {id' symbol'} hid hne => ?_, fun {id' name' home' d group position} hid => ?_⟩
      · have hother : id' ≠ id := by
          rintro rfl
          cases hid.symm.trans hsymbol
          exact hne span u rfl
        simp [SymbolTable.symbol?_modifyKind, hid, hother]
      · rw [SymbolTable.symbol?_modifyKind] at hid
        obtain ⟨symbol', hsymbol', heq⟩ := Option.map_eq_some_iff.1 hid
        split at heq
        · cases heq
        · exact .inl (heq ▸ hsymbol')
    | _ => cases hkind

/-- all records made so far are right -/
structure WellRecorded (s : Session) : Prop where
  grouped : s.table.Grouped
  state : s.state.WellRecorded s.table

/-- No change makes a record wrong. -/
theorem Changes.wellRecorded (hc : s.Changes s') (h : s.WellRecorded) : s'.WellRecorded := by
  have henlarges := hc.enlarges
  have htable : s.state.WellRecorded s'.table := ⟨h.state.acyclic, fun ht => henlarges.record (h.state.record ht)⟩
  refine ⟨henlarges.grouped h.grouped, ?_⟩
  cases hc with
  | nothing => exact htable
  | inferred hrun => exact inferWithin_wellRecorded h.grouped htable hrun
  | projected hrun => exact projectWithin_wellRecorded h.grouped htable hrun
  | scopes _ | primitives _ | declared _ _ | retyped _ _ _ => exact htable
  | fresh label => exact htable.later rfl (.fresh _)
  | @compared _ _ _ t u _ _ how =>
    cases how with
    | unify =>
      rw [Session.compare, Store.unifyInPlace_eq h.state.acyclic] at htable ⊢
      cases hunify : s.state.store.unify t u with
      | none => exact htable
      | some store => exact htable.later rfl (.unify hunify)
    | equal | identical => exact htable

theorem wellRecorded_ofModule {items : List Item} {m : Module} (hm : Module.ofItems items = .ok m) :
    (ofModule m).WellRecorded where
  grouped hid := by
    obtain ⟨name', position', hgroup⟩ := (Module.settled hm).group hid
    exact ⟨_, _, _, _, hgroup⟩
  state := ⟨Store.wellFormed_empty.acyclic, nofun⟩

theorem Leads.wellRecorded (h : s.Leads s') (hs : s.WellRecorded) : s'.WellRecorded :=
  h.induction hs fun hc hs => hc.wellRecorded hs

/-- The procedures of a program are there in all its sessions. -/
theorem Leads.procedure {m : Module} {id : SymbolId} {name : String} {home : ScopeId} {d : Procedure}
    (h : (ofModule m).Leads s) (hid : m.table.symbol? id = some ⟨name, home, .procedure d⟩) :
    s.table.symbol? id = some ⟨name, home, .procedure d⟩ := by
  have hstart : (ofModule m).table.symbol? id = some ⟨name, home, .procedure d⟩ := hid
  exact h.induction hstart fun hc hid => hc.enlarges.kept hid nofun

end Session

/-! ## Main result -/

/-- **Recorded calls match.** Where a session has a return type on record for a procedure and a key, the procedure has no
conditions; the key has a part for each formal, a value for a value and a type for a type; the types of the values are
known, without variables; and so is the return type. -/
theorem recorded_calls_match {items : List Item} {m : Module} (hm : Module.ofItems items = .ok m) {s : Session}
    (hs : (Session.ofModule m).Leads s) {id : SymbolId} {name : String} {home : ScopeId} {d : Procedure}
    (hsymbol : s.table.symbol? id = some ⟨name, home, .procedure d⟩) {key : Key} {t : Ty}
    (ht : s.state.memo.state? id key = some (.resolved t)) :
    d.conditions = [] ∧ key.length = d.formals.length ∧
    List.Forall₂ (fun formal actual => Formal.isValue formal = Denotation.isValue actual) d.formals key ∧
    (∀ u, .value u ∈ key → ∃ v, s.state.store.deref? u = some v ∧ v.vars = []) ∧ t.vars = [] := by
  have hrecord := (hs.wellRecorded (Session.wellRecorded_ofModule hm)).state.record ht
  cases hrecord with
  | initializer hglobal => cases hsymbol.symm.trans hglobal
  | call hcall hfits hclosed =>
    cases hsymbol.symm.trans hcall
    refine ⟨hfits.conditions, hfits.dual.length_eq.symm, hfits.dual, fun u hu => ?_, hclosed⟩
    obtain ⟨v, hv⟩ := Option.isSome_iff_exists.1 (hfits.known u hu)
    exact ⟨v, hv, Store.vars_deref? hv⟩

/-- takes an `Int`, and gives it back -/
def bump : Procedure :=
  ⟨{ name := "bump" }, [], [.value .byValue { name := "n" } (.bare "Int")], [], none, some (.bare "n"), {}⟩

def bumpModule : Module :=
  match Module.ofItems [.procedure bump] with
  | .ok m => m
  | .error _ => .empty

theorem ofItems_bumpModule : Module.ofItems [.procedure bump] = .ok bumpModule := by
  have hok : (Module.ofItems [.procedure bump]).isOk = true := by decide +kernel
  obtain ⟨m, hm⟩ := Module.ofItems_of_isOk hok
  unfold bumpModule
  rw [hm]

/-- `bump` is called with a variable whose type is not known -/
def bumpSteps : List Step :=
  [{ request := .fresh "a" }, { request := .bind { name := "x" } (.localVar (.var "a")) 0 true },
    { request := .infer (.call {} (.bare "bump") [.bare "x"]) }]

/-- The recorded key has the type variable that was open when `bump` was called; the call is what made it known. -/
theorem open_call_matches : ∃ s, (Session.ofModule bumpModule).Leads s ∧
    s.table.symbol? 30 = some ⟨"bump", bumpModule.scope, .procedure bump⟩ ∧
    s.state.memo.state? 30 [.value (.var 0)] = some (.resolved .int) ∧
    ∃ v, s.state.store.deref? (.var 0) = some v ∧ v.vars = [] := by
  have hs := Session.leads_after 8 (Session.ofModule bumpModule) bumpSteps
  obtain ⟨id, hlookup, hid⟩ := Module.procedure_bound ofItems_bumpModule (.head _)
  have hthirty : bumpModule.table.lookup bumpModule.scope "bump" = some 30 := by decide +kernel
  obtain rfl : id = 30 := Option.some.inj (hlookup.symm.trans hthirty)
  have hrecorded : ((Session.ofModule bumpModule).after 8 bumpSteps).state.memo.state? 30 [.value (.var 0)] =
      some (.resolved .int) := by decide +kernel
  have hsymbol := hs.procedure hid
  obtain ⟨_, _, _, hknown, _⟩ := recorded_calls_match ofItems_bumpModule hs hsymbol hrecorded
  exact ⟨_, hs, hsymbol, hrecorded, hknown (.var 0) (.head _)⟩

end DualInference
