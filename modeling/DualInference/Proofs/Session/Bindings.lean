/-
Bindings in a session last.

A session is taken from step to step, and its store with it (`Session.Leads`). All types that come up in a session are
types of its store: those of the symbols made in it, those that requests write, and those that inference works with
(`Session.Confined`). So whatever a step does to the store, it makes variables and binds unbound ones, and a session keeps
what it knows.

Main result: `bindings_last`. No variable is ever reachable from its own binding, none is bound twice, and a binding, a
dereferenced type or an equality that is there between two steps is there after all later ones.
-/
import DualInference.Proofs.Inference.ConfinedRules
import DualInference.Proofs.Module.Declarations
import DualInference.Proofs.Module.History
import DualInference.Proofs.Store.InPlace
import DualInference.Proofs.Session.Steps

namespace DualInference

/-! ## Types in requests -/

namespace TypeForm

variable {symbol : String → Option SymbolId} {var : String → Option VarId} {n : Nat}

mutual

/-- A type that a request writes mentions the variables of its labels. -/
theorem read_below (hvar : ∀ {label v}, var label = some v → v < n) :
    ∀ {form : TypeForm} {t : Ty}, form.read symbol var = some t → Below n t
  | .scalar c, t, h => by
    cases h
    nofun
  | .wrap w form, t, h => by
    obtain ⟨u, hu, rfl⟩ := Option.map_eq_some_iff.1 h
    have hbelow : Below n u := read_below hvar hu
    exact hbelow
  | .aggregate kind name forms, t, h => by
    obtain ⟨id, _, h⟩ := Option.bind_eq_some_iff.1 h
    obtain ⟨ts, hts, h⟩ := Option.bind_eq_some_iff.1 h
    cases h
    exact below_compound.2 (readList_below hvar hts)
  | .tuple forms, t, h => by
    obtain ⟨ts, hts, rfl⟩ := Option.map_eq_some_iff.1 h
    exact below_compound.2 (readList_below hvar hts)
  | .var label, t, h => by
    obtain ⟨v, hv, rfl⟩ := Option.map_eq_some_iff.1 h
    intro w hw
    obtain rfl := List.mem_singleton.1 hw
    exact hvar hv

theorem readList_below (hvar : ∀ {label v}, var label = some v → v < n) :
    ∀ {forms : List TypeForm} {ts : List Ty}, readList symbol var forms = some ts → Below n ts
  | [], ts, h => by
    cases h
    nofun
  | form :: forms, ts, h => by
    obtain ⟨t, ht, h⟩ := Option.bind_eq_some_iff.1 h
    obtain ⟨us, hus, h⟩ := Option.bind_eq_some_iff.1 h
    cases h
    exact below_cons.2 ⟨read_below hvar ht, readList_below hvar hus⟩

end

end TypeForm

namespace Session

variable {s s' : Session}

/-- all types that come up in the session are types of its store -/
structure Confined (s : Session) : Prop where
  state : s.state.Confined s.table
  labels : ∀ entry ∈ s.labels, entry.2 < s.state.store.size

/-- from a confined session to another one, later -/
def Keeps (s s' : Session) : Prop :=
  s'.Confined ∧ s.state.store.Evolves s'.state.store

theorem Keeps.refl (h : s.Confined) : s.Keeps s :=
  ⟨h, .refl _⟩

theorem Confined.var? (h : s.Confined) {label : String} {v : VarId} (hv : s.var? label = some v) :
    v < s.state.store.size := by
  obtain ⟨l₁, l₂, hl, _⟩ := List.lookup_eq_some_iff.1 hv
  exact h.labels (label, v) (by simp [hl])

theorem type_below (h : s.Confined) {number : Nat} {form : TypeForm} {t : Ty} (ht : s.type number form = .ok t) :
    Below s.state.store.size t := by
  unfold type at ht
  cases hread : form.read (s.symbol? number) s.var? with
  | none =>
    rw [hread] at ht
    cases ht
  | some u =>
    rw [hread] at ht
    cases ht
    exact TypeForm.read_below h.var? hread

/-- A change to the table keeps a session confined if no type of another store comes in. -/
theorem Confined.withTable (h : s.Confined) (table : SymbolTable)
    (hsymbols : ∀ {id symbol}, table.symbol? id = some symbol →
      s.table.symbol? id = some symbol ∨ Below s.state.store.size symbol.kind) (scopes : List ScopeId) :
    s.Keeps { s with table, scopes } := by
  refine ⟨⟨⟨h.state.store, fun {id symbol} hid => ?_, h.state.memo⟩, h.labels⟩, .refl _⟩
  rcases hsymbols hid with hold | hnew
  · exact h.state.symbols hold
  · exact hnew

theorem Confined.run {α : Type} [HasVars α] (h : s.Confined) {x y : Infer α}
    (hx : Infer.Confined s.table s.state.store.size x y) {r : Except Error α} {state : State}
    (hrun : x s.state = some (r, state)) : s.Keeps { s with state } := by
  have hend := (hx s.state (Nat.le_refl _) h.state).2 r state hrun
  exact ⟨⟨hend.confined, fun entry hmem => (h.labels entry hmem).trans_le hend.evolves.size_le⟩, hend.evolves⟩

/-- The symbol that a request makes mentions variables of the store. -/
theorem makeSymbol_below (h : s.Confined) {number : Nat} {name : String} {form : SymbolForm} {symbol : Symbol}
    (hmake : s.makeSymbol number name form = .ok symbol) : Below s.state.store.size symbol.kind := by
  obtain ⟨home, _, hmake⟩ := except_bind_eq_ok hmake
  cases form with
  | localVar form =>
    obtain ⟨t, ht, hmake⟩ := except_bind_eq_ok hmake
    cases hmake
    exact type_below h ht
  | typeVar form span =>
    obtain ⟨t, ht, hmake⟩ := except_bind_eq_ok hmake
    cases hmake
    exact type_below h ht
  | global d position =>
    dsimp only at hmake
    split at hmake
    · cases hmake
      nofun
    · cases hmake
  | item i =>
    cases i with
    | vars d => cases hmake
    | _ =>
      cases hmake
      nofun

/-- A session stays confined when symbols are added to it that are primitives. -/
theorem Confined.openPrimitives (h : s.Confined) (scopes : List ScopeId) :
    s.Keeps { s with table := s.table.openPrimitives.2, scopes } := by
  have hdeclares := SymbolTable.openPrimitives_declares s.table
  refine h.withTable _ (fun {id symbol} hid => ?_) scopes
  by_cases hlt : id < s.table.symbols.size
  · rw [hdeclares.old id hlt] at hid
    exact .inl hid
  · obtain ⟨k, rfl⟩ := Nat.exists_eq_add_of_le (Nat.le_of_not_lt hlt)
    have hnew := hdeclares.new k
    rw [show (s.table.openScope []).2.symbols.size + k = s.table.symbols.size + k from rfl, hid] at hnew
    obtain ⟨entry, hentry, rfl⟩ := Option.map_eq_some_iff.1 hnew.symm
    refine .inr ?_
    rcases SymbolTable.kind_of_primitive (List.mem_of_getElem? hentry) with ⟨b, rfl⟩ | ⟨op, rfl⟩
    · nofun
    · nofun

theorem Confined.compare (h : s.Confined) {x y : Ty} (hx : Below s.state.store.size x)
    (hy : Below s.state.store.size y) (how : Comparing) : s.Keeps (s.compare x y how).2 := by
  cases how with
  | unify =>
    rw [Session.compare, Store.unifyInPlace_eq h.state.store.acyclic]
    cases hunify : s.state.store.unify x y with
    | none => exact .refl h
    | some store =>
      have hevolves := Store.Evolves.of_grows (Store.unify_grows h.state.store hx hy hunify)
      exact ⟨⟨h.state.evolve hevolves, fun entry hmem => (h.labels entry hmem).trans_le hevolves.size_le⟩, hevolves⟩
  | equal => exact .refl h
  | identical => exact .refl h

theorem Confined.fresh (h : s.Confined) (label : String) :
    s.Keeps { s with
      state.store := s.state.store.fresh.2
      labels := s.labels.filter (·.1 != label) ++ [(label, s.state.store.size)] } := by
  refine ⟨⟨h.state.evolve (.fresh _), fun entry hmem => ?_⟩, .fresh _⟩
  rw [Store.size_fresh]
  rcases List.mem_append.1 hmem with hold | hnew
  · exact (h.labels entry (List.mem_of_mem_filter hold)).trans (Nat.lt_succ_self _)
  · obtain rfl := List.mem_singleton.1 hnew
    exact Nat.lt_succ_self _

theorem retype_below {n : Nat} {t : Ty} (ht : Below n t) {kind kind' : SymbolKind} (h : retype t kind = some kind') :
    Below n kind' := by
  unfold retype at h
  split at h
  · cases h
    exact ht
  · cases h

/-- A change keeps a session confined, and the store evolves. -/
theorem Changes.keeps (hc : s.Changes s') (h : s.Confined) : s.Keeps s' := by
  have hsettle : Store.AssignsUnbound Store.assign := fun _ _ _ _ => rfl
  cases hc with
  | nothing => exact .refl h
  | inferred hrun =>
    rename_i depth scope e r state
    exact h.run (infer_confined hsettle depth s.table (Env.below_scope scope) e) hrun
  | projected hrun =>
    rename_i depth side scope e shape r state
    exact h.run (project_confined hsettle depth s.table side (Env.below_scope scope) e shape) hrun
  | scopes hsymbols =>
    exact h.withTable _ (fun hid => .inl (by rwa [SymbolTable.symbol?, hsymbols] at hid)) _
  | primitives scopes => exact h.openPrimitives scopes
  | declared hmake hsymbols =>
    refine h.withTable _ (fun {id symbol'} hid => ?_) _
    rw [SymbolTable.symbol?_push hsymbols] at hid
    split at hid
    · cases hid
      exact .inr (makeSymbol_below h hmake)
    · exact .inl hid
  | retyped ht _ hkind =>
    refine h.withTable _ (fun {id' symbol'} hid => ?_) _
    rw [SymbolTable.symbol?_modifyKind] at hid
    obtain ⟨symbol₀, hsymbol₀, rfl⟩ := Option.map_eq_some_iff.1 hid
    split
    · exact .inr (retype_below (type_below h ht) hkind)
    · exact .inl hsymbol₀
  | fresh label => exact h.fresh label
  | compared hx hy how => exact h.compare (type_below h hx) (type_below h hy) how

/-- So do all steps. -/
theorem Leads.keeps (h : s.Leads s') (hs : s.Confined) : s.Keeps s' :=
  h.induction (.refl hs) fun hc hkeeps =>
    have hnext := hc.keeps hkeeps.1
    ⟨hnext.1, hkeeps.2.trans hnext.2⟩

/-- A session begins confined: the symbols of a module mention no type variables. -/
theorem confined_ofModule {items : List Item} {m : Module} (hm : Module.ofItems items = .ok m) :
    (ofModule m).Confined := by
  refine ⟨⟨Store.wellFormed_empty, fun {id symbol} hid => ?_, nofun⟩, nofun⟩
  have hdeclared := (Module.settled hm).declared hid
  obtain ⟨name, home, kind⟩ := symbol
  cases kind with
  | typeVar span t => exact hdeclared.elim
  | localVar t => exact hdeclared.elim
  | _ => nofun

end Session

/-! ## Main result -/

/-- **Bindings last.** In every session that steps lead to, no variable is reachable from its own binding; unifications,
inferences and projections come out the same however bound variables were treated where they would be bound, so that
none is; and later steps only make variables and bind unbound ones, so that bindings, dereferenced types and equalities
stay as they are. -/
theorem bindings_last {items : List Item} {m : Module} (hm : Module.ofItems items = .ok m) {s : Session}
    (hs : (Session.ofModule m).Leads s) :
    (∀ v, ¬Relation.TransGen s.state.store.Refers v v) ∧
    (∀ settle, Store.AssignsUnbound settle →
      (∀ a b, s.state.store.Covers a → s.state.store.Covers b →
        s.state.store.reconcile settle a b = s.state.store.unify a b) ∧
      (∀ depth scope e,
        inferSettling settle depth s.table { scope } e s.state = inferWithin depth s.table { scope } e s.state) ∧
      (∀ depth side scope e shape, projectSettling settle depth s.table side { scope } e shape s.state =
        projectWithin depth s.table side { scope } e shape s.state)) ∧
    ∀ s', s.Leads s' →
      s.state.store.Evolves s'.state.store ∧
      (∀ v t, s.state.store.binding? v = some t → s'.state.store.binding? v = some t) ∧
      (∀ t u, s.state.store.deref? t = some u → s'.state.store.deref? t = some u) ∧
      (∀ a b, s.state.store.Covers a → s.state.store.Covers b → s.state.store.equal a b = true →
        s'.state.store.equal a b = true) := by
  have hconfined := (hs.keeps (Session.confined_ofModule hm)).1
  have hstore := hconfined.state.store
  refine ⟨hstore.acyclic.not_refers_self, fun settle hset => ⟨?_, ?_, ?_⟩, fun s' hs' => ?_⟩
  · exact fun a b ha hb => Store.reconcile_eq_unify hset hstore ha hb
  · intro depth scope e
    exact (infer_confined hset depth s.table (Env.below_scope scope) e s.state (Nat.zero_le _) hconfined.state).1
  · intro depth side scope e shape
    exact (project_confined hset depth s.table side (Env.below_scope scope) e shape s.state (Nat.zero_le _)
      hconfined.state).1
  · obtain ⟨hconfined', hevolves⟩ := hs'.keeps hconfined
    have hstore' := hconfined'.state.store
    have hretains := hevolves.retains
    exact ⟨hevolves, hretains, fun t u => hretains.deref? hstore.acyclic hstore'.acyclic,
      fun a b ha hb => hretains.equal hstore hstore' hevolves.size_le ha hb⟩

/-- two variables, the first made equal to a reference to the second -/
def refSteps : List Step :=
  [{ request := .fresh "a" }, { request := .fresh "b" },
    { request := .compare .unify (.var "a") (.wrap .ref (.var "b")) }]

/-- `wrap(1)` is inferred, then `b` made equal to `Int` -/
def laterSteps : List Step :=
  [{ request := .infer (.call {} (.bare "wrap") [.int {} 1]) },
    { request := .compare .unify (.var "b") (.scalar .int) }]

/-- The reference to `b` stays bound to `a` when `b` is bound, and other variables are made and bound in between. -/
theorem ref_binding_lasts : ∃ s s', (Session.ofModule boxModule).Leads s ∧ s.Leads s' ∧
    s.state.store.binding? 0 = some (.ref (.var 1)) ∧ s.state.store.binding? 1 = none ∧
    s'.state.store.binding? 1 = some .int ∧ s'.state.store.binding? 2 = some .int ∧
    (∀ v, ¬Relation.TransGen s.state.store.Refers v v) ∧ s'.state.store.binding? 0 = some (.ref (.var 1)) := by
  have hs := Session.leads_after 8 (Session.ofModule boxModule) refSteps
  have hs' := Session.leads_after 8 ((Session.ofModule boxModule).after 8 refSteps) laterSteps
  have hbound : ((Session.ofModule boxModule).after 8 refSteps).state.store.binding? 0 = some (.ref (.var 1)) := by
    decide +kernel
  obtain ⟨hacyclic, _, hlast⟩ := bindings_last ofItems_boxProgram hs
  exact ⟨_, _, hs, hs', hbound, by decide +kernel, by decide +kernel, by decide +kernel, hacyclic,
    (hlast _ hs').2.1 0 _ hbound⟩

end DualInference
