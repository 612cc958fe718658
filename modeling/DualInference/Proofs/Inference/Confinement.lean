/-
Keeping to the variables there are.

Of all that inference works with one can say which type variables it mentions, and that they are below a bound
(`Below`), the number of variables of the store. A computation is confined if it has no need for others: started where
all types that the state and the symbols mention are types of the store, it ends in such a state again, with a result of
that store, and meanwhile the store evolves by new variables and proper bindings only (`Infer.Confined`).

Two computations are looked at together, which have to do the same as long as they are confined. They may well differ
otherwise.
-/
import DualInference.Inference.Infer
import DualInference.Proofs.Inference.Results
import DualInference.Proofs.Outcome
import DualInference.Proofs.Store.Evolution

namespace DualInference

/-! ## Variables below a bound -/

/-- what mentions type variables -/
class HasVars (α : Type) where
  vars : α → List VarId

/-- all variables mentioned are below the bound -/
def Below {α : Type} [HasVars α] (n : Nat) (a : α) : Prop :=
  ∀ v ∈ HasVars.vars a, v < n

instance : HasVars Unit := ⟨fun _ => []⟩
instance : HasVars Nat := ⟨fun _ => []⟩
instance : HasVars String := ⟨fun _ => []⟩
instance : HasVars Ty := ⟨Ty.vars⟩
instance : HasVars Denotation := ⟨fun d => d.ty.vars⟩
instance {α : Type} [HasVars α] : HasVars (List α) := ⟨fun l => l.flatMap HasVars.vars⟩
instance {α β : Type} [HasVars α] [HasVars β] : HasVars (α × β) := ⟨fun p => HasVars.vars p.1 ++ HasVars.vars p.2⟩

instance : HasVars LocalName where
  vars
    | .typeVar t => t.vars
    | .param t => t.vars

instance : HasVars Env := ⟨fun env => HasVars.vars env.locals⟩

instance : HasVars SymbolKind where
  vars
    | .typeVar _ t => t.vars
    | .localVar t => t.vars
    | _ => []

instance : HasVars Meaning where
  vars
    | .typeVar t => t.vars
    | .localVar t => t.vars
    | _ => []

section

variable {α β : Type} [HasVars α] [HasVars β] {n m : Nat}

theorem Below.mono {a : α} (h : Below n a) (hnm : n ≤ m) : Below m a :=
  fun v hv => (h v hv).trans_le hnm

theorem below_list {l : List α} : Below n l ↔ ∀ a ∈ l, Below n a := by
  constructor
  · intro h a ha v hv
    exact h v (List.mem_flatMap.2 ⟨a, ha, hv⟩)
  · intro h v hv
    obtain ⟨a, ha, hv⟩ := List.mem_flatMap.1 hv
    exact h a ha v hv

theorem below_nil : Below n ([] : List α) :=
  nofun

theorem below_cons {a : α} {l : List α} : Below n (a :: l) ↔ Below n a ∧ Below n l := by
  simp only [below_list, List.forall_mem_cons]

theorem below_append {l l' : List α} : Below n (l ++ l') ↔ Below n l ∧ Below n l' := by
  simp only [below_list, List.forall_mem_append]

theorem below_pair {a : α} {b : β} : Below n (a, b) ↔ Below n a ∧ Below n b :=
  List.forall_mem_append

theorem below_closed {t : Ty} (h : t.vars = []) : Below n t := by
  intro v hv
  change v ∈ t.vars at hv
  rw [h] at hv
  cases hv

theorem below_compound {f : Former} {ts : List Ty} : Below n (Ty.compound f ts) ↔ Below n ts := by
  have hvars : HasVars.vars (Ty.compound f ts) = HasVars.vars ts := Ty.varsList_eq_flatMap ts
  rw [Below, Below, hvars]

/-- What is found under a name is part of the list. -/
theorem below_lookup {l : List (String × α)} (h : Below n l) {name : String} {a : α} (ha : l.lookup name = some a) :
    Below n a := by
  induction l with
  | nil => cases ha
  | cons p l ih =>
    obtain ⟨key, b⟩ := p
    obtain ⟨hp, hl⟩ := below_cons.1 h
    rw [List.lookup_cons] at ha
    split at ha
    · cases ha
      exact (below_pair.1 hp).2
    · exact ih hl ha

theorem below_getElem? {l : List α} (h : Below n l) {i : Nat} {a : α} (ha : l[i]? = some a) : Below n a :=
  below_list.1 h a (List.mem_of_getElem? ha)

end

/-- An environment without local names mentions nothing. -/
theorem Env.below_scope {n : Nat} (scope : ScopeId) : Below n { scope : Env } :=
  nofun

theorem Frame.below_add {n : Nat} {frame frame' : Frame} {name : Ident} {entry : LocalName} (hframe : Below n frame)
    (hentry : Below n entry) (h : frame.add name entry = .ok frame') : Below n frame' := by
  unfold Frame.add at h
  split at h
  · cases h
  · cases h
    exact below_cons.2 ⟨below_pair.2 ⟨nofun, hentry⟩, hframe⟩

theorem Frame.below_ofTypeVars {n : Nat} {names : List Ident} {types : List Ty} {frame : Frame} (htypes : Below n types)
    (h : Frame.ofTypeVars names types = .ok frame) : Below n frame := by
  refine foldlM_keeps (P := Below n) (fun p hp frame₁ frame₂ hframe hadd => ?_) (fun _ hv => by cases hv) h
  have hentry : Below n (LocalName.typeVar p.2) := below_list.1 htypes p.2 (List.of_mem_zip hp).2
  exact Frame.below_add hframe hentry hadd

/-! ## Confined states and computations -/

/-- all types that the state and the symbols mention are types of a well-formed store -/
structure State.Confined (tab : SymbolTable) (st : State) : Prop where
  store : st.store.WellFormed
  symbols : ∀ {id symbol}, tab.symbol? id = some symbol → Below st.store.size symbol.kind
  memo : ∀ {id key t}, st.memo.state? id key = some (.resolved t) → Below st.store.size t

theorem State.Confined.evolve {tab : SymbolTable} {st : State} (h : st.Confined tab) {s : Store}
    (hs : st.store.Evolves s) : State.Confined tab { st with store := s } where
  store := hs.wellFormed h.store
  symbols hid := (h.symbols hid).mono hs.size_le
  memo hid := (h.memo hid).mono hs.size_le

/-- What a name means mentions variables of the environment, or of a symbol. -/
theorem State.Confined.meaning?_below {tab : SymbolTable} {st : State} (h : st.Confined tab) {env : Env}
    (henv : Below st.store.size env) {name : String} {m : Meaning} (hm : env.meaning? tab name = some m) :
    Below st.store.size m := by
  unfold Env.meaning? at hm
  split at hm
  · rename_i entry hentry
    cases hm
    have hlocal := below_lookup henv hentry
    cases entry with
    | typeVar t => exact hlocal
    | param t => exact hlocal
  · obtain ⟨id, _, hm⟩ := Option.bind_eq_some_iff.1 hm
    obtain ⟨symbol, hsymbol, hm⟩ := Option.bind_eq_some_iff.1 hm
    cases hm
    have hkind := h.symbols hsymbol
    obtain ⟨symName, home, kind⟩ := symbol
    cases kind with
    | typeVar span t => exact hkind
    | localVar t => exact hkind
    | _ => nofun

namespace Infer

variable {tab : SymbolTable} {α β : Type} [HasVars α] [HasVars β] {n m : Nat}

/-- how a confined computation ends: in a confined state, with a later store and a result of that store -/
structure Ends (tab : SymbolTable) (st : State) (r : Except Error α) (st' : State) : Prop where
  evolves : st.store.Evolves st'.store
  confined : st'.Confined tab
  below : ∀ a, r = .ok a → Below st'.store.size a

/-- started in a confined state with at least `n` variables, both computations do the same, and end confined -/
def Confined (tab : SymbolTable) (n : Nat) (x y : Infer α) : Prop :=
  ∀ st, n ≤ st.store.size → st.Confined tab → y st = x st ∧ ∀ r st', x st = some (r, st') → Ends tab st r st'

namespace Confined

theorem mono {x y : Infer α} (h : Confined tab n x y) (hnm : n ≤ m) : Confined tab m x y :=
  fun st hm => h st (hnm.trans hm)

theorem pure {a : α} (h : Below n a) : Confined tab n (pure a) (pure a) := by
  refine fun st hn hst => ⟨rfl, fun r st' hrun => ?_⟩
  cases hrun
  refine ⟨.refl _, hst, fun b hb => ?_⟩
  cases hb
  exact h.mono hn

theorem fail (cause : Cause) (span : Span) : Confined tab n (fail cause span : Infer α) (Infer.fail cause span) := by
  refine fun st _ hst => ⟨rfl, fun r st' hrun => ?_⟩
  cases hrun
  exact ⟨.refl _, hst, nofun⟩

theorem lift {x : Except Error α} (h : ∀ a, x = .ok a → Below n a) : Confined tab n (lift x) (Infer.lift x) := by
  cases x with
  | ok a => exact .pure (h a rfl)
  | error e => exact .fail _ _

/-- The continuation may rely on what the first computation has left behind. -/
theorem bind {x y : Infer α} {f g : α → Infer β} (hxy : Confined tab n x y)
    (hfg : ∀ m, n ≤ m → ∀ a, Below m a → Confined tab m (f a) (g a)) : Confined tab n (x >>= f) (y >>= g) := by
  intro st hn hst
  obtain ⟨heq, hend⟩ := hxy st hn hst
  rw [bind_apply, bind_apply, heq]
  cases hx : x st with
  | none => exact ⟨rfl, nofun⟩
  | some p =>
    obtain ⟨r, st₁⟩ := p
    have h₁ := hend r st₁ hx
    cases r with
    | error e =>
      refine ⟨rfl, fun r' st' hrun => ?_⟩
      cases hrun
      exact ⟨h₁.evolves, h₁.confined, nofun⟩
    | ok a =>
      obtain ⟨heq', hend'⟩ := hfg _ (hn.trans h₁.evolves.size_le) a (h₁.below a rfl) st₁ (Nat.le_refl _) h₁.confined
      refine ⟨heq', fun r' st' hrun => ?_⟩
      have h₂ := hend' r' st' hrun
      exact ⟨h₁.evolves.trans h₂.evolves, h₂.confined, h₂.below⟩

/-- A computation that goes on with the store it finds. -/
theorem store {f g : Store → Infer β}
    (hfg : ∀ s : Store, n ≤ s.size → s.WellFormed → Confined tab s.size (f s) (g s)) :
    Confined tab n (Infer.store >>= f) (Infer.store >>= g) :=
  fun st hn hst => hfg st.store hn hst.store st (Nat.le_refl _) hst

/-- A computation that goes on after the store has evolved. -/
theorem evolve {x y : Infer α}
    (h : ∀ st, n ≤ st.store.size → st.store.WellFormed → ∃ s x' y', st.store.Evolves s ∧
      x st = x' { st with store := s } ∧ y st = y' { st with store := s } ∧ Confined tab s.size x' y') :
    Confined tab n x y := by
  intro st hn hst
  obtain ⟨s, x', y', hs, hx, hy, hconf⟩ := h st hn hst.store
  obtain ⟨heq, hend⟩ := hconf { st with store := s } (Nat.le_refl _) (hst.evolve hs)
  rw [hx, hy]
  refine ⟨heq, fun r st' hrun => ?_⟩
  have h₁ := hend r st' hrun
  exact ⟨hs.trans h₁.evolves, h₁.confined, h₁.below⟩

/-- An answer that is recorded mentions variables of the store, and so does one that is found and recorded. -/
theorem memoized {x y : Infer Ty} (h : Confined tab n x y) (id : SymbolId) (key : Key) (span : Span) :
    Confined tab n (memoized start id key span x) (Infer.memoized start id key span y) := by
  intro st hn hst
  cases hp : st.memo.state? id key with
  | some p =>
    unfold Infer.memoized
    rw [hp]
    cases p with
    | resolved t => exact Confined.pure (n := st.store.size) (hst.memo hp) st (Nat.le_refl _) hst
    | inProgress => exact Confined.fail (n := n) _ span st hn hst
  | none =>
    have hstart : State.Confined tab { st with memo := st.memo.modify id (·.start key) } :=
      ⟨hst.store, hst.symbols, fun ht => hst.memo (Memo.resolved_start ht)⟩
    obtain ⟨heq, hend⟩ := h { st with memo := st.memo.modify id (·.start key) } hn hstart
    rw [memoized_none hp, memoized_none hp, heq]
    refine ⟨rfl, fun r st' hrun => ?_⟩
    obtain ⟨⟨r₁, st₁⟩, hx, hfinish⟩ := Option.map_eq_some_iff.1 hrun
    obtain ⟨rfl, rfl⟩ := Prod.mk.inj hfinish
    have h₁ := hend r₁ st₁ hx
    refine ⟨h₁.evolves, ⟨h₁.confined.store, h₁.confined.symbols, fun {id' key' t} ht => ?_⟩, h₁.below⟩
    rcases Memo.resolved_finish ht with hr | ht
    · exact h₁.below t hr
    · exact h₁.confined.memo ht

/-! ### Steps without a context -/

theorem freshVars (names : List Ident) : Confined tab n (freshVars names) (Infer.freshVars names) := by
  induction names generalizing n with
  | nil => exact .pure nofun
  | cons name names ih =>
    refine .evolve fun st _ _ => ⟨st.store.fresh.2, _, _, .fresh _, rfl, rfl, ih.bind fun m hm ts hts => ?_⟩
    refine .pure (below_cons.2 ⟨fun v hv => ?_, hts⟩)
    obtain rfl := List.mem_singleton.1 hv
    rw [Store.size_fresh] at hm
    exact hm

theorem closed {name name' : Infer String} (t : Ty) (h : Confined tab n name name') (span : Span) :
    Confined tab n (closed t name span) (Infer.closed t name' span) := by
  refine .store fun s hn hs => ?_
  cases hd : s.deref? t with
  | some u => exact .pure (below_closed (Store.vars_deref? hd))
  | none => exact (h.mono hn).bind fun _ _ _ _ => .fail _ _

theorem solution (span : Span) (names : List Ident) (ts : List Ty) :
    Confined tab n (solution span names ts) (Infer.solution span names ts) := by
  induction names generalizing n ts with
  | nil => exact .pure nofun
  | cons name names ih =>
    cases ts with
    | nil => exact .pure nofun
    | cons t ts =>
      refine (closed t (.pure nofun) span).bind fun m _ u hu => ?_
      exact (ih ts).bind fun k hk us hus => .pure (below_cons.2 ⟨hu.mono hk, hus⟩)

theorem arity (what : String) (expected found : Nat) (span : Span) :
    Confined tab n (DualInference.arity what expected found span) (DualInference.arity what expected found span) := by
  unfold DualInference.arity
  split
  · exact .pure nofun
  · exact .fail _ _

theorem natLiteral (e : Expr) : Confined tab n (DualInference.natLiteral e) (DualInference.natLiteral e) := by
  unfold DualInference.natLiteral
  split
  · exact .pure nofun
  · exact .fail _ _

theorem part {parts : List Ty} (h : Below n parts) (position : Nat) (span : Span) :
    Confined tab n (DualInference.part parts position span) (DualInference.part parts position span) := by
  unfold DualInference.part
  split
  · rename_i t ht
    exact .pure (below_getElem? h ht)
  · exact .fail _ _

theorem instantiate (origin : Origin) (kind : AggregateKind) (d : Aggregate) {params : List Ty} (h : Below n params)
    (span : Span) : Confined tab n (DualInference.instantiate origin kind d params span)
      (DualInference.instantiate origin kind d params span) :=
  (arity _ _ _ _).bind fun _ hm _ _ => .pure (below_compound.2 (h.mono hm))

theorem accepted (formal : Formal) (actual : Denotation) (span : Span) :
    Confined tab n (formal.accept actual span) (formal.accept actual span) := by
  unfold Formal.accept
  split
  · exact .fail _ _
  · exact .fail _ _
  · exact .pure nofun
  · exact .pure nofun

theorem unconditional (conditions : List Expr) :
    Confined tab n (Context.unconditional conditions) (Context.unconditional conditions) := by
  cases conditions with
  | nil => exact .pure nofun
  | cons condition conditions => exact .fail _ _

end Confined

end Infer

end DualInference
