/-
What is recorded of procedures.

The key of a call is fixed before anything is checked: it may have too many parts, a type where a value is asked for, and
types with variables of the caller that are bound only while the formals are matched, if at all. But it is recorded with
an answer only at the end of a search that succeeded, and the body is looked into only when all checks are passed
(`Context.bodyEnv_fits`): the key fits the procedure in the store at that moment (`Procedure.Fits`). From then on the store
only evolves, and what fits goes on to do so (`Procedure.Fits.lasts`).

So it is with every record, from any state in which it is so already, however the inference goes on, and however it ends
(`Infer.robust_wellRecorded`).
-/
import DualInference.Proofs.Inference.Built
import DualInference.Proofs.Store.Resolved

namespace DualInference

/-! ## Keys that fit -/

/-- the procedure can be called with what the key says, as far as the store knows -/
structure Procedure.Fits (d : Procedure) (s : Store) (key : Key) : Prop where
  conditions : d.conditions = []
  dual : List.Forall₂ (fun formal actual => Formal.isValue formal = Denotation.isValue actual) d.formals key
  known : ∀ t, .value t ∈ key → (s.deref? t).isSome

/-- What a store knows, later stores know too. -/
theorem Procedure.Fits.lasts {d : Procedure} {s s' : Store} {key : Key} (h : d.Fits s key) (hs : s.Acyclic)
    (hlasts : s.Lasts s') : d.Fits s' key := by
  refine ⟨h.conditions, h.dual, fun t ht => ?_⟩
  obtain ⟨u, hu⟩ := Option.isSome_iff_exists.1 (h.known t ht)
  exact Option.isSome_iff_exists.2 ⟨u, (hlasts hs).2.deref? hs (hlasts hs).1 hu⟩

/-- what may be recorded under a symbol: the type that a procedure returns for a key that fits it, or the type of an
initializer -/
inductive Record (tab : SymbolTable) (s : Store) (id : SymbolId) (key : Key) (t : Ty) : Prop
  | call {name : String} {home : ScopeId} {d : Procedure} (hsymbol : tab.symbol? id = some ⟨name, home, .procedure d⟩)
    (hfits : d.Fits s key) (hclosed : t.vars = [])
  | initializer {name : String} {home : ScopeId} {d : Variables} {position : Nat}
    (hsymbol : tab.symbol? id = some ⟨name, home, .global d id position⟩)

theorem Record.lasts {tab : SymbolTable} {s s' : Store} {id : SymbolId} {key : Key} {t : Ty} (h : Record tab s id key t)
    (hs : s.Acyclic) (hlasts : s.Lasts s') : Record tab s' id key t := by
  cases h with
  | call hsymbol hfits hclosed => exact .call hsymbol (hfits.lasts hs hlasts) hclosed
  | initializer hsymbol => exact .initializer hsymbol

/-- all records are of that sort, in an acyclic store -/
structure State.WellRecorded (tab : SymbolTable) (st : State) : Prop where
  acyclic : st.store.Acyclic
  record : ∀ {id key t}, st.memo.state? id key = some (.resolved t) → Record tab st.store id key t

/-- a state with the same memo and a later store -/
theorem State.WellRecorded.later {tab : SymbolTable} {st st' : State} (h : st.WellRecorded tab)
    (hmemo : st'.memo = st.memo) (hlasts : st.store.Lasts st'.store) : st'.WellRecorded tab :=
  ⟨(hlasts h.acyclic).1, fun ht => (h.record (hmemo ▸ ht)).lasts h.acyclic hlasts⟩

/-! ## Searches that succeed -/

namespace Context

open Infer

variable {cx : Context} {st st' : State}

/-- Formals are unified with arguments that stand on their side. -/
theorem dual_of_unifyFormals {env : Env} {formals : List Formal} {key : Key} {args : List Expr}
    (hlen : key.length = formals.length) (hargs : args.length = key.length)
    (h : cx.unifyFormals env formals key args st = some (.ok (), st')) :
    List.Forall₂ (fun formal actual => Formal.isValue formal = Denotation.isValue actual) formals key := by
  induction formals generalizing key args st with
  | nil =>
    obtain rfl := List.length_eq_zero_iff.1 hlen
    exact .nil
  | cons formal formals ih =>
    cases key with
    | nil => cases hlen
    | cons actual key =>
      cases args with
      | nil => cases hargs
      | cons arg args =>
        obtain ⟨_, _, haccept, h₁⟩ := bind_eq_ok.1 h
        obtain ⟨_, _, _, h₂⟩ := bind_eq_ok.1 h₁
        obtain ⟨_, _, _, hrest⟩ := bind_eq_ok.1 h₂
        exact .cons (accept_eq_ok.1 haccept).1 (ih (Nat.succ.inj hlen) (Nat.succ.inj hargs) hrest)

/-- The types of the values in a key are known where they are given to parameters. -/
theorem known_of_addParams {frame frame' : Frame} {formals : List Formal} {key : Key}
    (hdual : List.Forall₂ (fun formal actual => Formal.isValue formal = Denotation.isValue actual) formals key)
    (h : cx.addParams frame formals key st = some (.ok frame', st')) :
    st' = st ∧ ∀ t, .value t ∈ key → (st.store.deref? t).isSome := by
  induction hdual generalizing frame with
  | nil =>
    cases h
    exact ⟨rfl, nofun⟩
  | @cons formal actual formals key hside _ ih =>
    cases formal with
    | value passing name type =>
      obtain ⟨p, st₁, hclosed, h₁⟩ := bind_eq_ok.1 h
      obtain ⟨hp, rfl⟩ := closed_eq_ok.1 hclosed
      obtain ⟨frame₁, st₂, hadd, h₂⟩ := bind_eq_ok.1 h₁
      obtain ⟨_, rfl⟩ := lift_eq_ok.1 hadd
      obtain ⟨rfl, hknown⟩ := ih h₂
      refine ⟨rfl, fun t ht => ?_⟩
      rcases List.mem_cons.1 ht with rfl | ht
      · exact Option.isSome_iff_exists.2 ⟨p, hp⟩
      · exact hknown t ht
    | type type =>
      obtain ⟨rfl, hknown⟩ := ih h
      refine ⟨rfl, fun t ht => ?_⟩
      rcases List.mem_cons.1 ht with rfl | ht
      · cases hside
      · exact hknown t ht

theorem unconditional_eq_ok {conditions : List Expr} :
    unconditional conditions st = some (.ok (), st') ↔ conditions = [] ∧ st' = st := by
  cases conditions with
  | nil =>
    constructor
    · intro h
      cases h
      exact ⟨rfl, rfl⟩
    · rintro ⟨_, rfl⟩
      rfl
  | cons condition conditions => exact ⟨nofun, fun h => nomatch h.1⟩

/-- Where the body can be looked into, all checks are passed, and the key fits the procedure. -/
theorem bodyEnv_fits {origin : Origin} {d : Procedure} {key : Key} {args : List Expr} {span : Span} {env : Env}
    (hargs : args.length = key.length) (h : cx.bodyEnv origin d key args span st = some (.ok env, st')) :
    d.Fits st'.store key := by
  obtain ⟨_, _, harity, h₁⟩ := bind_eq_ok.1 h
  obtain ⟨hlen, rfl⟩ := arity_eq_ok.1 harity
  obtain ⟨home, _, _, h₂⟩ := bind_eq_ok.1 h₁
  obtain ⟨vars, _, _, h₃⟩ := bind_eq_ok.1 h₂
  obtain ⟨locals, _, _, h₄⟩ := bind_eq_ok.1 h₃
  obtain ⟨_, _, hunify, h₅⟩ := bind_eq_ok.1 h₄
  obtain ⟨_, _, hunconditional, h₆⟩ := bind_eq_ok.1 h₅
  obtain ⟨types, _, _, h₇⟩ := bind_eq_ok.1 h₆
  obtain ⟨solved, _, _, h₈⟩ := bind_eq_ok.1 h₇
  obtain ⟨params, _, hparams, hpure⟩ := bind_eq_ok.1 h₈
  have hdual := dual_of_unifyFormals hlen hargs hunify
  obtain ⟨rfl, hknown⟩ := known_of_addParams hdual hparams
  cases hpure
  exact ⟨(unconditional_eq_ok.1 hunconditional).1, hdual, hknown⟩

end Context

section

variable {tab : SymbolTable} {depth : Nat} {st st' : State}

/-- Inferences, and what is put together of them, keep the bindings of an acyclic store. -/
theorem Built.lasts {α : Type} {x : Unit → Infer α} (hx : Built (.within depth tab) x) {r : Except Error α}
    (h : x () st = some (r, st')) : st.store.Lasts st'.store :=
  (Infer.robust_lasts tab).built hx st r st' h

/-- Where a return type is found, the key fits the procedure, and the type has no variables. -/
theorem returnType_fits {origin : Origin} {d : Procedure} {key : Key} {args : List Expr} {span : Span} {t : Ty}
    (hargs : args.length = key.length) (hs : st.store.Acyclic)
    (h : ((Contexts.within depth tab).at ()).returnType origin d key args span st = some (.ok t, st')) :
    d.Fits st'.store key ∧ t.vars = [] := by
  rw [Context.returnType_eq] at h
  obtain ⟨env, st₁, henv, h₁⟩ := Infer.bind_eq_ok.1 h
  obtain ⟨u, st₂, hresult, hclosed⟩ := Infer.bind_eq_ok.1 h₁
  obtain ⟨ht, rfl⟩ := Infer.closed_eq_ok.1 hclosed
  have hs₁ : st₁.store.Acyclic := (Built.lasts (.bodyEnv origin d key args span) henv hs).1
  -- the parameters are known when the body is looked into, and stay known
  exact ⟨(Context.bodyEnv_fits hargs henv).lasts hs₁ (Built.lasts (.result env d) hresult), Store.vars_deref? ht⟩

end

/-! ## All records -/

/-- the symbol by which the names of a variable definition go is one of them -/
def SymbolTable.Grouped (tab : SymbolTable) : Prop :=
  ∀ {id name home d group position}, tab.symbol? id = some ⟨name, home, .global d group position⟩ →
    ∃ name' home' d' position', tab.symbol? group = some ⟨name', home', .global d' group position'⟩

/-- Whatever inferences do, all records they make are of the right sort. -/
theorem Infer.robust_wellRecorded {tab : SymbolTable} (hgrouped : tab.Grouped) :
    Robust tab fun st st' => st.WellRecorded tab → st'.WellRecorded tab where
  trans h h' hst := h' (h hst)
  steady hmemo hlasts hst := hst.later hmemo hlasts
  answer := by
    intro depth q key hq hcompute st r st' hrun hst
    rcases memoized_cases hrun with ⟨_, _, _, rfl⟩ | ⟨_, _, rfl⟩ | ⟨_, st₁, hfound, rfl⟩
    · exact hst
    · exact hst
    have hstarted : State.WellRecorded tab { st with memo := st.memo.modify q.id (·.start key) } :=
      ⟨hst.acyclic, fun ht => hst.record (Memo.resolved_start ht)⟩
    have hst₁ := hcompute _ _ _ hfound hstarted
    refine ⟨hst₁.acyclic, fun {id key' t} ht => ?_⟩
    dsimp only at ht
    rw [Memo.state?_finish] at ht
    split at ht
    case isFalse => exact hst₁.record ht
    rename_i heq
    obtain ⟨rfl, rfl⟩ := heq
    cases r with
    | error e => cases ht
    | ok u =>
      cases ht
      cases q with
      | call origin d args span =>
        obtain ⟨hfits, hclosed⟩ := returnType_fits hq.2 hstarted.acyclic hfound
        exact .call hq.1 hfits hclosed
      | initializer home d group span =>
        obtain ⟨⟨_, _, _, hsymbol⟩, _⟩ := hq
        obtain ⟨_, _, _, _, hgroup⟩ := hgrouped hsymbol
        exact .initializer hgroup

theorem inferWithin_wellRecorded {tab : SymbolTable} (hgrouped : tab.Grouped) {depth : Nat} {env : Env} {e : Expr}
    {st st' : State} {r : Except Error Denotation} (hst : st.WellRecorded tab)
    (h : inferWithin depth tab env e st = some (r, st')) : st'.WellRecorded tab :=
  (Infer.robust_wellRecorded hgrouped).infer depth env e st r st' h hst

theorem projectWithin_wellRecorded {tab : SymbolTable} (hgrouped : tab.Grouped) {depth : Nat} {side : Side} {env : Env}
    {e : Expr} {shape : Option Shape} {st st' : State} {r : Except Error Ty} (hst : st.WellRecorded tab)
    (h : projectWithin depth tab side env e shape st = some (r, st')) : st'.WellRecorded tab :=
  (Infer.robust_wellRecorded hgrouped).built (.project side env e shape) st r st' h hst

end DualInference
