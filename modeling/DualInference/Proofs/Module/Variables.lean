/-
Global variables are transparent.

The type of a variable is found by way of its definition. The initializer is inferred with the key of the definition in
progress, and what it comes to is kept; a name of several stands for its part of it. Where the initializer is inferred
for its own sake, no key is in progress, and to the outside this makes no difference. The key of a definition is empty,
so its cache has no other entry (`State.OneKeyed`).

Main result: `global_variables_are_transparent`.
-/
import DualInference.Proofs.Inference.Records
import DualInference.Proofs.Module.Construction
import DualInference.Proofs.Module.Contents
import DualInference.Proofs.Module.Order
import DualInference.Proofs.Module.Transparency

namespace DualInference

open Infer Context

/-! ## One key for each definition -/

/-- the cache has no entry but for the key -/
def Cache.AtMost (c : Cache) (key : Key) : Prop :=
  c.entries = [] ∨ ∃ p, c.entries = [(Key.sized key, p)]

namespace Cache.AtMost

variable {c : Cache} {key : Key}

theorem erase_eq (h : c.AtMost key) : c.erase key = {} := by
  obtain ⟨entries⟩ := c
  rcases h with h | ⟨p, h⟩
  · cases h
    rfl
  · cases h
    simp [Cache.erase]

theorem erase (h : c.AtMost key) : (c.erase key).AtMost key :=
  .inl (by rw [h.erase_eq])

theorem insert (h : c.AtMost key) (p : Progress) : (c.insert key p).AtMost key :=
  .inr ⟨p, by rw [Cache.insert, h.erase_eq]⟩

end Cache.AtMost

/-- the caches of variable definitions have no entry but for the empty key -/
def State.OneKeyed (tab : SymbolTable) (st : State) : Prop :=
  ∀ ⦃id name home d group position⦄, tab.symbol? id = some ⟨name, home, .global d group position⟩ →
    (st.memo.cache group).AtMost []

/-- To begin or to end a search that arises keeps it so. -/
theorem State.OneKeyed.modify {tab : SymbolTable} (hgrouped : tab.Grouped) {st : State} (h : st.OneKeyed tab) {q : Demand}
    {key : Key} (hq : q.Arises tab key) {f : Cache → Cache} (hf : ∀ c : Cache, c.AtMost key → (f c).AtMost key) :
    State.OneKeyed tab { st with memo := st.memo.modify q.id f } := by
  intro id name home d group position hid
  dsimp only
  rw [Memo.cache_modify]
  split
  · rename_i heq
    subst heq
    cases q with
    | call origin d' args span =>
      -- the symbol of a procedure is not that of a variable
      obtain ⟨_, _, _, _, hgroup⟩ := hgrouped hid
      rw [show (Demand.call origin d' args span).id = origin.id from rfl, hq.1] at hgroup
      cases hgroup
    | initializer home' d' group' span =>
      obtain rfl := hq.2
      exact hf _ (h hid)
  · exact h hid

/-- Whatever inferences do, the cache of a definition has no entry but for the empty key. -/
theorem Infer.robust_oneKeyed {tab : SymbolTable} (hgrouped : tab.Grouped) :
    Robust tab fun st st' => st.OneKeyed tab → st'.OneKeyed tab where
  trans h h' hst := h' (h hst)
  steady hmemo _ hst := fun _ _ _ _ _ _ hid => hmemo ▸ hst hid
  answer := by
    intro depth q key hq hcompute st r st' hrun hst
    rcases memoized_cases hrun with ⟨_, _, _, rfl⟩ | ⟨_, _, rfl⟩ | ⟨_, st₁, hfound, rfl⟩
    · exact hst
    · exact hst
    have hst₁ := hcompute _ _ _ hfound (hst.modify hgrouped hq fun _ hc => hc.insert _)
    cases r with
    | ok t => exact hst₁.modify hgrouped hq fun _ hc => hc.insert _
    | error e => exact hst₁.modify hgrouped hq fun _ hc => hc.erase

theorem Module.Reached.oneKeyed {items : List Item} {m : Module} (hm : Module.ofItems items = .ok m) {st : State}
    (h : m.Reached st) : st.OneKeyed m.table := by
  have hgrouped : m.table.Grouped := fun hid => by
    obtain ⟨name, position, hgroup⟩ := (Module.settled hm).group hid
    exact ⟨name, _, _, position, hgroup⟩
  induction h with
  | fresh => exact fun _ _ _ _ _ _ _ => .inl rfl
  | @infer st st' _ depth e r hrun ih =>
    exact (robust_oneKeyed hgrouped).infer depth m.env e st r st' hrun ih
  | @project st st' _ depth side e shape r hrun ih =>
    exact (robust_oneKeyed hgrouped).built (.project side m.env e shape) st r st' hrun ih

/-! ## Names of variables -/

namespace Module

/-- to infer the expression as a value in the scope of the module comes to the outcome -/
def Comes (m : Module) (st : State) (e : Expr) (r : Except Error Ty) : Prop :=
  ∃ depth st', projectWithin depth m.table .value m.env e none st = some (r, st')

theorem comes_iff {m : Module} {st : State} {e : Expr} {r : Except Error Ty} :
    m.Comes st e r ↔ ∃ st', (fully kept m.table).value m.env e st = some (r, st') := by
  have hproject : ∀ cx : Context, cx.project .value m.env e none = cx.value m.env e := fun cx => bind_pure _
  have hreached : ∀ {r : Except Error Ty × State}, (fully kept m.table).value m.env e st = some r ↔
      ∃ n, (within kept n m.table).value m.env e st = some r :=
    (Built.reached continuous_memoized m.table (Built.value m.env e)).reached
  constructor
  · rintro ⟨depth, st', h⟩
    rw [projectWithin, hproject, ← within_kept] at h
    exact ⟨st', hreached.2 ⟨depth, h⟩⟩
  · rintro ⟨st', h⟩
    obtain ⟨depth, hdepth⟩ := hreached.1 h
    rw [within_kept, ← hproject] at hdepth
    exact ⟨depth, st', hdepth⟩

/-- An expression comes to one outcome at most. -/
theorem comes_iff_eq {m : Module} {st st' : State} {e : Expr} {r : Except Error Ty}
    (h : (fully kept m.table).value m.env e st = some (r, st')) (r' : Except Error Ty) : m.Comes st e r' ↔ r' = r := by
  rw [comes_iff, h]
  simp [eq_comm]

end Module

section

variable {tab : SymbolTable} {env : Env} {st st₁ : State} {origin : Origin} {d : Variables} {group : SymbolId}
  {position : Nat}

theorem value_name {ident : Ident} (h : env.meaning? tab ident.name = some (.global origin d group position))
    (span : Span) : (fully kept tab).value env (.name span ident) st =
      (fully kept tab).globalType origin d group position ident.span st := by
  have hmeaning : (fully kept tab).meaning env ident st = some (.ok (.global origin d group position), st) :=
    meaning_eq_ok.2 ⟨h, rfl⟩
  rw [value, bind_apply, fully_infer, rule, name, bind_of_ok hmeaning]
  dsimp only
  rw [bind_apply]
  cases (fully kept tab).globalType origin d group position ident.span st with
  | none => rfl
  | some p =>
    obtain ⟨r, st'⟩ := p
    cases r <;> rfl

/-- how a name without annotation goes on from the type of the initializer -/
def Context.partOf (cx : Context) (d : Variables) (position : Nat) (t : Ty) : Infer Ty :=
  if d.names.length = 1 then return t
  else do
    let parts ← cx.view Ty.parts? t d.init.span
    arity "tuple element(s)" d.names.length parts.length d.init.span
    part parts position d.init.span

theorem globalType_unannotated (halive : tab.alive origin.home = true)
    (hnone : d.names[position]?.bind (·.type) = none) (span : Span) :
    (fully kept tab).globalType origin d group position span st =
      ((fully kept tab).answer (.initializer origin.home d group span) [] >>=
        (fully kept tab).partOf d position) st := by
  rw [globalType, bind_of_ok (home_eq_ok.2 ⟨⟨halive, rfl⟩, rfl⟩), hnone]
  rfl

/-! ### Parts of a tuple -/

theorem view_tuple {cx : Context} (ts : List Ty) (span : Span) :
    cx.view Ty.parts? (.tuple ts) span st = some (.ok ts, st) :=
  view_of_some (by rw [Store.prune_compound]; rfl)

theorem value_element {e : Expr} {ts : List Ty} {u : Ty} (he : (fully kept tab).value env e st = some (.ok (.tuple ts), st₁))
    (hu : ts[position]? = some u) (span : Span) :
    (fully kept tab).value env (.element span e position) st = some (.ok u, st₁) := by
  have hpart : part ts position span st₁ = some (.ok u, st₁) := by
    rw [part, hu]
    rfl
  have hinfer : (fully kept tab).infer env (.element span e position) st = some (.ok (.value u), st₁) := by
    rw [fully_infer, rule, bind_of_ok he, bind_of_ok (view_tuple ts e.span), bind_of_ok hpart]
    rfl
  exact value_eq_ok.2 hinfer

section

variable {cx : Context} (hseveral : d.names.length ≠ 1)

include hseveral

theorem partOf_tuple {ts : List Ty} (hlen : ts.length = d.names.length) {u : Ty} (hu : ts[position]? = some u) :
    cx.partOf d position (.tuple ts) st = some (.ok u, st) := by
  rw [partOf, if_neg hseveral, bind_of_ok (view_tuple ts d.init.span), bind_of_ok (arity_eq_ok.2 ⟨hlen, rfl⟩), part, hu]
  rfl

theorem partOf_arity {ts : List Ty} (hlen : ts.length ≠ d.names.length) :
    cx.partOf d position (.tuple ts) st =
      some (.error ⟨.arity "tuple element(s)" d.names.length ts.length, d.init.span⟩, st) := by
  rw [partOf, if_neg hseveral, bind_of_ok (view_tuple ts d.init.span), bind_apply, arity, if_neg hlen]
  rfl

theorem partOf_invalid {t : Ty} (hs : st.store.Acyclic) (hclosed : t.vars = []) (ht : ∀ ts, t ≠ .tuple ts) :
    cx.partOf d position t st = some (.error ⟨.invalidType (t.render cx.table.nameOf), d.init.span⟩, st) := by
  have hparts : Ty.parts? (st.store.prune t) = none := by
    rw [Store.prune_closed _ hclosed]
    cases hp : t.parts? with
    | none => rfl
    | some ts => exact absurd (Ty.parts?_eq_some hp) (ht ts)
  rw [partOf, if_neg hseveral, bind_apply, view_of_none hparts, Store.display, Store.resolve_closed hs hclosed]

end

end

/-! ## Definitions -/

section

variable {items : List Item} {m : Module} (hm : Module.ofItems items = .ok m) {d : Variables} {position : Nat}
  {v : Variable} (hv : d.names[position]? = some v)

include hm hv

/-- The names of a definition stand for its parts. -/
theorem Module.variable_means (hd : .vars d ∈ items) :
    ∃ group, m.Means v.name.name ⟨v.name.name, m.scope, .global d group position⟩ := by
  obtain ⟨hitems, hbound, hscope⟩ := Module.bound_of_ofItems hm
  obtain ⟨index, hindex⟩ := List.getElem?_of_mem hd
  have hat : DeclaredAt items index position (.vars d) v.name := by
    refine ⟨hindex, ?_⟩
    rw [Item.binds, List.getElem?_map, hv]
    rfl
  exact ⟨_, (hbound.holds hitems hscope).declared hat⟩

/-- What a name without annotation comes to is found by way of the definition, and then as its part. -/
theorem Module.value_variable (hd : .vars d ∈ items) (htype : v.type = none) {ident : Ident}
    (hident : ident.name = v.name.name) :
    ∃ q : Demand, q.Proper m.table [] ∧ q.Placeless m.table [] ∧
      (∀ cx, q.compute cx [] = cx.value m.env d.init) ∧
      ∀ span st, (fully kept m.table).value m.env (.name span ident) st =
        ((fully kept m.table).answer q [] >>= (fully kept m.table).partOf d position) st := by
  obtain ⟨group, id, hlookup, hsymbol⟩ := Module.variable_means hm hv hd
  obtain ⟨name, position', hgroup⟩ := (Module.settled hm).group hsymbol
  have hmeaning : m.env.meaning? m.table ident.name =
      some (.global ⟨id, v.name.name, m.scope⟩ d group position) := by
    rw [hident]
    show (m.table.lookup m.scope v.name.name).bind _ = _
    rw [hlookup]
    show (m.table.symbol? id).bind _ = _
    rw [hsymbol]
    rfl
  refine ⟨.initializer m.scope d group ident.span, ⟨⟨name, position', hgroup⟩, rfl⟩,
    Demand.placeless_initializer hgroup _, fun _ => rfl, fun span st => ?_⟩
  rw [value_name hmeaning]
  exact globalType_unannotated (Module.alive_scope hm) (by rw [hv]; exact htype) ident.span

variable (hd : .vars d ∈ items) (htype : v.type = none) {ident : Ident} (hident : ident.name = v.name.name) {st : State}
  (hst : m.Reached st)

include hd htype hident hst

/-- The only name of a definition comes to what the initializer comes to. -/
theorem Module.single_variable (hone : d.names.length = 1) (span : Span) :
    Together ((fully kept m.table).value m.env (.name span ident)) ((fully kept m.table).value m.env d.init) st := by
  obtain ⟨q, hq, hplaceless, hcompute, hvalue⟩ := Module.value_variable hm hv hd htype hident
  have htogether := answer_transparent (Module.settled hm) (Key.closed_nil m.table) hq (hst.atRest hm) hplaceless
  have hpart : (fully kept m.table).partOf d position = pure := by
    funext t
    rw [partOf, if_pos hone]
  rw [hcompute] at htogether
  rw [hpart, bind_pure] at hvalue
  constructor
  · intro t
    rw [hvalue]
    exact htogether.ok t
  · intro kind
    rw [hvalue]
    exact htogether.error kind

/-- A name goes on from what the initializer comes to, which has no variables. -/
theorem Module.variable_part {t : Ty} (hinit : m.Comes st d.init (.ok t)) :
    t.vars = [] ∧ ∃ st₁, st₁.store.Acyclic ∧ ∀ span, (fully kept m.table).value m.env (.name span ident) st =
      (fully kept m.table).partOf d position t st₁ := by
  have hset := Module.settled hm
  have hrest := hst.atRest hm
  have hnil := Key.closed_nil m.table
  obtain ⟨q, hq, hplaceless, hcompute, hvalue⟩ := Module.value_variable hm hv hd htype hident
  obtain ⟨st₂, hrun⟩ := Module.comes_iff.1 hinit
  rw [← hcompute] at hrun
  have hanswer := Demand.answer_of_compute hset hnil hq hrest.store hrest.sane hrun
  obtain ⟨st₁, hfound⟩ := ((answer_transparent hset hnil hq hrest hplaceless).ok t).2 ⟨st₂, hrun⟩
  obtain ⟨-, -, hs₁, -⟩ := hrest.sane.answer hset hrest.store hnil hq hanswer hfound
  refine ⟨(hanswer.run hset hnil hq rfl hrest.store).1.vars_eq_nil, st₁, hs₁.acyclic, fun span => ?_⟩
  rw [hvalue, bind_of_ok hfound]

end

/-! ## Main result -/

/-- **Global variables are transparent.** Let `v` be the name at a position of a variable definition of the program, and
let anything have been inferred in the scope of the module before. If `v` has no annotation,
- and is the only name, it comes to the same types as the initializer, or to errors of the same kinds;
- and is one of several, and the initializer comes to a tuple of as many types, it comes to its part of the tuple, and so
  does the tuple access at its position; if there are not as many types, or the type is no tuple, that is an error at the
  initializer.
Whatever was inferred, the cache of the definition has no entry but for the empty key. -/
theorem global_variables_are_transparent {items : List Item} {m : Module} (hm : Module.ofItems items = .ok m)
    {d : Variables} (hd : .vars d ∈ items) {position : Nat} {v : Variable} (hv : d.names[position]? = some v)
    {st : State} (hst : m.Reached st) :
    (v.type = none → ∀ span ident, ident.name = v.name.name →
      (d.names.length = 1 →
        (∀ t, m.Comes st (.name span ident) (.ok t) ↔ m.Comes st d.init (.ok t)) ∧
        ∀ kind, (∃ e, m.Comes st (.name span ident) (.error e) ∧ e.kind = kind) ↔
          ∃ e, m.Comes st d.init (.error e) ∧ e.kind = kind) ∧
      (2 ≤ d.names.length → ∀ t, m.Comes st d.init (.ok t) →
        (∀ ts, t = .tuple ts → ts.length = d.names.length → ∃ u, ts[position]? = some u ∧
          (∀ r, m.Comes st (.name span ident) r ↔ r = .ok u) ∧
          ∀ place r, m.Comes st (.element place d.init position) r ↔ r = .ok u) ∧
        (∀ ts, t = .tuple ts → ts.length ≠ d.names.length → ∀ r, m.Comes st (.name span ident) r ↔
          r = .error ⟨.arity "tuple element(s)" d.names.length ts.length, d.init.span⟩) ∧
        ((∀ ts, t ≠ .tuple ts) → ∀ r, m.Comes st (.name span ident) r ↔
          r = .error ⟨.invalidType (t.render m.table.nameOf), d.init.span⟩))) ∧
    ∃ group, m.Means v.name.name ⟨v.name.name, m.scope, .global d group position⟩ ∧
      (st.memo.cache group).AtMost [] := by
  refine ⟨fun htype span ident hident => ⟨fun hone => ?_, fun htwo t hinit => ?_⟩, ?_⟩
  · have htogether := Module.single_variable hm hv hd htype hident hst hone span
    refine ⟨fun t => ?_, fun kind => ?_⟩
    · rw [Module.comes_iff, Module.comes_iff]
      exact htogether.ok t
    · simpa only [Module.comes_iff, exists_and_right] using htogether.error kind
  · have hseveral : d.names.length ≠ 1 := by omega
    obtain ⟨hclosed, st₁, hs₁, hname⟩ := Module.variable_part hm hv hd htype hident hst hinit
    refine ⟨?_, ?_, fun ht => ?_⟩
    · rintro ts rfl hlen
      have hlt : position < ts.length := hlen ▸ (List.getElem?_eq_some_iff.1 hv).1
      have hu : ts[position]? = some ts[position] := List.getElem?_eq_getElem hlt
      obtain ⟨st₂, hrun⟩ := Module.comes_iff.1 hinit
      refine ⟨ts[position], hu, Module.comes_iff_eq ((hname span).trans (partOf_tuple hseveral hlen hu)), fun place => ?_⟩
      exact Module.comes_iff_eq (value_element hrun hu place)
    · rintro ts rfl hlen
      exact Module.comes_iff_eq ((hname span).trans (partOf_arity hseveral hlen))
    · exact Module.comes_iff_eq ((hname span).trans (partOf_invalid hseveral hs₁ hclosed ht))
  · obtain ⟨group, id, hlookup, hsymbol⟩ := Module.variable_means hm hv hd
    exact ⟨group, ⟨id, hlookup, hsymbol⟩, hst.oneKeyed hm hsymbol⟩

/-- the only name of a definition without annotation -/
def singleVariable (name : String) (init : Expr) : Variables :=
  ⟨[⟨{ name }, none⟩], init⟩

/-- two names without annotation for a number and a truth value -/
def mixedPair : Variables :=
  ⟨[⟨{ name := "a" }, none⟩, ⟨{ name := "b" }, none⟩], .tuple {} [.int {} 1, .bool {} true]⟩

/-- `x = y`, `y = x`, and `a, b = (1, true)` -/
def ringProgram : List Item :=
  [.vars (singleVariable "x" (.bare "y")), .vars (singleVariable "y" (.bare "x")), .vars mixedPair]

def ringModule : Module :=
  match Module.ofItems ringProgram with
  | .ok m => m
  | .error _ => .empty

theorem ofItems_ringProgram : Module.ofItems ringProgram = .ok ringModule := by
  have hok : (Module.ofItems ringProgram).isOk = true := by decide +kernel
  obtain ⟨m, hm⟩ := Module.ofItems_of_isOk hok
  unfold ringModule
  rw [hm]

/-- what the inference of `a` leaves behind -/
def ringState : State :=
  match inferWithin 8 ringModule.table ringModule.env (.bare "a") {} with
  | some (_, st) => st
  | none => {}

theorem infer_a : inferWithin 8 ringModule.table ringModule.env (.bare "a") {} =
    some (.ok (.value .int), ringState) := by
  decide +kernel

theorem Module.comes_of_run {m : Module} {st : State} {e : Expr} {r : Except Error Ty} (depth : Nat)
    (h : (projectWithin depth m.table .value m.env e none st).map (·.1) = some r) : m.Comes st e r := by
  obtain ⟨⟨_, st'⟩, hrun, rfl⟩ := Option.map_eq_some_iff.1 h
  exact ⟨depth, st', hrun⟩

/-- After `a`, `x` is cut off as `y` is, and `b` comes to its part of the pair that is on record by then. -/
theorem ring_is_transparent : ringModule.Reached ringState ∧
    (∃ e, ringModule.Comes ringState (.bare "x") (.error e) ∧ e.kind = .recursiveInference) ∧
    (∃ e, ringModule.Comes ringState (.bare "y") (.error e) ∧ e.kind = .recursiveInference) ∧
    (∀ r, ringModule.Comes ringState (.bare "b") r ↔ r = .ok .bool) ∧
    (∀ r, ringModule.Comes ringState (.element {} mixedPair.init 1) r ↔ r = .ok .bool) ∧
    ∃ group, ringModule.Means "b" ⟨"b", ringModule.scope, .global mixedPair group 1⟩ ∧
      (ringState.memo.cache group).AtMost [] := by
  have hreached : ringModule.Reached ringState := .infer .fresh infer_a
  have hy : ∃ e, ringModule.Comes ringState (.bare "y") (.error e) ∧ e.kind = .recursiveInference :=
    ⟨⟨.recursiveInference, {}⟩, Module.comes_of_run 9 (by decide +kernel), rfl⟩
  have hpair : ringModule.Comes ringState mixedPair.init (.ok (.tuple [.int, .bool])) :=
    Module.comes_of_run 9 (by decide +kernel)
  obtain ⟨hx, -⟩ := global_variables_are_transparent ofItems_ringProgram (List.mem_cons_self ..)
    (show (singleVariable "x" (.bare "y")).names[0]? = some ⟨{ name := "x" }, none⟩ from rfl) hreached
  obtain ⟨hb, hcache⟩ := global_variables_are_transparent ofItems_ringProgram
    (show Item.vars mixedPair ∈ ringProgram from .tail _ (.tail _ (.head _)))
    (show mixedPair.names[1]? = some ⟨{ name := "b" }, none⟩ from rfl) hreached
  obtain ⟨-, hkinds⟩ := (hx rfl {} { name := "x" } rfl).1 rfl
  obtain ⟨hparts, -⟩ := (hb rfl {} { name := "b" } rfl).2 (Nat.le_refl 2) _ hpair
  obtain ⟨u, hu, hname, helement⟩ := hparts _ rfl rfl
  cases hu
  exact ⟨hreached, (hkinds _).2 hy, hy, hname, helement {}, hcache⟩

end DualInference
