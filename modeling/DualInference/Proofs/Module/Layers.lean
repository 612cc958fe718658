/-
Aggregates that are built from each other.

A field type is an expression like any other, and it is read anew for each construction, each access to a field and each
call on a value. Nothing is in progress meanwhile. Circles through initializers are cut, since the initializer is in
progress when it is needed again. A circle of field types is not: an aggregate whose field type constructs the aggregate is
constructed for ever (`self_construction_never_ends`).

Without such circles inference comes to an end. There is a graph on the aggregates, from each one to those that are
constructed in its field types. If the graph has no cycle (`Layered`), to read a field type goes on along the graph, and in
between down in an expression; initializers that are named there have one less to look at, as in all programs.

Field types that access fields, or call something that has no name, are left out of this: which aggregate they lead to
depends on more than their form.
-/
import DualInference.Proofs.Module.Demands
import DualInference.Proofs.Module.Order

namespace DualInference

open Infer Context
open DualInference.Module (empty)

/-! ## Calls in field types -/

/-- the name that is called, if a name is called -/
def Expr.called? : Expr → Option String
  | .call _ callee _ => callee.bareName?.map (·.name)
  | _ => none

/-- no field is accessed here, and what is called here has a name -/
def Expr.direct : Expr → Bool
  | .field _ _ _ => false
  | .call _ callee _ => callee.bareName?.isSome
  | _ => true

/-- the names that are called in the field types of an aggregate -/
def Item.constructed : Item → List String
  | .aggregate _ d => (Expr.partsList d.types).filterMap Expr.called?
  | _ => []

/-- a program of aggregates and variables where no aggregate is built from itself -/
structure Layered (items : List Item) : Prop where
  procedures : ∀ d, .procedure d ∉ items
  annotations : ∀ d, .vars d ∈ items → d.types = []
  direct : ∀ kind d, .aggregate kind d ∈ items → ∀ e ∈ Expr.partsList d.types, e.direct = true
  /-- what is called is neither a type variable nor a variable -/
  typeVars : ∀ kind d, .aggregate kind d ∈ items →
    ∀ name ∈ (Item.aggregate kind d).constructed, name ∉ d.typeVars.map (·.name)
  vars : ∀ item ∈ items, ∀ name ∈ item.constructed, ∀ d, .vars d ∈ items → ∀ v ∈ d.names, v.name.name ≠ name
  acyclic : ∀ item, ¬Relation.TransGen (Leads Item.constructed items) item item

/-! ## Calls on names -/

section

variable {cx : Context} {items : List Item} (h : cx.Regular items) {S : Situation} {env : Env}

include h

/-- A call on a name that stands for no aggregate, procedure or variable halts. -/
theorem callType_name_halts {P : Denotation → Prop} {span span' : Span} {ident : Ident} {args : List Expr}
    (hm : ∀ m, env.meaning? cx.table ident.name = some m → m = .unusable ∨ ∃ b, m = .builtin b) :
    Halts S P (cx.callType span env (.name span' ident) args) := by
  -- there is no type to call, or only a scalar one
  have hname : Halts S (fun d => ∃ c, d.ty = .scalar c) (cx.infer env (.name span' ident)) := by
    rw [h.rule]
    refine (meaning_halts ident).bind fun m hmeaning => ?_
    rcases hm m hmeaning with rfl | ⟨b, rfl⟩
    · exact .fail (by nofun) ident.span
    · cases b with
      | scalar c => exact .pure ⟨c, rfl⟩
      | _ => exact .fail (by nofun) ident.span
  refine hname.bind fun d hd => .store fun s => ?_
  obtain ⟨c, hc⟩ := hd
  have hfields : Halts S (fun _ => False) (cx.fieldTypes (.scalar c) span') := by
    refine Halts.bind (P := fun _ => False) (.store fun s => ?_) fun _ => False.elim
    rw [Store.prune_closed s rfl]
    exact invalidType_halts _ span'
  rw [hc, Store.prune_closed s rfl]
  exact hfields.bind fun _ => False.elim

end

/-! ## Field types -/

section

variable {items : List Item} {tab : SymbolTable} (hbound : Bound items tab) (hitems : WellOrdered items)
  (hset : tab.Settled items) (hlayered : Layered items) {S : Situation} {home : ScopeId}

include hbound hitems hset hlayered

omit hset hlayered in
/-- A name that is not hidden stands for a primitive or for what an item declares under it. -/
theorem meaning?_unhidden (hhome : home = empty.scope) {locals : Frame} {name : String} (hlocal : locals.lookup name = none)
    {m : Meaning} (hm : Env.meaning? tab ⟨locals, home⟩ name = some m) :
    (∃ b, m = .builtin b) ∨ (∃ op, m = .primitive op) ∨
      ∃ item ∈ items, ∃ ident ∈ item.binds, ident.name = name ∧ ∃ id group p,
        m = Symbol.meaning id ⟨name, home, item.kindAt items group p⟩ := by
  rcases Env.meaning?_cases hm with ⟨entry, hentry, _⟩ | ⟨id, symbol, hid, hsymbol, rfl⟩
  · cases hlocal.symm.trans hentry
  · dsimp only at hid
    rw [hhome] at hid
    rcases hbound.declaredAt_of_lookup hitems hid hsymbol with
      (⟨b, hb⟩ | ⟨op, hop⟩) | ⟨i, p, item, ident, hat, hname, -, hdeclared⟩
    · exact .inl ⟨b, by rw [Symbol.meaning, hb]⟩
    · exact .inr (.inl ⟨op, by rw [Symbol.meaning, hop]⟩)
    · rw [← hhome, hname] at hdeclared
      rw [hdeclared]
      exact .inr (.inr ⟨item, List.mem_of_getElem? hat.stands, ident, List.mem_of_getElem? hat.binds, hname, id, _, p, rfl⟩)

/-- A call in a field type halts if the field types of what it constructs do. -/
theorem Layered.call_halts (hhome : home = empty.scope) {kind : AggregateKind} {d : Aggregate}
    (hd : .aggregate kind d ∈ items) {locals : Frame} (hlocals : (SymbolKind.aggregate kind d).Fronts locals)
    {ident : Ident} (hname : ident.name ∈ (Item.aggregate kind d).constructed)
    (hfields : ∀ {kind' d'}, Leads Item.constructed items (.aggregate kind d) (.aggregate kind' d') → ∀ f ∈ d'.fields,
      ∀ locals', (SymbolKind.aggregate kind' d').Fronts locals' →
      Halts S (Env.Closes ⟨locals', home⟩) ((fully kept tab).infer ⟨locals', home⟩ f.type))
    (span span' : Span) {args : List Expr}
    (hargs : ∀ e ∈ args, Halts S (Env.Closes ⟨locals, home⟩) ((fully kept tab).infer ⟨locals, home⟩ e)) :
    Halts S (Env.Closes ⟨locals, home⟩) ((fully kept tab).call span ⟨locals, home⟩ (.name span' ident) args) := by
  have hregular := fully_regular hset
  refine (meaning_halts ident).bind fun m hm => ?_
  have hlocal := hlocals ident.name (hlayered.typeVars kind d hd ident.name hname)
  rcases meaning?_unhidden hbound hitems hhome hlocal hm with
    ⟨b, rfl⟩ | ⟨op, rfl⟩ | ⟨item, hitem, ident', hident', hname', id, group, p, rfl⟩
  · exact callType_name_halts hregular fun m' hm' => .inr ⟨b, Option.some.inj (hm'.symm.trans hm)⟩
  · exact (Regular.callPrimitive_halts op span hargs).bind fun t ht => .pure ht
  · have hunusable : Symbol.meaning id ⟨ident.name, home, item.kindAt items group p⟩ = .unusable →
        Halts S (Env.Closes ⟨locals, home⟩) ((fully kept tab).callType span ⟨locals, home⟩ (.name span' ident) args) :=
      fun heq => callType_name_halts hregular fun m' hm' => .inl ((Option.some.inj (hm'.symm.trans hm)).trans heq)
    cases item with
    | aggregate kind' d' =>
      exact Regular.construct_halts (hfields ⟨hd, hitem, ident', hident', hname' ▸ hname⟩) span hargs
    | vars d' =>
      obtain ⟨v, hv, rfl⟩ := List.mem_map.1 hident'
      exact absurd hname' (hlayered.vars _ hd ident.name hname d' hitem v hv)
    | procedure d' => exact absurd hitem (hlayered.procedures d')
    | overloadable name => exact .fail (by nofun) span
    | _ => exact hunusable rfl

/-- Field types are read to an end if the answers behind names are found: along the graph, from what is constructed to
what it is constructed in, and from the parts of an expression to the whole. -/
theorem Layered.fields_halt (hhome : home = empty.scope)
    (hanswers : ∀ {env : Env} {name m}, env.meaning? tab name = some m → (fully kept tab).Answers S m) {a : Item}
    (ha : a ∈ items) {kind : AggregateKind} {d : Aggregate} (had : a = .aggregate kind d) {locals : Frame}
    (hlocals : (SymbolKind.aggregate kind d).Fronts locals) {e : Expr} (he : e ∈ d.types) :
    Halts S (Env.Closes ⟨locals, home⟩) ((fully kept tab).infer ⟨locals, home⟩ e) := by
  have hwf : WellFounded (flip (Leads Item.constructed items)) :=
    wellFounded_of_acyclic (fun hleads => hleads.2.1) hlayered.acyclic
  have hregular := fully_regular hset
  induction a using hwf.induction generalizing kind d locals e with
  | _ a ihlayer =>
    subst had
    have hinside : ∀ e' ∈ e.parts, e' ∈ Expr.partsList d.types := fun e' he' => Expr.mem_partsList.2 ⟨e, he, he'⟩
    clear he
    induction e using Expr.by_children with
    | h e ih =>
      rw [hregular.rule]
      have hparts : ∀ e' ∈ e.children, Halts S (Env.Closes ⟨locals, home⟩) ((fully kept tab).infer ⟨locals, home⟩ e') :=
        fun e' he' => ih e' he' fun e'' he'' => hinside e'' (Expr.parts_children he' he'')
      have hdirect := hlayered.direct kind d ha e (hinside e e.self_mem_parts)
      refine hregular.rule_halts_of hparts (fun span ident _ {origin d' group position} hm => ?_)
        (fun span callee args heq => ?_) fun span base ident heq => ?_
      · have hsymbol := Env.symbol?_of_meaning?_global hm
        refine Regular.globalType_halts (fun e' he' => ?_) (hanswers hm) ident.span
        rw [hlayered.annotations d' (hbound.vars_mem hitems hsymbol)] at he'
        cases he'
      · subst heq
        cases callee with
        | name span' ident =>
          have hname : ident.name ∈ (Item.aggregate kind d).constructed :=
            List.mem_filterMap.2 ⟨_, hinside _ (Expr.self_mem_parts _), rfl⟩
          refine hlayered.call_halts hbound hitems hset hhome ha hlocals hname ?_ span span'
            fun e' he' => hparts e' (List.mem_cons_of_mem _ he')
          intro kind' d' hleads f hf locals' hlocals'
          exact ihlayer _ hleads hleads.2.1 rfl hlocals' (List.mem_map_of_mem hf)
        | _ => cases hdirect
      · subst heq
        cases hdirect

theorem Layered.typesHalt
    (hanswers : ∀ {env : Env} {name m}, env.meaning? tab name = some m → (fully kept tab).Answers S m) :
    (fully kept tab).TypesHalt S := by
  intro id symbol hsymbol e he locals hlocals
  rcases hbound.symbol?_cases hitems hsymbol with (⟨b, hb⟩ | ⟨op, hop⟩) | ⟨i, p, item, ident, hat, -, hdeclared⟩
  · rw [hb] at he
    cases he
  · rw [hop] at he
    cases he
  · have hitem := List.mem_of_getElem? hat.stands
    have hhome := congrArg Symbol.home hdeclared
    dsimp only at hhome
    rw [hdeclared] at he hlocals
    cases item with
    | aggregate kind d =>
      exact hlayered.fields_halt hbound hitems hset hhome hanswers hitem rfl hlocals he
    | vars d =>
      have hnone : d.types = [] := hlayered.annotations d hitem
      change e ∈ d.types at he
      rw [hnone] at he
      cases he
    | procedure d => exact absurd hitem (hlayered.procedures d)
    | _ => cases he

/-- In every situation inference comes to an end, since there are less and less initializers to look at. -/
theorem Layered.infer_halts (hcyclic : S.cyclic) {env : Env} {e : Expr} (henv : Below 0 env) :
    Halts S (Below 0) ((fully kept tab).infer env e) := by
  induction hcard : (tab.idle S).card using Nat.strong_induction_on generalizing S env e with
  | h n ih =>
    have hanswers : ∀ {env : Env} {name m}, env.meaning? tab name = some m → (fully kept tab).Answers S m := by
      intro env name m hm
      cases m with
      | procedure origin d =>
        have hsymbol := Env.symbol?_of_meaning?_procedure hm
        exact absurd (hbound.procedure_mem hitems hsymbol) (hlayered.procedures d)
      | global origin d group position =>
        have hsymbol := Env.symbol?_of_meaning?_global hm
        obtain ⟨_, _, hgroup⟩ := hset.group hsymbol
        refine global_answers (fun _ => hcyclic) fun hidle => ?_
        have hless := SymbolTable.idle_begin hset (.global hgroup) hidle
        rw [hcard] at hless
        exact ih _ hless (S := S.begin group []) hcyclic (Env.below_scope origin.home) rfl
      | _ => trivial
    exact DualInference.infer_halts (fully_regular hset) (hlayered.typesHalt hbound hitems hset hanswers) henv
      fun _ _ _ hm => hanswers hm

end

/-! ## Main results -/

/-- **Aggregates in layers.** In a program of aggregates and variables where no aggregate is built from itself, every
inference comes to an end, after any earlier inferences and however initializers need each other. -/
theorem layered_inference_terminates {items : List Item} {m : Module} (hm : Module.ofItems items = .ok m)
    (hitems : Layered items) {st : State} (hst : m.Reached st) (e : Expr) :
    ∃ depth r st', ∀ more ≥ depth, inferWithin more m.table m.env e st = some (r, st') := by
  obtain ⟨hordered, hbound, _⟩ := Module.bound_of_ofItems hm
  have hhalts := hitems.infer_halts hbound hordered (Module.settled hm) (S := .initial True) trivial (e := e)
    (Env.below_scope m.scope)
  obtain ⟨depth, r, st', hrun, _⟩ := inferWithin_ends hhalts ((hst.atRest hm).holds True)
  exact ⟨depth, r, st', hrun⟩

/-- `Inner { n: Int }`, `Outer { inner: Inner(seed) }`, and `seed = Outer(1)` -/
def seededProgram : List Item :=
  [.aggregate .record ⟨{ name := "Inner" }, [], [⟨{ name := "n" }, .bare "Int"⟩]⟩,
    .aggregate .record ⟨{ name := "Outer" }, [],
      [⟨{ name := "inner" }, .call {} (.bare "Inner") [.bare "seed"]⟩]⟩,
    .vars ⟨[⟨{ name := "seed" }, none⟩], .call {} (.bare "Outer") [.int {} 1]⟩]

theorem layered_seededProgram : Layered seededProgram where
  procedures := by simp [seededProgram]
  annotations := by
    intro d hd
    obtain rfl : d = ⟨[⟨{ name := "seed" }, none⟩], .call {} (.bare "Outer") [.int {} 1]⟩ := by
      simpa [seededProgram] using hd
    rfl
  direct := by
    intro kind d hd
    simp only [seededProgram, List.mem_cons, Item.aggregate.injEq, reduceCtorEq, List.not_mem_nil, or_false] at hd
    rcases hd with ⟨rfl, rfl⟩ | ⟨rfl, rfl⟩ <;> decide
  typeVars := by
    intro kind d hd
    simp only [seededProgram, List.mem_cons, Item.aggregate.injEq, reduceCtorEq, List.not_mem_nil, or_false] at hd
    rcases hd with ⟨rfl, rfl⟩ | ⟨rfl, rfl⟩ <;> decide
  vars := by
    intro item hitem name hname d hd v hv
    have hseed : ∀ item ∈ seededProgram, "seed" ∉ item.constructed := by decide
    obtain rfl : d = ⟨[⟨{ name := "seed" }, none⟩], .call {} (.bare "Outer") [.int {} 1]⟩ := by
      simpa [seededProgram] using hd
    obtain rfl := List.mem_singleton.1 hv
    rintro rfl
    exact hseed item hitem hname
  acyclic := by
    refine acyclic_of_rank (fun item => item.constructed.length) fun a b hleads => ?_
    have hdown : ∀ a ∈ seededProgram, ∀ b ∈ seededProgram, (∃ ident ∈ b.binds, ident.name ∈ a.constructed) →
        b.constructed.length < a.constructed.length := by decide
    exact hdown a hleads.1 b hleads.2.1 hleads.2.2

/-- The circle from `seed` to the field of `Outer` to `seed` is cut, and after that it comes to an end again. -/
theorem seeded_inference_terminates : ∃ m st, Module.ofItems seededProgram = .ok m ∧
    inferWithin 8 m.table m.env (.bare "seed") {} = some (.error ⟨.recursiveInference, {}⟩, st) ∧
    ∃ depth r st', ∀ more ≥ depth, inferWithin more m.table m.env (.bare "seed") st = some (r, st') := by
  have hfirst : (Module.ofItems seededProgram).toOption.bind
      (fun m => (inferWithin 8 m.table m.env (.bare "seed") {}).map (·.1)) =
        some (.error ⟨.recursiveInference, {}⟩) := by decide +kernel
  obtain ⟨m, hm, hfound⟩ := Module.exists_of_bind hfirst
  obtain ⟨⟨r, st⟩, hrun, rfl⟩ := Option.map_eq_some_iff.1 hfound
  exact ⟨m, st, hm, hrun, layered_inference_terminates hm layered_seededProgram (.infer .fresh hrun) (.bare "seed")⟩

/-! ## Circles of aggregates -/

/-- the expression constructs an aggregate of the collection, with as many arguments as it has fields -/
def Expr.Constructs (X : List Aggregate) (e : Expr) : Prop :=
  ∃ d ∈ X, ∃ span place ident args, e = .call span (.name place ident) args ∧ ident.name = d.name.name ∧
    args.length = d.fields.length

/-- aggregates of a program, without type variables, each of which has a first field that constructs one of them -/
structure Circle (items : List Item) (X : List Aggregate) : Prop where
  declared : ∀ d ∈ X, ∃ kind, .aggregate kind d ∈ items
  typeVars : ∀ d ∈ X, d.typeVars = []
  first : ∀ d ∈ X, ∃ f fs, d.fields = f :: fs ∧ f.type.Constructs X

/-- What constructs an aggregate of a circle does not come to an end, at any depth and from any state. -/
theorem Circle.never_ends {items : List Item} {m : Module} (hm : Module.ofItems items = .ok m) {X : List Aggregate}
    (hX : Circle items X) {e : Expr} (he : e.Constructs X) (depth : Nat) (st : State) :
    inferWithin depth m.table m.env e st = none := by
  induction depth generalizing e st with
  | zero => rfl
  | succ depth ih =>
    obtain ⟨d, hd, span, place, ident, args, rfl, hident, hargs⟩ := he
    obtain ⟨kind, hitem⟩ := hX.declared d hd
    obtain ⟨f, fs, hfields, hf⟩ := hX.first d hd
    obtain ⟨id, hid, hsymbol⟩ := Module.aggregate_bound hm hitem
    have hmeaning : m.env.meaning? m.table ident.name = some (.aggregate ⟨id, d.name.name, m.scope⟩ kind d) := by
      rw [hident]
      simp [Env.meaning?, Module.env, hid, hsymbol, Symbol.meaning]
    let cx : Context := { table := m.table, infer := inferWithin depth m.table }
    -- the first field type is the first thing that is inferred
    have hfirst : cx.unifyFields m.env m.env d.fields args st = none := by
      cases args with
      | nil =>
        rw [hfields] at hargs
        cases hargs
      | cons arg args =>
        have htype : cx.type m.env f.type st = none := by
          rw [Context.type, bind_apply, show cx.infer m.env f.type st = none from ih hf st]
        rw [hfields, Context.unifyFields, bind_apply, htype]
    calc inferWithin (depth + 1) m.table m.env (.call span (.name place ident) args) st
        = cx.construct ⟨id, d.name.name, m.scope⟩ kind d span m.env args st := by
          have hfound : cx.meaning m.env ident st = some (.ok (.aggregate ⟨id, d.name.name, m.scope⟩ kind d), st) :=
            meaning_eq_ok.2 ⟨hmeaning, rfl⟩
          rw [inferWithin, Context.rule, Context.call, Expr.bareName?]
          exact bind_of_ok hfound
      _ = (cx.unifyFields m.env m.env d.fields args >>= fun _ => do
            let params ← Infer.solution span d.typeVars []
            return .value (.aggregate kind id params)) st := by
          rw [Context.construct, bind_of_ok (arity_eq_ok.2 ⟨hargs, rfl⟩),
            bind_of_ok (home_eq_ok.2 ⟨⟨Module.alive_scope hm, rfl⟩, rfl⟩), hX.typeVars d hd]
          rfl
      _ = none := by rw [bind_apply, hfirst]

/-- `R { f: R(1) }` -/
def selfMadeProgram : List Item :=
  [.aggregate .record ⟨{ name := "R" }, [], [⟨{ name := "f" }, .call {} (.bare "R") [.int {} 1]⟩]⟩]

/-- **A circle of field types is not cut.** The program has no procedures and no annotations, and it has a module, but
`R(1)` does not come to an end at any depth. -/
theorem self_construction_never_ends : ∃ m, Module.ofItems selfMadeProgram = .ok m ∧
    ∀ depth st, inferWithin depth m.table m.env (.call {} (.bare "R") [.int {} 1]) st = none := by
  have hok : (Module.ofItems selfMadeProgram).isOk = true := by decide +kernel
  let d : Aggregate := ⟨{ name := "R" }, [], [⟨{ name := "f" }, .call {} (.bare "R") [.int {} 1]⟩]⟩
  have hcalls : (Expr.call {} (.bare "R") [.int {} 1]).Constructs [d] :=
    ⟨d, List.mem_singleton_self d, {}, {}, { name := "R" }, [.int {} 1], rfl, rfl, rfl⟩
  have hcircle : Circle selfMadeProgram [d] := by
    refine ⟨fun d' hd' => ?_, fun d' hd' => ?_, fun d' hd' => ?_⟩ <;> obtain rfl := List.mem_singleton.1 hd'
    · exact ⟨.record, List.mem_singleton_self _⟩
    · rfl
    · exact ⟨_, [], rfl, hcalls⟩
  obtain ⟨m, hm⟩ := Module.ofItems_of_isOk hok
  exact ⟨m, hm, hcircle.never_ends hm hcalls⟩

end DualInference
