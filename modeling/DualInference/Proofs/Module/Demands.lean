/-
Programs without circular demands.

What a procedure returns is found in its body if the procedure does not declare it, and what a variable is in its
initializer. These name other procedures and variables, whose answers are then asked for. So there is a graph on the items
of a program, from each item to the items that it asks for (`Asks`).

If the graph has no cycle, no answer is ever needed while it is sought. While the body or the initializer of an item is
looked at, the keys in progress are those of items from which it was reached, and the graph does not lead back to them
(`Situation.Clear`). This holds with any number of keys for one procedure: the arguments of a call come to an end before
its key is begun, so the calls in them are not made inside the call. For the same reason inference comes to an end: it goes
on along the graph, and in between it goes down in an expression.

Main result: `demands_without_cycle_are_met`.
-/
import DualInference.Proofs.Module.Termination
import Mathlib.Order.WellFoundedSet

namespace DualInference

open Infer Context
open DualInference.Module (empty)

/-! ## The graph -/

/-- the names in what is looked at to find the answer of an item: the body of a procedure that does not declare what it
returns, where its own parameters and type variables come first, and the initializer of variables -/
def Item.asked : Item → List String
  | .procedure d =>
    match d.returnType with
    | some _ => []
    | none => (d.body.elim [] Expr.names).filter (· ∉ d.ownNames)
  | .vars d => d.init.names
  | _ => []

/-- by the names in them that count, one item of a program leads to another one, which declares the name -/
def Leads (names : Item → List String) (items : List Item) (a b : Item) : Prop :=
  a ∈ items ∧ b ∈ items ∧ ∃ ident ∈ b.binds, ident.name ∈ names a

/-- The first item names the second one where its answer is looked for. Only procedures and variables have answers, so
a cycle goes through these only. -/
abbrev Asks (items : List Item) : Item → Item → Prop :=
  Leads Item.asked items

/-- A relation without cycles whose edges lead to finitely many places only is well-founded, followed backwards. -/
theorem wellFounded_of_acyclic {α : Type} {r : α → α → Prop} {l : List α} (hr : ∀ {a b}, r a b → b ∈ l)
    (hacyclic : ∀ a, ¬Relation.TransGen r a a) : WellFounded (flip r) := by
  have hirrefl : Std.Irrefl (Relation.TransGen (flip r)) := ⟨fun a h => hacyclic a (Relation.transGen_swap.1 h)⟩
  have htrans : IsTrans α (Relation.TransGen (flip r)) := ⟨fun _ _ _ => Relation.TransGen.trans⟩
  have hfinite : {a | a ∈ l}.WellFoundedOn (Relation.TransGen (flip r)) :=
    @Set.Finite.wellFoundedOn _ _ { toIrrefl := hirrefl, toIsTrans := htrans } _ (List.finite_toSet l)
  have hacc : ∀ a ∈ l, Acc (flip r) a := fun a ha =>
    hfinite.induction ha fun b _ ih => ⟨b, fun c hc => ih c (hr hc) (.single hc)⟩
  exact ⟨fun a => ⟨a, fun b hb => hacc b (hr hb)⟩⟩

/-- A rank that goes down along all edges rules out cycles. -/
theorem acyclic_of_rank {α : Type} {r : α → α → Prop} (rank : α → Nat) (h : ∀ a b, r a b → rank b < rank a) (a : α) :
    ¬Relation.TransGen r a a := by
  have hdown : ∀ b, Relation.TransGen r a b → rank b < rank a := by
    intro b hb
    induction hb with
    | single hab => exact h _ _ hab
    | tail _ hbc ih => exact (h _ _ hbc).trans ih
  exact fun hcycle => Nat.lt_irrefl _ (hdown a hcycle)

/-! ## Keys in progress -/

/-- the symbol that the answers of an item are recorded for, by the index of the item -/
@[irreducible]
def answerId (items : List Item) (index : Nat) : SymbolId :=
  empty.table.symbols.size + offset items index

/-- no key is in progress for the item, or for an item that it leads to -/
def Situation.Clear (S : Situation) (items : List Item) (a : Item) : Prop :=
  ∀ {b i p ident}, Relation.ReflTransGen (Asks items) a b → DeclaredAt items i p b ident →
    ∀ key, ¬S.busy (answerId items i) key

section

variable {items : List Item} (hacyclic : ∀ item, ¬Relation.TransGen (Asks items) item item)

include hacyclic

/-- When a key of an item is begun, the items that it asks for are clear. -/
theorem Situation.Clear.begin {S : Situation} {a b : Item} (h : S.Clear items a) {i p : Nat} {ident : Ident}
    (ha : DeclaredAt items i p a ident) (hasks : Asks items a b) (key : Key) :
    (S.begin (answerId items i) key).Clear items b := by
  intro c j q ident' hreach hc key' hbusy
  rcases hbusy with ⟨heq, _⟩ | hbusy
  · -- the item itself would be reached again
    rw [answerId, answerId] at heq
    obtain rfl : j = i := (hc.offset_inj ha).1 (Nat.add_left_cancel heq)
    obtain rfl : c = a := Option.some.inj (hc.stands.symm.trans ha.stands)
    exact hacyclic c (.head' hasks hreach)
  · exact h (hreach.head hasks) hc key' hbusy

end

/-! ## Answers that are found -/

section

variable {items : List Item} {tab : SymbolTable} (hbound : Bound items tab) (hitems : WellOrdered items)

include hbound hitems

/-- The answer behind a name is found if this is so for the item that declares the name, unless the name is one of those
in front of the scope. -/
theorem answers_of_declared {home : ScopeId} (hhome : home = empty.scope) {S : Situation} {locals : Frame}
    {name : String} (h : locals.lookup name = none → ∀ {i p item ident}, DeclaredAt items i p item ident →
      ident.name = name → (fully kept tab).Answers S (Symbol.meaning (answerId items i + p)
        ⟨ident.name, home, item.kindAt items (answerId items i) p⟩))
    {m : Meaning} (hm : Env.meaning? tab ⟨locals, home⟩ name = some m) : (fully kept tab).Answers S m := by
  cases hlocal : locals.lookup name with
  | some entry =>
    unfold Env.meaning? at hm
    rw [hlocal] at hm
    cases hm
    cases entry <;> trivial
  | none =>
    rcases Env.meaning?_cases hm with ⟨entry, hentry, _⟩ | ⟨id, symbol, hid, hsymbol, rfl⟩
    · cases hlocal.symm.trans hentry
    · dsimp only at hid
      rw [hhome] at hid
      rcases hbound.declaredAt_of_lookup hitems hid hsymbol with
        (⟨b, hb⟩ | ⟨op, hop⟩) | ⟨i, p, item, ident, hat, hname, hid', hdeclared⟩
      · obtain ⟨symName, home, kind⟩ := symbol
        cases hb
        trivial
      · obtain ⟨symName, home, kind⟩ := symbol
        cases hop
        trivial
      · rw [hid', hdeclared, ← Nat.add_assoc, ← answerId, ← hhome]
        exact h hlocal hat hname

variable (hset : tab.Settled items) (hsimple : tab.SimplyTyped)
  (hacyclic : ∀ item, ¬Relation.TransGen (Asks items) item item)

include hset hsimple hacyclic

/-- As long as an item is clear its answer is found, in situations where no key in progress may be needed. -/
theorem answers_of_clear {home : ScopeId} (hhome : home = empty.scope) {a : Item} {S : Situation}
    (hclear : S.Clear items a) {i p : Nat} {ident : Ident} (hat : DeclaredAt items i p a ident) :
    (fully kept tab).Answers S (Symbol.meaning (answerId items i + p)
      ⟨ident.name, home, a.kindAt items (answerId items i) p⟩) := by
  have hwf : WellFounded (flip (Asks items)) := wellFounded_of_acyclic (fun hasks => hasks.2.1) hacyclic
  -- along the graph, from the items that are asked for to those that ask
  induction a using hwf.induction generalizing S i p ident with
  | _ a ih =>
    have hregular := fully_regular hset
    have htypes : ∀ S, (fully kept tab).TypesHalt S := hsimple.typesHalt hregular
    have hlooked : ∀ (key : Key) {locals : Frame} {e : Expr}, Below 0 locals →
        (∀ name ∈ e.names, locals.lookup name = none → name ∈ a.asked) →
        Halts (S.begin (answerId items i) key) (Below 0) ((fully kept tab).infer ⟨locals, home⟩ e) := by
      intro key locals e hlocals hasked
      refine infer_halts hregular (htypes _) hlocals fun name hname m hm => ?_
      refine answers_of_declared hbound hitems hhome (fun hnone {j q b ident'} hat' hname' => ?_) hm
      have hasks : Asks items a b := ⟨List.mem_of_getElem? hat.stands, List.mem_of_getElem? hat'.stands, ident',
        List.mem_of_getElem? hat'.binds, hname' ▸ hasked name hname hnone⟩
      exact ih b hasks (hclear.begin hacyclic hat hasks key) hat'
    cases a with
    | procedure d =>
      have hp : p = 0 := by
        have hlt := (List.getElem?_eq_some_iff.1 hat.binds).1
        simpa [Item.binds] using hlt
      subst hp
      have hsymbol := hbound.symbol?_declared hat
      rw [← Nat.add_assoc, ← answerId, ← hhome] at hsymbol
      refine procedure_answers hset hsimple hsymbol
        (fun key hbusy => absurd hbusy (hclear .refl hat key))
        fun key _ body hnone hsome _ locals hlocals hown => ?_
      refine hlooked key hlocals fun name hname hlocal => ?_
      rw [Item.asked, hnone, hsome]
      refine List.mem_filter.2 ⟨hname, decide_eq_true fun hmem => ?_⟩
      have hfound := hown name hmem
      rw [hlocal] at hfound
      cases hfound
    | vars d =>
      exact global_answers (fun hbusy => absurd hbusy (hclear .refl hat []))
        fun _ => hlooked [] below_nil fun _ hname _ => hname
    | _ => trivial

end

/-! ## Main result -/

/-- at all depths from some depth on the computation ends in the same way, and this is not an error of recursive
inference -/
def Infer.Concludes {α : Type} (x : Nat → Infer α) (st : State) : Prop :=
  ∃ depth r st', (∀ more ≥ depth, x more st = some (r, st')) ∧ ∀ err, r = .error err → err.isRecursive = false

/-- **Recursive inference is no false alarm.** If the types in a program are simple and no item leads back to itself by
what the search for its answer names, then after any earlier inferences every expression comes to an end, and not with an
error of recursive inference. This is so for generic procedures too, and for calls of a procedure in its own arguments. -/
theorem demands_without_cycle_are_met {items : List Item} {m : Module} (hm : Module.ofItems items = .ok m)
    (htyped : PlainlyTyped items) (hacyclic : ∀ item, ¬Relation.TransGen (Asks items) item item) {st : State}
    (hst : m.Reached st) :
    (∀ e, Concludes (fun depth => inferWithin depth m.table m.env e) st) ∧
    ∀ side e shape, Concludes (fun depth => projectWithin depth m.table side m.env e shape) st := by
  obtain ⟨hordered, hbound, hscope⟩ := Module.bound_of_ofItems hm
  have hset := Module.settled hm
  have hregular := fully_regular hset
  have hsimple : m.table.SimplyTyped := htyped.simplyTyped hbound hordered
  -- at first nothing is in progress, and nothing in progress may be needed
  have hholds := (hst.atRest hm).holds False
  have hhalts : ∀ e, Halts (.initial False) (Below 0) ((fully kept m.table).infer m.env e) := fun e => by
    refine infer_halts hregular (hsimple.typesHalt hregular _) (Env.below_scope m.scope) fun name _ meaning hmeaning => ?_
    refine answers_of_declared hbound hordered hscope (fun _ {i p item ident} hat _ => ?_) hmeaning
    exact answers_of_clear hbound hordered hset hsimple hacyclic hscope (fun _ _ _ hbusy => hbusy) hat
  have hnever : ∀ {err : Error}, (err.cause = .recursiveInference → (Situation.initial False).cyclic) →
      err.isRecursive = false := fun h => beq_eq_false_iff_ne.2 h
  constructor
  · intro e
    obtain ⟨depth, r, st', hrun, herror⟩ := inferWithin_ends (hhalts e) hholds
    exact ⟨depth, r, st', hrun, fun err herr => hnever (herror err herr)⟩
  · intro side e shape
    have hlimit := Built.reached continuous_memoized m.table (Built.project side m.env e shape)
    have hproject := Regular.project_halts side ((hhalts e).mono fun _ hd _ => hd) shape
    obtain ⟨depth, r, st', hrun, herror⟩ := hlimit.ends hproject hholds
    refine ⟨depth, r, st', fun more hmore => ?_, fun err herr => hnever (herror err herr)⟩
    simp only [projectWithin, ← within_kept]
    exact hrun more hmore

/-- `twice[T](x: T)` with the body `(x, x)`, `fourfold[T](x: T)` with the body `twice(twice(x))`, and a variable
`many = fourfold(fourfold(1))` -/
def nestingProgram : List Item :=
  [.procedure ⟨{ name := "twice" }, [{ name := "T" }], [.value .byValue { name := "x" } (.bare "T")], [], none,
      some (.tuple {} [.bare "x", .bare "x"]), {}⟩,
    .procedure ⟨{ name := "fourfold" }, [{ name := "T" }], [.value .byValue { name := "x" } (.bare "T")], [], none,
      some (.call {} (.bare "twice") [.call {} (.bare "twice") [.bare "x"]]), {}⟩,
    .vars ⟨[⟨{ name := "many" }, none⟩], .call {} (.bare "fourfold") [.call {} (.bare "fourfold") [.int {} 1]]⟩]

/-- a rank of the items above that goes down from each item to those that it asks for -/
def nestingRank : Item → Nat
  | .vars _ => 2
  | .procedure d => d.body.elim 0 fun body => if "twice" ∈ body.names then 1 else 0
  | _ => 0

theorem acyclic_nestingProgram (item : Item) : ¬Relation.TransGen (Asks nestingProgram) item item := by
  refine acyclic_of_rank nestingRank (fun a b hasks => ?_) item
  have hdown : ∀ a ∈ nestingProgram, ∀ b ∈ nestingProgram, (∃ ident ∈ b.binds, ident.name ∈ a.asked) →
      nestingRank b < nestingRank a := by decide
  exact hdown a hasks.1 b hasks.2.1 hasks.2.2

/-- After `fourfold('a')`, which leads to calls of `twice` with two types, `twice(many)` comes to an end. -/
theorem nested_demands_are_met : ∃ m st, Module.ofItems nestingProgram = .ok m ∧
    inferWithin 8 m.table m.env (.call {} (.bare "fourfold") [.char {} 'a']) {} =
      some (.ok (.value (.tuple [.tuple [.char, .char], .tuple [.char, .char]])), st) ∧
    Concludes (fun depth => inferWithin depth m.table m.env (.call {} (.bare "twice") [.bare "many"])) st := by
  have hfirst : (Module.ofItems nestingProgram).toOption.bind (fun m =>
      (inferWithin 8 m.table m.env (.call {} (.bare "fourfold") [.char {} 'a']) {}).map (·.1)) =
        some (.ok (.value (.tuple [.tuple [.char, .char], .tuple [.char, .char]]))) := by decide +kernel
  have htyped : PlainlyTyped nestingProgram := by
    refine ⟨by decide, fun item hitem e he d hd v hv => ?_⟩
    have hmany : ∀ item ∈ nestingProgram, ∀ e ∈ item.types, "many" ∉ e.names := by decide
    simp only [nestingProgram, List.mem_cons, Item.vars.injEq, reduceCtorEq, List.not_mem_nil, false_or, or_false] at hd
    subst hd
    obtain rfl := List.mem_singleton.1 hv
    exact hmany item hitem e he
  obtain ⟨m, hm, hfound⟩ := Module.exists_of_bind hfirst
  obtain ⟨⟨r, st⟩, hrun, rfl⟩ := Option.map_eq_some_iff.1 hfound
  exact ⟨m, st, hm, hrun, (demands_without_cycle_are_met hm htyped acyclic_nestingProgram (.infer .fresh hrun)).1 _⟩

end DualInference
