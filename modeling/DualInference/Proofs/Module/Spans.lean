/-
Spans only label errors.

Let every span of a program, of its items, expressions, identifiers and procedures, go to another place. Binding does to the
program at its new place what it does to the program, and comes to the same table, with the texts in it at their new places
(`Module.ofItems_under`). Symbols have the numbers they had, so the two tables agree in disguise, and so do the states that
inferences leave: they are the very same. Only the span of an error goes along.

It follows that an error has the span of some node. If it had another one, the program could stay where it is while that
span goes elsewhere, and the error would have to be in two places at once.

Main results:
- `spans_only_label_errors`: what becomes of a program, and of one expression after the other, at another place;
- in it, that the span of an error is one of the program or of the expression that is inferred.
-/
import DualInference.Proofs.Module.Order

namespace DualInference

open SymbolTable
open Disguised (disguise)

/-! ## Items at other places -/

def Predicate.under (δ : Disguise) (d : Predicate) : Predicate :=
  ⟨d.name.under δ, d.typeVars.map (·.under δ)⟩

def PredicateInstance.under (δ : Disguise) (d : PredicateInstance) : PredicateInstance :=
  ⟨d.name.under δ, d.typeVars.map (·.under δ), d.typeArgs.map (·.under δ)⟩

/-- the item with its spans at other places -/
def Item.under (δ : Disguise) : Item → Item
  | .predicate d => .predicate (d.under δ)
  | .predicateInstance d => .predicateInstance (d.under δ)
  | .aggregate kind d => .aggregate kind (d.under δ)
  | .vars d => .vars (d.under δ)
  | .procedure d => .procedure (d.under δ)
  | .overloadable ident => .overloadable (ident.under δ)
  | .overload d => .overload (d.under δ)

/-- the spans in an item -/
def Item.spans : Item → List Span
  | .predicate d => d.name.span :: d.typeVars.map (·.span)
  | .predicateInstance d => d.name.span :: (d.typeVars.map (·.span) ++ d.typeArgs.flatMap (·.spans))
  | .aggregate _ d => d.spans
  | .vars d => d.spans
  | .procedure d => d.spans
  | .overloadable ident => [ident.span]
  | .overload d => d.spans

theorem Item.under_eq {δ : Disguise} {item : Item} (h : δ.Fixes item.spans) : item.under δ = item := by
  cases item with
  | predicate d =>
    obtain ⟨hname, htypeVars⟩ := Disguise.fixes_cons.1 h
    rw [Item.under, Predicate.under, Ident.under_eq hname, Ident.map_under_eq htypeVars]
  | predicateInstance d =>
    obtain ⟨hname, hrest⟩ := Disguise.fixes_cons.1 h
    obtain ⟨htypeVars, htypeArgs⟩ := Disguise.fixes_append.1 hrest
    rw [Item.under, PredicateInstance.under, Ident.under_eq hname, Ident.map_under_eq htypeVars,
      Expr.map_under_eq htypeArgs]
  | aggregate kind d => rw [Item.under, Aggregate.under_eq h]
  | vars d => rw [Item.under, Variables.under_eq h]
  | procedure d => rw [Item.under, Procedure.under_eq h]
  | overloadable ident => rw [Item.under, Ident.under_eq (Disguise.fixes_cons.1 h).1]
  | overload d => rw [Item.under, Procedure.under_eq h]

/-! ## Tables at other places -/

def SymbolKind.under (δ : Disguise) : SymbolKind → SymbolKind
  | .predicate d instances => .predicate (d.under δ) (instances.map (·.under δ))
  | .predicateInstance d => .predicateInstance (d.under δ)
  | .aggregate kind d => .aggregate kind (d.under δ)
  | .procedure d => .procedure (d.under δ)
  | .overloadable ident overloads => .overloadable (ident.under δ) (overloads.map (·.under δ))
  | .overload d => .overload (d.under δ)
  | .global d group position => .global (d.under δ) (δ.symbol group) position
  | .typeVar span t => .typeVar (δ.span span) (t.under δ)
  | .localVar t => .localVar (t.under δ)
  | .builtin b => .builtin b
  | .primitive op => .primitive op

def Symbol.under (δ : Disguise) (symbol : Symbol) : Symbol :=
  { symbol with kind := symbol.kind.under δ }

/-- the table with the texts of its symbols at other places, under the numbers they have -/
def SymbolTable.under (δ : Disguise) (tab : SymbolTable) : SymbolTable :=
  { tab with symbols := tab.symbols.map (·.under δ) }

def Module.under (δ : Disguise) (m : Module) : Module :=
  ⟨m.table.under δ, m.scope⟩

instance : Disguised SymbolTable := ⟨SymbolTable.under⟩
instance : Disguised Module := ⟨Module.under⟩

section

variable {δ : Disguise} (hδ : δ.KeepsSymbols) (s : ScopeId) (tab : SymbolTable)

theorem SymbolTable.symbol?_under (id : SymbolId) : (tab.under δ).symbol? id = (tab.symbol? id).map (·.under δ) :=
  Array.getElem?_map ..

theorem SymbolTable.add_under (symbol : Symbol) :
    (tab.under δ).add (symbol.under δ) = ((tab.add symbol).1, (tab.add symbol).2.under δ) := by
  simp [add, SymbolTable.under]

theorem SymbolTable.bindIdent_under (ident : Ident) (id : SymbolId) :
    (tab.under δ).bindIdent s (ident.under δ) id = disguise δ (tab.bindIdent s ident id) := by
  have hown : ∀ name, (tab.under δ).own? s name = tab.own? s name := fun _ => rfl
  simp only [bindIdent, bind, hown, Ident.under]
  cases tab.own? s ident.name <;> rfl

theorem SymbolTable.declare_under (ident : Ident) (symbol : Symbol) :
    (tab.under δ).declare s (ident.under δ) (symbol.under δ) = disguise δ (tab.declare s ident symbol) := by
  simp only [declare, add_under, bindIdent_under]

include hδ in
theorem SymbolTable.declareNames_under (d : Variables) (group : SymbolId) (position : Nat) (vs : List Variable) :
    declareNames s (d.under δ) group (tab.under δ) position (vs.map (·.under δ)) =
      disguise δ (declareNames s d group tab position vs) := by
  induction vs generalizing tab position with
  | nil => rfl
  | cons v vs ih =>
    have hdeclare := tab.declare_under (δ := δ) s v.name ⟨v.name.name, s, .global d group position⟩
    simp only [Symbol.under, SymbolKind.under, hδ group] at hdeclare
    simp only [List.map_cons, declareNames]
    rw [show (v.under δ).name = v.name.under δ from rfl, show (v.name.under δ).name = v.name.name from rfl, hdeclare]
    cases tab.declare s v.name ⟨v.name.name, s, .global d group position⟩ with
    | error e => rfl
    | ok tab' => exact ih tab' (position + 1)

theorem SymbolTable.lookupOwner_under (owner : Owner) (ident : Ident) :
    (tab.under δ).lookupOwner s owner (ident.under δ) = disguise δ (tab.lookupOwner s owner ident) := by
  have hlookup : ∀ name, (tab.under δ).lookup s name = tab.lookup s name := fun _ => rfl
  have haccepts : ∀ id, ((tab.under δ).symbol? id).any (owner.accepts ·.kind) =
      (tab.symbol? id).any (owner.accepts ·.kind) := by
    intro id
    rw [symbol?_under]
    cases tab.symbol? id with
    | none => rfl
    | some symbol =>
      obtain ⟨name, home, kind⟩ := symbol
      cases kind <;> cases owner <;> rfl
  unfold lookupOwner lookupIdent
  simp only [hlookup, Ident.under]
  cases tab.lookup s ident.name with
  | none => rfl
  | some id =>
    change (if _ then _ else _) = disguise δ (if _ then _ else _)
    rw [haccepts]
    split <;> rfl

theorem SymbolTable.modifyKind_under {f g : SymbolKind → SymbolKind} (h : ∀ kind, (f kind).under δ = g (kind.under δ))
    (id : SymbolId) : (tab.under δ).modifyKind id g = (tab.modifyKind id f).under δ := by
  have hsymbols : ((tab.under δ).modifyKind id g).symbols = ((tab.modifyKind id f).under δ).symbols := by
    refine Array.ext_getElem? fun id' => ?_
    simp only [modifyKind, SymbolTable.under, Array.getElem?_modify, Array.getElem?_map]
    split
    · cases tab.symbols[id']? with
      | none => rfl
      | some symbol => simp [Symbol.under, h]
    · rfl
  exact congrArg (SymbolTable.mk tab.scopes) hsymbols

include hδ in
/-- An item is bound or attached at its new place as it is at the old one. -/
theorem SymbolTable.declareItem_under (item : Item) :
    declareItem s (tab.under δ) (item.under δ) = disguise δ (declareItem s tab item) := by
  cases item with
  | predicate d => exact tab.declare_under s d.name ⟨d.name.name, s, .predicate d []⟩
  | predicateInstance d =>
    have hattach : ∀ kind, (attachInstance d kind).under δ = attachInstance (d.under δ) (kind.under δ) := by
      intro kind
      cases kind <;> simp [attachInstance, SymbolKind.under]
    rw [Item.under, declareItem, declareItem, show (d.under δ).name = d.name.under δ from rfl, lookupOwner_under]
    cases tab.lookupOwner s .predicate d.name with
    | error e => rfl
    | ok id => exact congrArg Except.ok (modifyKind_under tab hattach id)
  | aggregate kind d => exact tab.declare_under s d.name ⟨d.name.name, s, .aggregate kind d⟩
  | vars d =>
    have hsize : (tab.under δ).symbols.size = tab.symbols.size := Array.size_map
    rw [Item.under, declareItem, hsize]
    exact tab.declareNames_under hδ s d tab.symbols.size 0 d.names
  | procedure d => exact tab.declare_under s d.name ⟨d.name.name, s, .procedure d⟩
  | overloadable ident => exact tab.declare_under s ident ⟨ident.name, s, .overloadable ident []⟩
  | overload d =>
    have hattach : ∀ kind, (attachOverload d kind).under δ = attachOverload (d.under δ) (kind.under δ) := by
      intro kind
      cases kind <;> simp [attachOverload, SymbolKind.under]
    rw [Item.under, declareItem, declareItem, show (d.under δ).name = d.name.under δ from rfl, lookupOwner_under]
    cases tab.lookupOwner s .overloadable d.name with
    | error e => rfl
    | ok id => exact congrArg Except.ok (modifyKind_under tab hattach id)

theorem SymbolTable.under_eq {tab : SymbolTable}
    (h : ∀ {id symbol}, tab.symbol? id = some symbol → symbol.under δ = symbol) : tab.under δ = tab := by
  have hsymbols : (tab.under δ).symbols = tab.symbols := by
    refine Array.ext_getElem? fun id => (tab.symbol?_under id).trans ?_
    cases hsymbol : tab.symbol? id with
    | none => exact hsymbol.symm
    | some symbol =>
      rw [Option.map_some, h hsymbol]
      exact hsymbol.symm
  exact congrArg (SymbolTable.mk tab.scopes) hsymbols

/-- The primitives have no spans. -/
theorem SymbolTable.under_empty : Module.empty.table.under δ = Module.empty.table := by
  refine SymbolTable.under_eq fun {id symbol} hsymbol => ?_
  have hkind := Module.symbol?_empty_cases hsymbol
  obtain ⟨name, home, kind⟩ := symbol
  rcases hkind with ⟨b, rfl⟩ | ⟨op, rfl⟩ <;> rfl

include hδ in
/-- The module of a program at its new place is the module of the program, at its new place. -/
theorem Module.ofItems_under (items : List Item) :
    Module.ofItems (items.map (·.under δ)) = disguise δ (Module.ofItems items) := by
  have hrun : ∀ (items : List Item) (tab : SymbolTable),
      (items.map (·.under δ)).foldlM (declareItem Module.empty.scope) (tab.under δ) =
        disguise δ (items.foldlM (declareItem Module.empty.scope) tab) := by
    intro items
    induction items with
    | nil => exact fun _ => rfl
    | cons item items ih =>
      intro tab
      rw [List.map_cons, List.foldlM_cons, List.foldlM_cons, declareItem_under hδ]
      cases declareItem Module.empty.scope tab item with
      | error e => rfl
      | ok tab' => exact ih tab'
  have hitems := hrun items Module.empty.table
  rw [under_empty] at hitems
  unfold Module.ofItems
  rw [hitems]
  generalize items.foldlM (declareItem Module.empty.scope) Module.empty.table = bound
  generalize Module.empty.scope = scope
  cases bound <;> rfl

include hδ in
theorem SymbolTable.agrees_under (hvisible : ∀ v, ¬δ.hidden v) : tab.Agrees δ (tab.under δ) where
  name id := by
    rw [hδ, nameOf, nameOf, symbol?_under, Option.map_map]
    rfl
  meaning id := by
    rw [hδ, meaning?, meaning?, symbol?_under, Option.map_map, Option.map_map]
    congr 1
    funext symbol
    obtain ⟨name, home, kind⟩ := symbol
    cases kind <;> simp [Symbol.under, SymbolKind.under, Symbol.meaning, Meaning.under, Origin.under_eq hδ]
  visible _ _ _ := hvisible _
  alive _ := rfl
  inside _ name _ := by
    rw [funext hδ, Option.map_id']
    rfl

end

/-! ## Inference at other places -/

/-- the spans go to other places, and that is all -/
def respanning (f : Span → Span) : Disguise where
  symbol := id
  injective := Function.injective_id
  span := f
  hidden := fun _ => False
  contents := fun _ => none

theorem respanning_keepsSymbols (f : Span → Span) : (respanning f).KeepsSymbols :=
  fun _ => rfl

def Error.respan (f : Span → Span) (e : Error) : Error :=
  { e with span := f e.span }

/-- the same outcome in the same state, with the span of an error at its new place -/
def respanned {α : Type} (f : Span → Span) (result : Except Error α × State) : Except Error α × State :=
  (result.1.mapError (·.respan f), result.2)

section

variable (f : Span → Span)

theorem disguise_respanning {α : Type} [Disguised α] (hα : ∀ a : α, disguise (respanning f) a = a) (r : Except Error α) :
    disguise (respanning f) r = r.mapError (Error.respan f) := by
  cases r with
  | ok a => exact congrArg Except.ok (hα a)
  | error e => rfl

variable (m : Module) (depth : Nat) (st : State)

/-- A computation that follows another one where only spans differ ends in the very same state. -/
theorem Infer.Follows.respanned {α : Type} [HasVars α] [Disguised α] (hα : ∀ a : α, disguise (respanning f) a = a)
    {x x' : Infer α} (h : Infer.Follows (respanning f) x x') :
    x' st = (x st).map (respanned f) := by
  have hhides : st.Hides (respanning f) := ⟨⟨False.elim, False.elim, nofun⟩, fun _ _ _ => not_false⟩
  have hrun := (h st hhides).1
  rw [State.under_eq (respanning_keepsSymbols f)] at hrun
  rw [hrun]
  congr 1
  funext result
  rw [disguise_respanning f hα, State.under_eq (respanning_keepsSymbols f)]
  rfl

theorem Module.env_respanned (names : List String) :
    Env.Agrees (respanning f) m.table (m.under (respanning f)).table names m.env (m.under (respanning f)).env := by
  have hagrees := m.table.agrees_under (respanning_keepsSymbols f) fun _ => not_false
  have hlocals : Visible (respanning f) ([] : Frame) := nofun
  refine hagrees.env (fun name _ => ?_) hlocals
  rw [funext (respanning_keepsSymbols f), Option.map_id']
  rfl

/-- An expression comes to the same at its new place, and the span of an error goes along. -/
theorem infer_respanned (e : Expr) :
    inferWithin depth (m.under (respanning f)).table (m.under (respanning f)).env (e.under (respanning f)) st =
      (inferWithin depth m.table m.env e st).map (respanned f) :=
  (infer_follows (m.table.agrees_under (respanning_keepsSymbols f) fun _ => not_false) depth
    (m.env_respanned f e.names)).respanned f st fun d => d.under_eq (respanning_keepsSymbols f)

/-- So does its projection. -/
theorem project_respanned (side : Side) (e : Expr) (shape : Option Shape) :
    projectWithin depth (m.under (respanning f)).table side (m.under (respanning f)).env (e.under (respanning f)) shape st =
      (projectWithin depth m.table side m.env e shape st).map (respanned f) :=
  (project_follows (m.table.agrees_under (respanning_keepsSymbols f) fun _ => not_false) depth side
    (m.env_respanned f e.names) shape).respanned f st (Ty.under_eq (respanning_keepsSymbols f))

/-- One expression after the other comes to the same, each in the state that the one before it leaves. -/
theorem Module.inferAll_respanned (es : List Expr) :
    (m.under (respanning f)).inferAll depth st (es.map (·.under (respanning f))) =
      (m.inferAll depth st es).map (·.map (respanned f)) := by
  induction es generalizing st with
  | nil => rfl
  | cons e es ih =>
    rw [List.map_cons, Module.inferAll, Module.inferAll, infer_respanned]
    cases inferWithin depth m.table m.env e st with
    | none => rfl
    | some result =>
      dsimp only [Option.map_some, Option.bind_eq_bind, Option.bind_some, respanned]
      rw [ih]
      cases m.inferAll depth result.2 es <;> rfl

end

/-! ## The spans of errors -/

/-- the spans of a list stay at their places, and all others move -/
def keeping (spans : List Span) (span : Span) : Span :=
  if span ∈ spans then span else ⟨span.start + 1, span.stop⟩

theorem mem_of_keeping {spans : List Span} {span : Span} (h : keeping spans span = span) : span ∈ spans := by
  by_contra hnot
  rw [keeping, if_neg hnot] at h
  exact absurd (congrArg Span.start h) (Nat.succ_ne_self _)

theorem keeping_fixes {spans spans' : List Span} (hsub : spans' ⊆ spans) : (respanning (keeping spans)).Fixes spans' :=
  fun _ hspan => if_pos (hsub hspan)

section

variable {items : List Item} {spans : List Span} (hspans : items.flatMap (·.spans) ⊆ spans)

include hspans

theorem Module.ofItems_keeping :
    Module.ofItems items = disguise (respanning (keeping spans)) (Module.ofItems items) := by
  have hitems : items.map (·.under (respanning (keeping spans))) = items :=
    map_eq_self fun item hitem => Item.under_eq (Disguise.fixes_flatMap.1 (keeping_fixes hspans) item hitem)
  have hrun := Module.ofItems_under (respanning_keepsSymbols (keeping spans)) items
  rwa [hitems] at hrun

theorem Module.span_of_error {err : Error} (h : Module.ofItems items = .error err) : err.span ∈ spans := by
  have hkept := Module.ofItems_keeping hspans
  rw [h] at hkept
  exact mem_of_keeping (congrArg Error.span (Except.error.inj hkept)).symm

variable {m : Module} (hm : Module.ofItems items = .ok m) {depth : Nat} {e : Expr} (he : e.spans ⊆ spans) {st st' : State}
  {err : Error}

include hm

theorem Module.under_keeping : m.under (respanning (keeping spans)) = m := by
  have hkept := Module.ofItems_keeping hspans
  rw [hm] at hkept
  exact (Except.ok.inj hkept).symm

omit hspans hm in
theorem span_of_kept {α : Type} {x : Option (Except Error α × State)} (hkept : x = x.map (respanned (keeping spans)))
    (hx : x = some (.error err, st')) : err.span ∈ spans := by
  rw [hx] at hkept
  have hsame : err = err.respan (keeping spans) := Except.error.inj (congrArg Prod.fst (Option.some.inj hkept))
  exact mem_of_keeping (congrArg Error.span hsame).symm

include he

theorem infer_span_of_error (h : inferWithin depth m.table m.env e st = some (.error err, st')) : err.span ∈ spans := by
  have hrun := infer_respanned (keeping spans) m depth st e
  rw [Module.under_keeping hspans hm, Expr.under_eq (keeping_fixes he)] at hrun
  exact span_of_kept hrun h

theorem project_span_of_error {side : Side} {shape : Option Shape}
    (h : projectWithin depth m.table side m.env e shape st = some (.error err, st')) : err.span ∈ spans := by
  have hrun := project_respanned (keeping spans) m depth st side e shape
  rw [Module.under_keeping hspans hm, Expr.under_eq (keeping_fixes he)] at hrun
  exact span_of_kept hrun h

end

/-! ## Main result -/

/-- **Spans only label errors.** Whatever other places the spans of a program and of some expressions go to, the program has
a module or none as before, and one expression after the other comes to the same, and so do projections: to the same side
of the duality, the same type and the same state, or to the same error with its span at the new place. The span of an error
is one in the program or in the expression that is inferred. -/
theorem spans_only_label_errors (f : Span → Span) (items : List Item) :
    Module.ofItems (items.map (·.under (respanning f))) =
      ((Module.ofItems items).map (·.under (respanning f))).mapError (·.respan f) ∧
    (∀ err, Module.ofItems items = .error err → err.span ∈ items.flatMap (·.spans)) ∧
    ∀ m, Module.ofItems items = .ok m →
      (∀ depth es, (m.under (respanning f)).inferAll depth {} (es.map (·.under (respanning f))) =
        (m.inferAll depth {} es).map (·.map (respanned f))) ∧
      (∀ depth st side e shape, projectWithin depth (m.under (respanning f)).table side (m.under (respanning f)).env
        (e.under (respanning f)) shape st = (projectWithin depth m.table side m.env e shape st).map (respanned f)) ∧
      ∀ depth st e err st', (inferWithin depth m.table m.env e st = some (.error err, st') ∨
          ∃ side shape, projectWithin depth m.table side m.env e shape st = some (.error err, st')) →
        err.span ∈ items.flatMap (·.spans) ∨ err.span ∈ e.spans := by
  refine ⟨?_, fun err herr => Module.span_of_error (List.Subset.refl _) herr, fun m hm => ⟨fun depth es => ?_,
    fun depth st => project_respanned f m depth st, ?_⟩⟩
  · rw [Module.ofItems_under (respanning_keepsSymbols f)]
    cases Module.ofItems items <;> rfl
  · exact m.inferAll_respanned f depth {} es
  · intro depth st e err st' hrun
    have hitems := List.subset_append_left (items.flatMap (·.spans)) e.spans
    have he := List.subset_append_right (items.flatMap (·.spans)) e.spans
    rw [← List.mem_append]
    rcases hrun with hrun | ⟨side, shape, hrun⟩
    · exact infer_span_of_error hitems hm he hrun
    · exact project_span_of_error hitems hm he hrun

/-- `x = y`, where `y` stands for nothing -/
def danglingProgram : List Item :=
  [.vars ⟨[⟨{ name := "x", span := ⟨4, 5⟩ }, none⟩], .name ⟨8, 9⟩ { name := "y", span := ⟨8, 9⟩ }⟩]

/-- `x`, further down in the text -/
def useOfDangling : Expr :=
  .name ⟨20, 21⟩ { name := "x", span := ⟨20, 21⟩ }

/-- With a hundred bytes in front of the program, the error that `x` leads to is a hundred bytes further. -/
theorem dangling_error_moves : ∃ m, Module.ofItems danglingProgram = .ok m ∧
    (m.inferAll 4 {} [useOfDangling]).map (·.map (·.1)) = some [.error ⟨.undefinedName "y", ⟨8, 9⟩⟩] ∧
    ((m.under (respanning fun span => ⟨span.start + 100, span.stop + 100⟩)).inferAll 4 {}
      [useOfDangling.under (respanning fun span => ⟨span.start + 100, span.stop + 100⟩)]).map (·.map (·.1)) =
        some [.error ⟨.undefinedName "y", ⟨108, 109⟩⟩] := by
  have hfirst : (Module.ofItems danglingProgram).toOption.bind
      (fun m => (m.inferAll 4 {} [useOfDangling]).map (·.map (·.1))) =
        some [.error ⟨.undefinedName "y", ⟨8, 9⟩⟩] := by decide +kernel
  obtain ⟨m, hm, hfound⟩ := Module.exists_of_bind hfirst
  have hmoved := ((spans_only_label_errors (fun span => ⟨span.start + 100, span.stop + 100⟩) danglingProgram).2.2 m hm).1
    4 [useOfDangling]
  obtain ⟨results, hresults, houtcomes⟩ := Option.map_eq_some_iff.1 hfound
  refine ⟨m, hm, hfound, ?_⟩
  rw [List.map_singleton] at hmoved
  have hsame : ∀ g : Span → Span, (results.map (respanned g)).map (·.1) =
      (results.map (·.1)).map (·.mapError (·.respan g)) := fun g => by
    rw [List.map_map, List.map_map]
    rfl
  rw [hmoved, hresults, Option.map_some, Option.map_some, hsame, houtcomes]
  rfl

end DualInference
