/-
Programs in another order.

Binding numbers the symbols in the order of their declarations, so the same program in another order, or with more
declarations in between, has its symbols under other numbers. Nothing else is different: the names that occur in the
program stand for the same declarations, whose homes are as alive as they were. The one table is thus the other one in
disguise (`Bound.agrees`), and inference does in disguise what it does without.

What is declared in addition must not be named by the program. Instances and overloads declare no names. They may be
added and moved as well, since what is attached to an owner does not change what the owner means to an expression.
-/
import DualInference.Proofs.Inference.DisguisedRules
import DualInference.Proofs.Module.Contents
import DualInference.Proofs.Module.History

namespace DualInference

open SymbolTable
open Disguised (disguise)

/-! ## Scopes that stay alive -/

namespace SymbolTable

variable {s : ScopeId} {tab tab' : SymbolTable}

/-- what a table knows of its scopes apart from the names in them -/
def outline (tab : SymbolTable) : Array (List ScopeId × Bool) :=
  tab.scopes.map fun sc => (sc.ancestors, sc.held)

theorem isHeld_eq_of_outline (h : tab'.outline = tab.outline) (s : ScopeId) : tab'.isHeld s = tab.isHeld s := by
  have hheld : ∀ tab : SymbolTable, tab.isHeld s = (tab.outline[s]?.map (·.2)).getD false := by
    intro tab
    simp [isHeld, outline, Function.comp_def]
  rw [hheld, hheld, h]

theorem alive_eq_of_outline (h : tab'.outline = tab.outline) (s : ScopeId) : tab'.alive s = tab.alive s := by
  have hancestors : ∀ (tab : SymbolTable) t, tab.ancestors t = (tab.outline[t]?.map (·.1)).getD [] := by
    intro tab t
    simp [ancestors, outline, Function.comp_def]
  have hsize : ∀ tab : SymbolTable, tab.scopes.size = tab.outline.size := by simp [outline]
  simp only [alive, hancestors, isHeld_eq_of_outline h, hsize, h]

theorem outline_bind {name : String} {id : SymbolId} (h : tab.bind s name id = some tab') : tab'.outline = tab.outline := by
  unfold bind at h
  split at h
  · cases h
  · cases h
    refine Array.ext_getElem? fun t => ?_
    simp only [outline, Array.getElem?_map, Array.getElem?_modify]
    split <;> cases tab.scopes[t]? <;> rfl

theorem outline_declare {name : Ident} {symbol : Symbol} (h : tab.declare s name symbol = .ok tab') :
    tab'.outline = tab.outline := by
  unfold declare bindIdent at h
  dsimp only at h
  split at h
  · rename_i hbind
    cases h
    have hadded : (tab.add symbol).2.outline = tab.outline := rfl
    exact (outline_bind hbind).trans hadded
  · cases h

theorem outline_declareAll {bindings : List (Ident × SymbolKind)} (h : declareAll s tab bindings = .ok tab') :
    tab'.outline = tab.outline :=
  foldlM_keeps (P := fun tab₁ => tab₁.outline = tab.outline)
    (fun _ _ _ _ hkept hdeclare => (outline_declare hdeclare).trans hkept) rfl h

/-- Binding or attaching an item opens no scope and lets go of none. -/
theorem outline_declareItem {item : Item} (h : declareItem s tab item = .ok tab') : tab'.outline = tab.outline := by
  cases hattaches : item.attaches? with
  | none =>
    rw [declareItem_of_declaring hattaches] at h
    exact outline_declareAll h
  | some attached =>
    rw [declareItem_of_attached hattaches] at h
    obtain ⟨id, -, h⟩ := except_bind_eq_ok h
    cases h
    rfl

end SymbolTable

/-- The scopes of a module are those of the empty one. -/
theorem Module.outline_ofItems {items : List Item} {m : Module} (h : Module.ofItems items = .ok m) :
    m.table.outline = Module.empty.table.outline := by
  obtain ⟨tab, htab, rfl⟩ := Module.ofItems_eq_ok.1 h
  exact foldlM_keeps (P := fun tab₁ => tab₁.outline = Module.empty.table.outline)
    (fun _ _ _ _ hkept hitem => (outline_declareItem hitem).trans hkept) rfl htab

/-- The scope of a module is alive. -/
theorem Module.alive_scope {items : List Item} {m : Module} (h : Module.ofItems items = .ok m) :
    m.table.alive m.scope = true := by
  rw [SymbolTable.alive_eq_of_outline (Module.outline_ofItems h), (Module.bound_of_ofItems h).2.2]
  decide +kernel

/-! ## The symbols of a module -/

/-- the names in the expressions of an item -/
def Item.usedNames : Item → List String
  | .predicate _ => []
  | .predicateInstance d => d.typeArgs.flatMap Expr.names
  | .aggregate _ d => d.usedNames
  | .vars d => d.usedNames
  | .procedure d => d.usedNames
  | .overloadable _ => []
  | .overload d => d.usedNames

theorem Item.usedNames_kindAt {items : List Item} {group : SymbolId} {p : Nat} {item : Item} {name : String}
    (h : name ∈ (item.kindAt items group p).usedNames) : name ∈ item.usedNames := by
  cases item with
  | aggregate kind d => exact h
  | vars d => exact h
  | procedure d => exact h
  | _ => cases h

/-- What a declared name means does not depend on what is attached to its owner. -/
theorem Item.meaning_kindAt {δ : Disguise} (hδ : δ.KeepsSpans) {items items' : List Item} {group group' : SymbolId}
    (hgroup : δ.symbol group = group') {id : SymbolId} {name : String} {home : ScopeId} {p : Nat} {item : Item} :
    Symbol.meaning (δ.symbol id) ⟨name, home, item.kindAt items' group' p⟩ =
      (Symbol.meaning id ⟨name, home, item.kindAt items group p⟩).under δ := by
  cases item with
  | aggregate kind d => simp [kindAt, Symbol.meaning, Meaning.under, Origin.under, Aggregate.under_eq (hδ.fixes d.spans)]
  | vars d => simp [kindAt, Symbol.meaning, Meaning.under, Origin.under, Variables.under_eq (hδ.fixes d.spans), hgroup]
  | procedure d => simp [kindAt, Symbol.meaning, Meaning.under, Origin.under, Procedure.under_eq (hδ.fixes d.spans)]
  | _ => rfl

/-! ## Other numbers -/

/-- the number that a symbol gets if the declared names come in another order: a name goes to its new place, and the
numbers behind the names go out of the way -/
def renumbered (base : Nat) (names names' : List String) (id : Nat) : Nat :=
  if id < base then id
  else match names[id - base]? with
    | some name => base + names'.idxOf name
    | none => id + names'.length

section

variable {base : Nat} {names names' : List String}

theorem renumbered_of_lt {id : Nat} (h : id < base) : renumbered base names names' id = id :=
  if_pos h

theorem renumbered_name {k : Nat} {name : String} (h : names[k]? = some name) :
    renumbered base names names' (base + k) = base + names'.idxOf name := by
  rw [renumbered, if_neg (by omega), Nat.add_sub_cancel_left, h]

theorem renumbered_none {k : Nat} (h : names.length ≤ k) :
    renumbered base names names' (base + k) = base + k + names'.length := by
  rw [renumbered, if_neg (by omega), Nat.add_sub_cancel_left, List.getElem?_eq_none h]

theorem renumbered_injective (hdistinct : names.Nodup) (hsub : ∀ name ∈ names, name ∈ names') :
    Function.Injective (renumbered base names names') := by
  -- a number is below the names, the place of a name, or behind the names, and so is its new one
  have hcases : ∀ id, id < base ∧ renumbered base names names' id = id ∨
      (∃ k name, id = base + k ∧ names[k]? = some name ∧ renumbered base names names' id = base + names'.idxOf name ∧
        name ∈ names') ∨
      base + names.length ≤ id ∧ renumbered base names names' id = id + names'.length := by
    intro id
    by_cases hlt : id < base
    · exact .inl ⟨hlt, renumbered_of_lt hlt⟩
    · obtain ⟨k, rfl⟩ := Nat.exists_eq_add_of_le (Nat.le_of_not_lt hlt)
      cases hk : names[k]? with
      | some name =>
        exact .inr (.inl ⟨k, name, rfl, hk, renumbered_name hk, hsub name (List.mem_of_getElem? hk)⟩)
      | none =>
        have hle := List.getElem?_eq_none_iff.1 hk
        exact .inr (.inr ⟨by omega, renumbered_none hle⟩)
  intro id id' heq
  have hplace : ∀ {name}, name ∈ names' → names'.idxOf name < names'.length := List.idxOf_lt_length_of_mem
  rcases hcases id with ⟨hlt, hid⟩ | ⟨k, name, rfl, hk, hid, hmem⟩ | ⟨hle, hid⟩ <;>
    rcases hcases id' with ⟨hlt', hid'⟩ | ⟨k', name', rfl, hk', hid', hmem'⟩ | ⟨hle', hid'⟩ <;>
    rw [hid, hid'] at heq
  case inr.inl.inr.inl =>
    obtain rfl : name = name' := (List.idxOf_inj hmem).1 (Nat.add_left_cancel heq)
    rw [(List.getElem?_inj (List.getElem?_eq_some_iff.1 hk).1 hdistinct).1 (hk.trans hk'.symm)]
  case inr.inl.inr.inr =>
    have := hplace hmem
    omega
  case inr.inr.inr.inl =>
    have := hplace hmem'
    omega
  all_goals omega

end

/-! ## The same program in another order -/

/-- a symbol, and the one that it is in the other order -/
structure Moved (items : List Item) (δ : Disguise) (id : SymbolId) (symbol symbol' : Symbol) : Prop where
  name : symbol'.name = symbol.name
  meaning : symbol'.meaning (δ.symbol id) = (symbol.meaning id).under δ
  /-- the names in a declaration are names in an item of the program -/
  used : symbol.kind.usedNames = [] ∨ symbol.home = Module.empty.scope ∧
    ∃ item ∈ items, ∀ name ∈ symbol.kind.usedNames, name ∈ item.usedNames

theorem Moved.primitive {items : List Item} {δ : Disguise} {id : SymbolId} {symbol : Symbol}
    (h : (∃ b, symbol.kind = .builtin b) ∨ ∃ op, symbol.kind = .primitive op) : Moved items δ id symbol symbol := by
  obtain ⟨name, home, kind⟩ := symbol
  rcases h with ⟨b, rfl⟩ | ⟨op, rfl⟩
  · exact ⟨rfl, rfl, .inl rfl⟩
  · exact ⟨rfl, rfl, .inl rfl⟩

section

open DualInference.Module (empty)

variable {items items' extra : List Item} (hitems : WellOrdered items) (hitems' : WellOrdered items')
  (hperm : items'.Perm (items ++ extra))

include hperm

theorem declaredNames_perm : (declaredNames items').Perm (declaredNames items ++ declaredNames extra) := by
  rw [← declaredNames_append]
  exact hperm.flatMap_right _

include hitems

/-- the symbols have the numbers of the other order, and that is all -/
def reordering : Disguise where
  symbol := renumbered empty.table.symbols.size (declaredNames items) (declaredNames items')
  injective := renumbered_injective hitems.distinct fun _ hname =>
    (declaredNames_perm hperm).mem_iff.2 (List.mem_append_left _ hname)
  span := id
  hidden := fun _ => False
  contents := fun _ => none

theorem reordering_keepsSpans : (reordering hitems hperm).KeepsSpans :=
  fun _ => rfl

-- rewritten with and not unfolded, so that nothing evaluates the number of primitives
theorem reordering_symbol (id : SymbolId) : (reordering hitems hperm).symbol id =
    renumbered empty.table.symbols.size (declaredNames items) (declaredNames items') id := by
  rw [reordering]

include hitems'

/-- The names of an item have their new numbers in the other order. -/
theorem reordering_moves {i : Nat} {item : Item} (hi : items[i]? = some item) : ∃ j, items'[j]? = some item ∧
    ∀ p ident, item.binds[p]? = some ident →
      (reordering hitems hperm).symbol (empty.table.symbols.size + (offset items i + p)) =
        empty.table.symbols.size + (offset items' j + p) := by
  obtain ⟨j, hj⟩ := List.getElem?_of_mem (hperm.mem_iff.2 (List.mem_append_left _ (List.mem_of_getElem? hi)))
  refine ⟨j, hj, fun p ident hp => ?_⟩
  have hat : DeclaredAt items i p item ident := ⟨hi, hp⟩
  have hat' : DeclaredAt items' j p item ident := ⟨hj, hp⟩
  obtain ⟨hlt, hname⟩ := List.getElem?_eq_some_iff.1 hat'.name_getElem?
  rw [reordering_symbol, renumbered_name hat.name_getElem?, ← hname, hitems'.distinct.idxOf_getElem]

variable {tab tab' : SymbolTable} (hbound : Bound items tab) (hbound' : Bound items' tab')

include hbound hbound'

/-- Names that are not declared in addition stand for corresponding symbols. -/
theorem Bound.lookup_reordered {name : String} (hname : name ∉ declaredNames extra) :
    tab'.lookup empty.scope name = (tab.lookup empty.scope name).map (reordering hitems hperm).symbol := by
  by_cases hdeclared : name ∈ declaredNames items
  · obtain ⟨k, hk⟩ := List.getElem?_of_mem hdeclared
    obtain ⟨i, p, item, ident, hat, rfl, rfl⟩ := exists_declaredAt hitems.distinct hk
    obtain ⟨j, hj, hmoved⟩ := reordering_moves hitems hitems' hperm hat.stands
    have hat' : DeclaredAt items' j p item ident := ⟨hj, hat.binds⟩
    have hown := hbound.own?_eq_some.2 ⟨_, hk, rfl⟩
    have hown' := hbound'.own?_eq_some.2 ⟨_, hat'.name_getElem?, rfl⟩
    rw [hbound.lookup, hbound'.lookup, hown, hown', Option.some_or, Option.some_or, Option.map_some,
      hmoved p ident hat.binds]
  · have hdeclared' : name ∉ declaredNames items' := by
      rw [(declaredNames_perm hperm).mem_iff, List.mem_append]
      exact not_or.2 ⟨hdeclared, hname⟩
    rw [hbound.lookup_of_undeclared hdeclared, hbound'.lookup_of_undeclared hdeclared']
    cases hown : empty.table.own? 0 name with
    | none => rfl
    | some id =>
      -- the primitives come before all declarations
      rw [Option.map_some, reordering_symbol, renumbered_of_lt (Module.own?_empty_lt hown)]

/-- The symbol of a declared name is that of the same name at its new number. -/
theorem Bound.declared_reordered {i p : Nat} {item : Item} {ident : Ident} (hat : DeclaredAt items i p item ident) :
    ∃ symbol symbol', tab.symbol? (empty.table.symbols.size + (offset items i + p)) = some symbol ∧
      tab'.symbol? ((reordering hitems hperm).symbol (empty.table.symbols.size + (offset items i + p))) = some symbol' ∧
      Moved items (reordering hitems hperm) (empty.table.symbols.size + (offset items i + p)) symbol symbol' := by
  obtain ⟨j, hj, hmoved⟩ := reordering_moves hitems hitems' hperm hat.stands
  have hat' : DeclaredAt items' j p item ident := ⟨hj, hat.binds⟩
  have hsymbol := hbound.symbol?_declared hat
  have hsymbol' := hbound'.symbol?_declared hat'
  rw [← hmoved p ident hat.binds] at hsymbol'
  -- the definition goes by the first name of the item
  have hgroup : (reordering hitems hperm).symbol (empty.table.symbols.size + offset items i) =
      empty.table.symbols.size + offset items' j := by
    have hlt : 0 < item.binds.length := Nat.zero_lt_of_lt (List.getElem?_eq_some_iff.1 hat.binds).1
    exact hmoved 0 _ (List.getElem?_eq_getElem hlt)
  refine ⟨_, _, hsymbol, hsymbol', by dsimp only, ?_, .inr ⟨by dsimp only, item, List.mem_of_getElem? hat.stands, ?_⟩⟩
  · exact Item.meaning_kindAt (reordering_keepsSpans hitems hperm) hgroup
  · exact fun name hname => Item.usedNames_kindAt hname

/-- Corresponding numbers are those of corresponding symbols, or of none. -/
theorem Bound.symbol?_reordered (id : SymbolId) :
    (tab.symbol? id = none ∧ tab'.symbol? ((reordering hitems hperm).symbol id) = none) ∨
    ∃ symbol symbol', tab.symbol? id = some symbol ∧ tab'.symbol? ((reordering hitems hperm).symbol id) = some symbol' ∧
      Moved items (reordering hitems hperm) id symbol symbol' := by
  by_cases hlt : id < empty.table.symbols.size
  · have hsame : (reordering hitems hperm).symbol id = id := by rw [reordering_symbol, renumbered_of_lt hlt]
    rw [hsame, hbound.old id hlt, hbound'.old id hlt]
    cases hsymbol : empty.table.symbol? id with
    | none => exact .inl ⟨rfl, rfl⟩
    | some symbol => exact .inr ⟨symbol, symbol, rfl, rfl, .primitive (Module.symbol?_empty_cases hsymbol)⟩
  · obtain ⟨k, hid⟩ := Nat.exists_eq_add_of_le (Nat.le_of_not_lt hlt)
    rw [hid]
    cases hk : (declaredNames items)[k]? with
    | none =>
      have hle := List.getElem?_eq_none_iff.1 hk
      have hmoved : (reordering hitems hperm).symbol (empty.table.symbols.size + k) =
          empty.table.symbols.size + (k + (declaredNames items').length) := by
        rw [reordering_symbol, renumbered_none hle, Nat.add_assoc]
      rw [hmoved]
      exact .inl ⟨hbound.symbol?_eq_none hle, hbound'.symbol?_eq_none (Nat.le_add_left _ _)⟩
    | some name =>
      obtain ⟨i, p, item, ident, hat, rfl, rfl⟩ := exists_declaredAt hitems.distinct hk
      exact .inr (hbound.declared_reordered hitems hitems' hperm hbound' hat)

/-- The module of the other order is the same module in disguise. -/
theorem Bound.agrees (houtline : tab'.outline = tab.outline)
    (hextra : ∀ name ∈ declaredNames extra, ∀ item ∈ items, name ∉ item.usedNames) :
    tab.Agrees (reordering hitems hperm) tab' where
  name id := by
    rcases hbound.symbol?_reordered hitems hitems' hperm hbound' id with ⟨hnone, hnone'⟩ |
      ⟨symbol, symbol', hsymbol, hsymbol', hmoved⟩
    · rw [nameOf, nameOf, hnone, hnone']
    · rw [nameOf, nameOf, hsymbol, hsymbol', Option.map_some, Option.map_some, hmoved.name]
  meaning id := by
    rcases hbound.symbol?_reordered hitems hitems' hperm hbound' id with ⟨hnone, hnone'⟩ |
      ⟨symbol, symbol', hsymbol, hsymbol', hmoved⟩
    · rw [meaning?, meaning?, hnone, hnone']
      rfl
    · rw [meaning?, meaning?, hsymbol, hsymbol', Option.map_some, Option.map_some, Option.map_some, hmoved.meaning]
  visible _ _ _ := not_false
  alive s := alive_eq_of_outline houtline s
  inside {id symbol} hid name hname := by
    rcases hbound.symbol?_reordered hitems hitems' hperm hbound' id with ⟨hnone, _⟩ |
      ⟨symbol₁, _, hsymbol, _, hmoved⟩
    · rw [hnone] at hid
      cases hid
    · obtain rfl : symbol₁ = symbol := Option.some.inj (hsymbol.symm.trans hid)
      rcases hmoved.used with hempty | ⟨hhome, item, hitem, hused⟩
      · rw [hempty] at hname
        cases hname
      · rw [hhome]
        exact hbound.lookup_reordered hitems hitems' hperm hbound'
          fun hdeclared => hextra name hdeclared item hitem (hused name hname)

end

/-! ## One expression after the other -/

/-- what some expressions come to in the module's scope, one after the other, each with the state it leaves -/
def Module.inferAll (m : Module) (depth : Nat) : State → List Expr → Option (List (Except Error Denotation × State))
  | _, [] => some []
  | st, e :: es => do
    let (r, st') ← inferWithin depth m.table m.env e st
    return (r, st') :: (← m.inferAll depth st' es)

section

variable {δ : Disguise} {m m' : Module}

/-- the second result is the first one under other numbers of symbols: the same side of the duality with a type that
reads the same, or the very same error; and corresponding symbols have as many answers recorded -/
structure SameUpTo (δ : Disguise) (m m' : Module) (result result' : Except Error Denotation × State) : Prop where
  outcome : result'.1 = result.1.map (·.under δ)
  display : ∀ t, result'.2.store.display m'.table.nameOf (t.under δ) = result.2.store.display m.table.nameOf t
  caches : ∀ id, (result'.2.memo.cache (δ.symbol id)).size = (result.2.memo.cache id).size

theorem sameUpTo_under (hδ : δ.KeepsSpans) (htab : m.table.Agrees δ m'.table) (result : Except Error Denotation × State) :
    SameUpTo δ m m' result (disguise δ result.1, result.2.under δ) where
  outcome := by
    cases result.1 with
    | ok d => rfl
    | error e => exact congrArg Except.error (Error.under_eq hδ e)
  display t := Store.display_under result.2.store htab.name t
  caches id := by
    rw [State.under, Memo.cache_under, Cache.size_under]

theorem outcomes_sameUpTo {results results' : List (Except Error Denotation × State)}
    (h : List.Forall₂ (SameUpTo δ m m') results results') :
    results'.map (·.1) = (results.map (·.1)).map (·.map (·.under δ)) := by
  induction h with
  | nil => rfl
  | cons h _ ih => rw [List.map_cons, List.map_cons, List.map_cons, ih, h.outcome]

theorem State.under_fresh : State.under δ {} = {} := by
  simp [State.under, Store.under, Memo.under]

/-- **A whole run.** Modules that agree in disguise come to the same on one expression after the other. -/
theorem Module.inferAll_sameUpTo (hδ : δ.KeepsSpans) (htab : m.table.Agrees δ m'.table) (depth : Nat) {es : List Expr}
    (hes : ∀ e ∈ es, ∀ name ∈ e.names, m'.table.lookup m'.scope name = (m.table.lookup m.scope name).map δ.symbol)
    {st : State} (hst : st.Hides δ) : Option.Rel (List.Forall₂ (SameUpTo δ m m')) (m.inferAll depth st es)
      (m'.inferAll depth (st.under δ) es) := by
  induction es generalizing st with
  | nil => exact .some .nil
  | cons e es ih =>
    obtain ⟨he, hes⟩ := List.forall_mem_cons.1 hes
    have hlocals : Visible δ ([] : Frame) := nofun
    have henv : Env.Agrees δ m.table m'.table e.names m.env m'.env := htab.env he hlocals
    have hfollows := infer_follows htab depth henv
    rw [Expr.under_eq (hδ.fixes _)] at hfollows
    obtain ⟨heq, hend⟩ := hfollows st hst
    unfold Module.inferAll
    rw [heq]
    cases hrun : inferWithin depth m.table m.env e st with
    | none => exact .none
    | some result =>
      have hrest := ih hes (hend result.1 result.2 hrun).1
      dsimp only [Option.map_some, Option.bind_eq_bind, Option.bind_some]
      generalize m.inferAll depth result.2 es = results at hrest ⊢
      generalize m'.inferAll depth (result.2.under δ) es = results' at hrest ⊢
      cases hrest with
      | none => exact .none
      | some h => exact .some (.cons (sameUpTo_under hδ htab result) h)

end

/-! ## Main result -/

/-- **Order and unrelated declarations do not matter.** Take a program and another one that has the same items in some
order, and possibly further items whose names the program does not mention. There is a correspondence that takes what a
name stands for in the one module to what it stands for in the other, and through which all expressions that do not
mention the further names come to the same, one after the other. -/
theorem order_does_not_matter {items items' extra : List Item} {m m' : Module} (hm : Module.ofItems items = .ok m)
    (hm' : Module.ofItems items' = .ok m') (hperm : items'.Perm (items ++ extra))
    (hextra : ∀ name ∈ declaredNames extra, ∀ item ∈ items, name ∉ item.usedNames) :
    ∃ δ : Disguise,
      (∀ name ∉ declaredNames extra,
        m'.table.lookup m'.scope name = (m.table.lookup m.scope name).map δ.symbol) ∧
      ∀ depth es, (∀ e ∈ es, ∀ name ∈ declaredNames extra, name ∉ e.names) →
        Option.Rel (List.Forall₂ (SameUpTo δ m m')) (m.inferAll depth {} es) (m'.inferAll depth {} es) := by
  obtain ⟨hitems, hbound, hscope⟩ := Module.bound_of_ofItems hm
  obtain ⟨hitems', hbound', hscope'⟩ := Module.bound_of_ofItems hm'
  have houtline : m'.table.outline = m.table.outline :=
    (Module.outline_ofItems hm').trans (Module.outline_ofItems hm).symm
  have hlookup : ∀ name ∉ declaredNames extra, m'.table.lookup m'.scope name =
      (m.table.lookup m.scope name).map (reordering hitems hperm).symbol := by
    intro name hname
    rw [hscope, hscope']
    exact hbound.lookup_reordered hitems hitems' hperm hbound' hname
  refine ⟨reordering hitems hperm, hlookup, fun depth es hes => ?_⟩
  have hagrees := hbound.agrees hitems hitems' hperm hbound' houtline hextra
  have hfresh : State.Hides (reordering hitems hperm) {} := ⟨⟨False.elim, False.elim, nofun⟩, nofun⟩
  have hnames : ∀ e ∈ es, ∀ name ∈ e.names, m'.table.lookup m'.scope name =
      (m.table.lookup m.scope name).map (reordering hitems hperm).symbol :=
    fun e he name hname => hlookup name fun hdeclared => hes e he name hdeclared hname
  have hrun := Module.inferAll_sameUpTo (reordering_keepsSpans hitems hperm) hagrees depth hnames hfresh
  rw [State.under_fresh] at hrun
  exact hrun

/-- `record Crate { box: Box[Int] }` -/
def crate : Item :=
  .aggregate .record ⟨{ name := "Crate" }, [], [⟨{ name := "box" }, .index {} (.bare "Box") [.bare "Int"]⟩]⟩

/-- the box program from its end to its beginning, after a crate -/
def crateProgram : List Item :=
  crate :: boxProgram.reverse

/-- `seed` is a box and `loop()` fails in either order, although `Box` is another symbol. -/
theorem box_order_does_not_matter : ∃ m', Module.ofItems crateProgram = .ok m' ∧
    boxModule.table.lookup boxModule.scope "Box" = some 30 ∧ m'.table.lookup m'.scope "Box" = some 35 ∧
    ∃ results results', boxModule.inferAll 8 {} [.bare "seed", .call {} (.bare "loop") []] = some results ∧
      m'.inferAll 8 {} [.bare "seed", .call {} (.bare "loop") []] = some results' ∧
      results.map (·.1) = [.ok (.value (.aggregate .record 30 [.int])), .error ⟨.recursiveInference, {}⟩] ∧
      results'.map (·.1) = [.ok (.value (.aggregate .record 35 [.int])), .error ⟨.recursiveInference, {}⟩] := by
  have hbox : boxModule.table.lookup boxModule.scope "Box" = some 30 := by decide +kernel
  have hfound' : (Module.ofItems crateProgram).toOption.bind (fun m' => m'.table.lookup m'.scope "Box") = some 35 := by
    decide +kernel
  have hrun : (boxModule.inferAll 8 {} [.bare "seed", .call {} (.bare "loop") []]).map (·.map (·.1)) =
      some [.ok (.value (.aggregate .record 30 [.int])), .error ⟨.recursiveInference, {}⟩] := by
    decide +kernel
  obtain ⟨m', hm', hbox'⟩ := Module.exists_of_bind hfound'
  have hperm : crateProgram.Perm (boxProgram ++ [crate]) :=
    ((List.reverse_perm boxProgram).cons crate).trans (List.perm_append_singleton crate boxProgram).symm
  obtain ⟨δ, hlookup, hsame⟩ := order_does_not_matter ofItems_boxProgram hm' hperm (by decide +kernel)
  have hδ : δ.symbol 30 = 35 := by
    have hfound := hlookup "Box" (by decide +kernel)
    rw [hbox] at hfound
    exact Option.some.inj (hfound.symm.trans hbox')
  obtain ⟨results, hresults, houtcomes⟩ := Option.map_eq_some_iff.1 hrun
  have hrel := hsame 8 [.bare "seed", .call {} (.bare "loop") []] (by decide +kernel)
  rw [hresults] at hrel
  cases hresults' : m'.inferAll 8 {} [.bare "seed", .call {} (.bare "loop") []] with
  | none =>
    rw [hresults'] at hrel
    cases hrel
  | some results' =>
    rw [hresults'] at hrel
    cases hrel with
    | some hall =>
      refine ⟨m', hm', hbox, hbox', results, results', hresults, hresults', houtcomes, ?_⟩
      rw [outcomes_sameUpTo hall, houtcomes]
      simp [Except.map, Denotation.under, Ty.under, Former.under, Ty.underList, Ty.aggregate, hδ]

end DualInference
