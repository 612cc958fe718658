/-
What a module holds.

The module of a program has every declaration of the program under its name, and the primitives under the names that the
program leaves free; nothing is lost on the way and nothing is made up (`Module.Holds`). Instances and overloads are
delayed attachments, yet the lists that owners end up with are those of the program, in its order (`Item.kindAt`).

The names of one variable definition share it, and that is told by their group: the number of the first symbol that the
definition declares. A definition without names has no symbol, so the groups of different definitions are told apart for
the definitions that have names, and for these the number of names before them does it (`offset_lt`).
-/
import DualInference.Proofs.Module.Acceptance
import DualInference.Session.Run

namespace DualInference

open SymbolTable

/-! ## Places of declarations -/

/-- an item declares an identifier: the index of the item, and the position among the names it declares -/
structure DeclaredAt (items : List Item) (index position : Nat) (item : Item) (ident : Ident) : Prop where
  stands : items[index]? = some item
  binds : item.binds[position]? = some ident

/-- the number of names declared before the item of an index -/
def offset (items : List Item) (index : Nat) : Nat :=
  (declaredNames (items.take index)).length

namespace DeclaredAt

variable {items : List Item} {i j p q : Nat} {item item' : Item} {ident ident' : Ident}

theorem split (h : DeclaredAt items i p item ident) : items = items.take i ++ item :: items.drop (i + 1) := by
  obtain ⟨hlt, hitem⟩ := List.getElem?_eq_some_iff.1 h.stands
  rw [← hitem, ← List.drop_eq_getElem_cons hlt, List.take_append_drop]

/-- The names of an item come before those of the later ones. -/
theorem offset_lt (h : DeclaredAt items i p item ident) (hij : i < j) : offset items i + p < offset items j := by
  have hlen : (items.take i).length = i := by
    have := (List.getElem?_eq_some_iff.1 h.stands).1
    simp only [List.length_take]
    omega
  have htake : items.take j = items.take i ++ item :: (items.drop (i + 1)).take (j - i - 1) :=
    calc items.take j = (items.take i ++ item :: items.drop (i + 1)).take j := by rw [← h.split]
      _ = items.take i ++ (item :: items.drop (i + 1)).take (j - i) := by
        rw [List.take_append, hlen, List.take_of_length_le (by omega)]
      _ = items.take i ++ item :: (items.drop (i + 1)).take (j - i - 1) := by
        rw [List.take_cons (by omega)]
  have hp := (List.getElem?_eq_some_iff.1 h.binds).1
  rw [offset, offset, htake, List.append_cons, declaredNames_append, declaredNames_append, declaredNames_singleton]
  simp only [List.length_append, List.length_map]
  omega

/-- The place of a declared name among all of them. -/
theorem name_getElem? (h : DeclaredAt items i p item ident) :
    (declaredNames items)[offset items i + p]? = some ident.name := by
  have hentry := entriesFrom_getElem? [] 0 (items.take i) (items.drop (i + 1)) h.binds
  rw [← h.split] at hentry
  rw [← names_entriesFrom [] 0, List.getElem?_map, offset, hentry]
  rfl

/-- The items that declare something are told apart by the number of names before them. -/
theorem offset_inj (h : DeclaredAt items i p item ident) (h' : DeclaredAt items j q item' ident') :
    offset items i = offset items j ↔ i = j := by
  constructor
  · intro heq
    rcases Nat.lt_trichotomy i j with hij | hij | hij
    · have := h.offset_lt hij
      omega
    · exact hij
    · have := h'.offset_lt hij
      omega
  · rintro rfl
    rfl

/-- If the declared names are distinct, each is declared at one place. -/
theorem unique (hdistinct : (declaredNames items).Nodup) (h : DeclaredAt items i p item ident)
    (h' : DeclaredAt items j q item' ident') (hname : ident.name = ident'.name) : i = j ∧ p = q := by
  have heq : offset items i + p = offset items j + q := by
    have hlt := (List.getElem?_eq_some_iff.1 h.name_getElem?).1
    rw [← List.getElem?_inj hlt hdistinct, h.name_getElem?, h'.name_getElem?, hname]
  rcases Nat.lt_trichotomy i j with hij | rfl | hij
  · have := h.offset_lt hij
    omega
  · exact ⟨rfl, by omega⟩
  · have := h'.offset_lt hij
    omega

end DeclaredAt

/-! ## Symbols of a program -/

/-- The symbols of the empty module are primitives. -/
theorem Module.symbol?_empty_cases {id : SymbolId} {symbol : Symbol} (h : Module.empty.table.symbol? id = some symbol) :
    (∃ b, symbol.kind = .builtin b) ∨ ∃ op, symbol.kind = .primitive op := by
  rw [Module.symbol?_primitive] at h
  obtain ⟨entry, hentry, rfl⟩ := Option.map_eq_some_iff.1 h
  rcases kind_of_primitive (List.mem_of_getElem? hentry) with ⟨b, rfl⟩ | ⟨op, rfl⟩
  · exact .inl ⟨b, rfl⟩
  · exact .inr ⟨op, rfl⟩

theorem Module.own?_empty_lt {name : String} {id : SymbolId} (h : Module.empty.table.own? 0 name = some id) :
    id < Module.empty.table.symbols.size := by
  have hprimitive := Module.own?_primitive.1 h
  rw [List.getElem?_map] at hprimitive
  obtain ⟨entry, hentry, _⟩ := Option.map_eq_some_iff.1 hprimitive
  have hsymbol := Module.symbol?_primitive id
  rw [hentry] at hsymbol
  exact symbol?_lt hsymbol

theorem exists_declaredAt {items : List Item} (hdistinct : (declaredNames items).Nodup) {k : Nat} {name : String}
    (h : (declaredNames items)[k]? = some name) :
    ∃ i p item ident, DeclaredAt items i p item ident ∧ ident.name = name ∧ k = offset items i + p := by
  obtain ⟨item, hitem, ident, hident, rfl⟩ := mem_declaredNames.1 (List.mem_of_getElem? h)
  obtain ⟨i, hi⟩ := List.getElem?_of_mem hitem
  obtain ⟨p, hp⟩ := List.getElem?_of_mem hident
  have hat : DeclaredAt items i p item ident := ⟨hi, hp⟩
  refine ⟨i, p, item, ident, hat, rfl, ?_⟩
  exact (List.getElem?_inj (List.getElem?_eq_some_iff.1 h).1 hdistinct).1 (h.trans hat.name_getElem?.symm)

namespace Bound

open DualInference.Module (empty)

variable {items : List Item} {tab : SymbolTable}

/-- The symbol of a declared name has the place of the name. -/
theorem symbol?_declared (h : Bound items tab) {i p : Nat} {item : Item} {ident : Ident}
    (hat : DeclaredAt items i p item ident) :
    tab.symbol? (empty.table.symbols.size + (offset items i + p)) =
      some ⟨ident.name, empty.scope, item.kindAt items (empty.table.symbols.size + offset items i) p⟩ := by
  have hentry := entriesFrom_getElem? items empty.table.symbols.size (items.take i) (items.drop (i + 1)) hat.binds
  rw [← hat.split] at hentry
  rw [h.new, offset, hentry]
  rfl

/-- Behind the declared names there is nothing. -/
theorem symbol?_eq_none (h : Bound items tab) {k : Nat} (hk : (declaredNames items).length ≤ k) :
    tab.symbol? (empty.table.symbols.size + k) = none := by
  rw [h.new, List.getElem?_eq_none, Option.map_none]
  rwa [← List.length_map (·.1), names_entriesFrom]

/-- A symbol is that of a primitive or of a declared name. -/
theorem symbol?_cases (h : Bound items tab) (hitems : WellOrdered items) {id : SymbolId} {symbol : Symbol}
    (hid : tab.symbol? id = some symbol) :
    ((∃ b, symbol.kind = .builtin b) ∨ ∃ op, symbol.kind = .primitive op) ∨
    ∃ i p item ident, DeclaredAt items i p item ident ∧ id = empty.table.symbols.size + (offset items i + p) ∧
      symbol = ⟨ident.name, empty.scope, item.kindAt items (empty.table.symbols.size + offset items i) p⟩ := by
  by_cases hlt : id < empty.table.symbols.size
  · rw [h.old id hlt] at hid
    exact .inl (Module.symbol?_empty_cases hid)
  · obtain ⟨k, hk⟩ := Nat.exists_eq_add_of_le (Nat.le_of_not_lt hlt)
    rw [hk] at hid
    cases hname : (declaredNames items)[k]? with
    | none =>
      rw [h.symbol?_eq_none (List.getElem?_eq_none_iff.1 hname)] at hid
      cases hid
    | some name =>
      obtain ⟨i, p, item, ident, hat, -, rfl⟩ := exists_declaredAt hitems.distinct hname
      rw [h.symbol?_declared hat] at hid
      exact .inr ⟨i, p, item, ident, hat, hk, (Option.some.inj hid).symm⟩

/-- A symbol that is no primitive has the kind of an item. -/
theorem kind_cases (h : Bound items tab) (hitems : WellOrdered items) {id : SymbolId} {name : String} {home : ScopeId}
    {kind : SymbolKind} (hid : tab.symbol? id = some ⟨name, home, kind⟩) :
    ((∃ b, kind = .builtin b) ∨ ∃ op, kind = .primitive op) ∨
    ∃ item ∈ items, ∃ group position, kind = item.kindAt items group position := by
  rcases h.symbol?_cases hitems hid with hprimitive | ⟨i, p, item, ident, hat, -, hdeclared⟩
  · exact .inl hprimitive
  · exact .inr ⟨item, List.mem_of_getElem? hat.stands, _, p, congrArg Symbol.kind hdeclared⟩

theorem procedure_mem (h : Bound items tab) (hitems : WellOrdered items) {id : SymbolId} {name : String} {home : ScopeId}
    {d : Procedure} (hid : tab.symbol? id = some ⟨name, home, .procedure d⟩) : .procedure d ∈ items := by
  obtain (⟨b, hb⟩ | ⟨op, hop⟩) | ⟨item, hitem, group, position, hkind⟩ := h.kind_cases hitems hid
  · cases hb
  · cases hop
  · cases item with
    | procedure d' =>
      cases hkind
      exact hitem
    | _ => cases hkind

theorem vars_mem (h : Bound items tab) (hitems : WellOrdered items) {id : SymbolId} {name : String} {home : ScopeId}
    {d : Variables} {group : SymbolId} {position : Nat}
    (hid : tab.symbol? id = some ⟨name, home, .global d group position⟩) : .vars d ∈ items := by
  obtain (⟨b, hb⟩ | ⟨op, hop⟩) | ⟨item, hitem, group', position', hkind⟩ := h.kind_cases hitems hid
  · cases hb
  · cases hop
  · cases item with
    | vars d' =>
      cases hkind
      exact hitem
    | _ => cases hkind

/-- A name stands for a primitive or for what an item declares under it. -/
theorem declaredAt_of_lookup (h : Bound items tab) (hitems : WellOrdered items) {name : String} {id : SymbolId}
    {symbol : Symbol} (hid : tab.lookup empty.scope name = some id) (hsymbol : tab.symbol? id = some symbol) :
    ((∃ b, symbol.kind = .builtin b) ∨ ∃ op, symbol.kind = .primitive op) ∨
    ∃ i p item ident, DeclaredAt items i p item ident ∧ ident.name = name ∧
      id = empty.table.symbols.size + (offset items i + p) ∧
      symbol = ⟨ident.name, empty.scope, item.kindAt items (empty.table.symbols.size + offset items i) p⟩ := by
  by_cases hname : name ∈ declaredNames items
  · obtain ⟨k, hk⟩ := List.getElem?_of_mem hname
    obtain ⟨i, p, item, ident, hat, hident, rfl⟩ := exists_declaredAt hitems.distinct hk
    rw [h.lookup, h.own?_eq_some.2 ⟨_, hk, rfl⟩, Option.some_or] at hid
    cases hid
    rw [h.symbol?_declared hat] at hsymbol
    exact .inr ⟨i, p, item, ident, hat, hident, rfl, (Option.some.inj hsymbol).symm⟩
  · rw [h.lookup_of_undeclared hname] at hid
    rw [h.old id (Module.own?_empty_lt hid)] at hsymbol
    exact .inl (Module.symbol?_empty_cases hsymbol)

/-- A name that stands for a variable is declared as one. -/
theorem variable_of_lookup (h : Bound items tab) (hitems : WellOrdered items) {name : String} {id : SymbolId}
    {symbol : Symbol} (hid : tab.lookup empty.scope name = some id) (hsymbol : tab.symbol? id = some symbol)
    {d : Variables} {group : SymbolId} {position : Nat} (hkind : symbol.kind = .global d group position) :
    .vars d ∈ items ∧ ∃ v ∈ d.names, v.name.name = name := by
  rcases h.declaredAt_of_lookup hitems hid hsymbol with (⟨b, hb⟩ | ⟨op, hop⟩) | ⟨i, p, item, ident, hat, rfl, -, rfl⟩
  · cases hb.symm.trans hkind
  · cases hop.symm.trans hkind
  · cases item with
    | vars d' =>
      cases hkind
      obtain ⟨v, hv, rfl⟩ := List.mem_map.1 (List.mem_of_getElem? hat.binds)
      exact ⟨List.mem_of_getElem? hat.stands, v, hv, rfl⟩
    | _ => cases hkind

end Bound

/-! ## Contents -/

namespace Module

/-- a name of the module stands for a symbol -/
def Means (m : Module) (name : String) (symbol : Symbol) : Prop :=
  ∃ id, m.table.lookup m.scope name = some id ∧ m.table.symbol? id = some symbol

/-- the module holds what a program declares, the primitives, and nothing else -/
structure Holds (m : Module) (items : List Item) (group : Nat → SymbolId) : Prop where
  /-- no name is declared twice -/
  unique : ∀ {i j p q item item' ident ident'}, DeclaredAt items i p item ident → DeclaredAt items j q item' ident' →
    ident.name = ident'.name → i = j ∧ p = q
  /-- a declared name is what its item makes of it in the program -/
  declared : ∀ {i p item ident}, DeclaredAt items i p item ident →
    m.Means ident.name ⟨ident.name, m.scope, item.kindAt items (group i) p⟩
  /-- names are of one group if they are of one item -/
  groups : ∀ {i j p q item item' ident ident'}, DeclaredAt items i p item ident → DeclaredAt items j q item' ident' →
    (group i = group j ↔ i = j)
  /-- a built-in type has its name unless the program declares it -/
  builtin : ∀ b : Builtin, b.name ∉ declaredNames items → ∃ outer ∈ m.table.ancestors m.scope,
    m.Means b.name ⟨b.name, outer, .builtin b⟩
  /-- a primitive operation has its name unless the program declares it -/
  operation : ∀ op : Operation, op.name ∉ declaredNames items → ∃ outer ∈ m.table.ancestors m.scope,
    m.Means op.name ⟨op.name, outer, .primitive op⟩
  /-- other names mean nothing -/
  unknown : ∀ {name}, name ∉ declaredNames items → ¬IsPrimitive name → m.table.lookup m.scope name = none

end Module

/-- The module of a program holds the program. -/
theorem Bound.holds {items : List Item} {m : Module} (h : Bound items m.table) (hitems : WellOrdered items)
    (hscope : m.scope = Module.empty.scope) :
    m.Holds items fun i => Module.empty.table.symbols.size + offset items i where
  unique hi hj := DeclaredAt.unique hitems.distinct hi hj
  declared {i p item ident} hi := by
    have hsplit := hi.split
    rw [hsplit] at h
    have hfound := h.lookup_declared hi.binds
    rw [← hsplit, ← hscope] at hfound
    exact hfound
  groups hi hj := by
    rw [← hi.offset_inj hj]
    exact Nat.add_left_cancel_iff
  builtin b hb := by
    rw [h.ancestors, hscope, Module.ancestors_empty]
    refine ⟨0, by simp, ?_⟩
    rw [Module.Means, hscope]
    exact h.lookup_primitive (builtin_mem_primitives b) hb
  operation op hop := by
    rw [h.ancestors, hscope, Module.ancestors_empty]
    refine ⟨0, by simp, ?_⟩
    rw [Module.Means, hscope]
    exact h.lookup_primitive (operation_mem_primitives op) hop
  unknown hname hprimitive := by
    rw [hscope, h.lookup_of_undeclared hname, Module.own?_eq_none_of_not_primitive hprimitive]

/-! ## Main result -/

/-- **The module of a program is exactly the program.** Every name stands for what the one item that declares it makes
of it, with the instances or overloads of its name in order; names that are not declared stand for primitives or for
nothing; and nothing is inferred yet. -/
theorem module_is_program {items : List Item} {m : Module} (hm : Module.ofItems items = .ok m) :
    (∃ group, m.Holds items group) ∧ ∀ id, ((Session.ofModule m).state.memo.cache id).isEmpty = true := by
  obtain ⟨hitems, hbound, hscope⟩ := Module.bound_of_ofItems hm
  exact ⟨⟨_, hbound.holds hitems hscope⟩, fun _ => rfl⟩

def eqPredicate : Predicate :=
  ⟨{ name := "Eq" }, [{ name := "T" }]⟩

def eqInstance (type : String) : PredicateInstance :=
  ⟨{ name := "Eq" }, [], [.name {} { name := type }]⟩

def pairVariables : Variables :=
  ⟨[⟨{ name := "a" }, none⟩, ⟨{ name := "b" }, none⟩], .tuple {} [.int {} 1, .int {} 2]⟩

/-- a predicate whose two instances have an overloadable between them, a definition of two variables, and a procedure
under the name of a primitive -/
def mixedProgram : List Item :=
  [.predicate eqPredicate, .predicateInstance (eqInstance "Int"), .overloadable { name := "show" },
    .vars pairVariables, .predicateInstance (eqInstance "Char"),
    .procedure ⟨{ name := "intAdd" }, [], [], [], none, some (.bool {} true), {}⟩]

theorem mixed_module_is_program : ∃ m group, Module.ofItems mixedProgram = .ok m ∧ m.Holds mixedProgram group ∧
    m.Means "Eq" ⟨"Eq", m.scope, .predicate eqPredicate [eqInstance "Int", eqInstance "Char"]⟩ ∧
    m.Means "b" ⟨"b", m.scope, .global pairVariables (group 3) 1⟩ ∧
    ∀ id, ((Session.ofModule m).state.memo.cache id).isEmpty = true := by
  have hok : (Module.ofItems mixedProgram).isOk = true := by decide +kernel
  obtain ⟨m, hm⟩ := Module.ofItems_of_isOk hok
  obtain ⟨⟨group, hholds⟩, hcaches⟩ := module_is_program hm
  have heq : DeclaredAt mixedProgram 0 0 (.predicate eqPredicate) { name := "Eq" } := ⟨rfl, rfl⟩
  have hb : DeclaredAt mixedProgram 3 1 (.vars pairVariables) { name := "b" } := ⟨rfl, rfl⟩
  exact ⟨m, group, hm, hholds, hholds.declared heq, hholds.declared hb, hcaches⟩

end DualInference
