/-
Declarations in a scope, one after the other.

Every way to put names into a table comes to the same (`SymbolTable.Declares`): the new symbols stand behind the old ones
in the order of their declaration, the scope binds each new name to its symbol, and nothing else has changed. A single
declaration does this if the name is new, the names of a variable definition and the primitives do it one by one, and it
can be composed. A change of kind made later to one of the new symbols is a change of what was declared
(`Declares.modifyKind`).
-/
import DualInference.Proofs.Module.Table

namespace DualInference

namespace SymbolTable

variable {s : ScopeId} {tab tab' tab'' : SymbolTable}

/-- the second table is the first one with names of the given kinds declared in a scope, in order -/
structure Declares (s : ScopeId) (tab : SymbolTable) (entries : List (String × SymbolKind)) (tab' : SymbolTable) :
    Prop where
  scopes : tab'.scopes.size = tab.scopes.size
  ancestors : ∀ s', tab'.ancestors s' = tab.ancestors s'
  other : ∀ s' ≠ s, ∀ name, tab'.own? s' name = tab.own? s' name
  own : ∀ (name : String) (id : Nat), tab'.own? s name = some id ↔
    tab.own? s name = some id ∨ ∃ k, (entries.map (·.1))[k]? = some name ∧ id = tab.symbols.size + k
  size : tab'.symbols.size = tab.symbols.size + entries.length
  old : ∀ id : Nat, id < tab.symbols.size → tab'.symbol? id = tab.symbol? id
  new : ∀ k : Nat, tab'.symbol? (tab.symbols.size + k) = entries[k]?.map fun entry => ⟨entry.1, s, entry.2⟩

namespace Declares

variable {entries entries' : List (String × SymbolKind)}

theorem refl (s : ScopeId) (tab : SymbolTable) : Declares s tab [] tab where
  scopes := rfl
  ancestors _ := rfl
  other _ _ _ := rfl
  own name id := by simp
  size := rfl
  old _ _ := rfl
  new k := by simp [symbol?]

theorem append (h : Declares s tab entries tab') (h' : Declares s tab' entries' tab'') :
    Declares s tab (entries ++ entries') tab'' where
  scopes := h'.scopes.trans h.scopes
  ancestors s' := (h'.ancestors s').trans (h.ancestors s')
  other s' hs' name := (h'.other s' hs' name).trans (h.other s' hs' name)
  own name id := by
    rw [h'.own, h.own, or_assoc, h.size, List.map_append]
    refine or_congr_right ⟨?_, ?_⟩
    · rintro (⟨k, hk, rfl⟩ | ⟨k, hk, rfl⟩)
      · refine ⟨k, ?_, rfl⟩
        rw [List.getElem?_append_left (List.getElem?_eq_some_iff.1 hk).1, hk]
      · refine ⟨entries.length + k, ?_, by omega⟩
        rw [List.getElem?_append_right (by simp), ← hk]
        simp
    · rintro ⟨k, hk, rfl⟩
      by_cases hlt : k < entries.length
      · exact .inl ⟨k, by rwa [List.getElem?_append_left (by simpa using hlt)] at hk, rfl⟩
      · rw [List.getElem?_append_right (by simpa using hlt), List.length_map] at hk
        exact .inr ⟨k - entries.length, hk, by omega⟩
  size := by
    rw [h'.size, h.size, List.length_append]
    omega
  old id hid := by
    rw [h'.old id (by rw [h.size]; omega), h.old id hid]
  new k := by
    by_cases hk : k < entries.length
    · rw [h'.old _ (by rw [h.size]; omega), h.new, List.getElem?_append_left hk]
    · have hadd : tab.symbols.size + k = tab'.symbols.size + (k - entries.length) := by
        rw [h.size]
        omega
      rw [hadd, h'.new, List.getElem?_append_right (by omega)]

/-- A change of kind of a new symbol is a change of what was declared. -/
theorem modifyKind (h : Declares s tab entries tab') (k : Nat) (f : SymbolKind → SymbolKind) :
    Declares s tab (entries.modify k fun entry => (entry.1, f entry.2)) (tab'.modifyKind (tab.symbols.size + k) f) where
  scopes := h.scopes
  ancestors := h.ancestors
  other := h.other
  own name id := by
    have hnames : (entries.modify k fun entry => (entry.1, f entry.2)).map (·.1) = entries.map (·.1) := by
      refine List.ext_getElem? fun i => ?_
      simp only [List.getElem?_map, List.getElem?_modify]
      split <;> cases entries[i]? <;> rfl
    rw [hnames]
    exact h.own name id
  size := by
    rw [List.length_modify, ← h.size]
    exact Array.size_modify
  old id hid := by
    rw [symbol?_modifyKind, h.old id hid]
    have hne : id ≠ tab.symbols.size + k := by omega
    simp [hne]
  new i := by
    rw [symbol?_modifyKind, h.new, List.getElem?_modify]
    by_cases hik : i = k
    · subst hik
      cases entries[i]? <;> simp
    · cases entries[i]? <;> simp [hik, Ne.symm hik]

/-- A name is looked up among the new ones first. -/
theorem lookup (h : Declares s tab entries tab') (hs : s ∉ tab.ancestors s) (name : String) :
    tab'.lookup s name = (tab'.own? s name).or ((tab.ancestors s).findSome? (tab.own? · name)) := by
  have houter : (tab.ancestors s).findSome? (tab'.own? · name) = (tab.ancestors s).findSome? (tab.own? · name) := by
    have hne : ∀ s' ∈ tab.ancestors s, tab'.own? s' name = tab.own? s' name :=
      fun s' hs' => h.other s' (fun heq => hs (heq ▸ hs')) name
    generalize tab.ancestors s = outer at hne
    induction outer with
    | nil => rfl
    | cons s' outer ih =>
      rw [List.findSome?_cons, List.findSome?_cons, hne s' (by simp), ih fun s'' hs'' => hne s'' (by simp [hs''])]
  unfold SymbolTable.lookup
  rw [List.findSome?_cons, h.ancestors, houter]
  cases tab'.own? s name <;> rfl

theorem own?_of_getElem? (h : Declares s tab entries tab') {k : Nat} {entry : String × SymbolKind}
    (hk : entries[k]? = some entry) : tab'.own? s entry.1 = some (tab.symbols.size + k) := by
  rw [h.own]
  exact .inr ⟨k, by rw [List.getElem?_map, hk]; rfl, rfl⟩

/-- The scope binds what it did and the declared names, and nothing else. -/
theorem own?_eq_none (h : Declares s tab entries tab') {name : String} :
    tab'.own? s name = none ↔ tab.own? s name = none ∧ name ∉ entries.map (·.1) := by
  simp only [Option.eq_none_iff_forall_ne_some]
  constructor
  · intro hnone
    refine ⟨fun id hid => hnone id ((h.own name id).2 (.inl hid)), fun hmem => ?_⟩
    obtain ⟨k, hk⟩ := List.getElem?_of_mem hmem
    exact hnone _ ((h.own name _).2 (.inr ⟨k, hk, rfl⟩))
  · rintro ⟨hnone, hmem⟩ id hid
    rcases (h.own name id).1 hid with hold | ⟨k, hk, -⟩
    · exact hnone id hold
    · exact hmem (List.mem_of_getElem? hk)

end Declares

/-! ## One declaration -/

theorem own?_of_bind {name : String} {id : SymbolId} (h : tab.bind s name id = some tab') : tab.own? s name = none := by
  unfold bind at h
  split at h
  · cases h
  · assumption

theorem exists_bind {name : String} (id : SymbolId) (h : tab.own? s name = none) : ∃ tab', tab.bind s name id = some tab' := by
  unfold bind
  rw [h]
  exact ⟨_, rfl⟩

/-- A binding is felt in its own scope only. -/
theorem bind_frame {name : String} {id : SymbolId} (h : tab.bind s name id = some tab') :
    tab'.symbols = tab.symbols ∧ tab'.scopes.size = tab.scopes.size ∧ (∀ s', tab'.ancestors s' = tab.ancestors s') ∧
      ∀ s' ≠ s, ∀ name', tab'.own? s' name' = tab.own? s' name' := by
  unfold bind at h
  split at h
  · cases h
  · cases h
    refine ⟨rfl, Array.size_modify, fun s' => ?_, fun s' hs' name' => ?_⟩
    · unfold ancestors
      dsimp only
      rw [Array.getElem?_modify]
      split <;> cases tab.scopes[s']? <;> rfl
    · unfold own? names
      dsimp only
      rw [Array.getElem?_modify, if_neg (Ne.symm hs')]

theorem symbols_bindIdent {name : Ident} {id : SymbolId}
    (h : tab.bindIdent s name id = .ok tab') : tab'.symbols = tab.symbols := by
  unfold bindIdent at h
  split at h
  · rename_i hbind
    cases h
    exact (bind_frame hbind).1
  · cases h

/-- A symbol that is added and bound to its name is declared. -/
theorem declares_of_bind (symbol : Symbol) (hs : s < tab.scopes.size) (hhome : symbol.home = s)
    (h : (tab.add symbol).2.bind s symbol.name tab.symbols.size = some tab') :
    Declares s tab [(symbol.name, symbol.kind)] tab' := by
  obtain ⟨hsymbols, hscopes, hancestors, hother⟩ := bind_frame h
  have hnone : tab.own? s symbol.name = none := by
    have hbind := own?_of_bind h
    exact hbind
  have hown : ∀ name', tab'.own? s name' = if name' = symbol.name then some tab.symbols.size else tab.own? s name' := by
    have hbind := own?_bind h hs
    exact hbind
  have hsymbol : ∀ id, tab'.symbol? id = if id = tab.symbols.size then some symbol else tab.symbol? id :=
    symbol?_push hsymbols
  refine ⟨hscopes, hancestors, hother, fun name' id => ?_, ?_, fun id hid => ?_, fun k => ?_⟩
  · rw [hown]
    by_cases hname : name' = symbol.name
    · simp [hname, hnone, List.getElem?_cons, eq_comm]
    · simp [hname, List.getElem?_cons, Ne.symm hname]
  · rw [hsymbols]
    exact Array.size_push ..
  · rw [hsymbol, if_neg (Nat.ne_of_lt hid)]
  · rw [hsymbol]
    cases k with
    | zero =>
      subst hhome
      simp
    | succ k =>
      have hne : tab.symbols.size + (k + 1) ≠ tab.symbols.size := by omega
      rw [if_neg hne, symbol?, Array.getElem?_eq_none (Nat.le_add_right _ _)]
      rfl

theorem declare_of_own? {name : Ident} {symbol : Symbol} {id : SymbolId} (h : tab.own? s name.name = some id) :
    tab.declare s name symbol = .error ⟨.nameRedefinition name.name, name.span⟩ := by
  have hown : (tab.add symbol).2.own? s name.name = some id := h
  unfold declare bindIdent bind
  dsimp only
  rw [hown]

/-- A new name is declared. -/
theorem declare_of_new {name : Ident} (kind : SymbolKind) (hs : s < tab.scopes.size)
    (h : tab.own? s name.name = none) : ∃ tab', tab.declare s name ⟨name.name, s, kind⟩ = .ok tab' ∧
      Declares s tab [(name.name, kind)] tab' := by
  have hown : (tab.add ⟨name.name, s, kind⟩).2.own? s name.name = none := h
  obtain ⟨tab', htab'⟩ := exists_bind tab.symbols.size hown
  refine ⟨tab', ?_, declares_of_bind ⟨name.name, s, kind⟩ hs rfl htab'⟩
  unfold declare bindIdent
  dsimp only
  rw [show (tab.add ⟨name.name, s, kind⟩).1 = tab.symbols.size from rfl, htab']

/-! ## Several declarations -/

/-- Symbols of different names, none of them bound before, are all declared. -/
theorem bindAll_declares (hs : s < tab.scopes.size) {entries : List (String × SymbolKind)}
    (hdistinct : (entries.map (·.1)).Nodup) (hnew : ∀ name ∈ entries.map (·.1), tab.own? s name = none) :
    Declares s tab entries (tab.bindAll s entries) := by
  induction entries generalizing tab with
  | nil => exact .refl s tab
  | cons entry entries ih =>
    obtain ⟨name, kind⟩ := entry
    obtain ⟨hname, hdistinct⟩ := List.nodup_cons.1 hdistinct
    have hown : (tab.add ⟨name, s, kind⟩).2.own? s name = none := hnew name (by simp)
    obtain ⟨tab', htab'⟩ := exists_bind tab.symbols.size hown
    have hfirst := declares_of_bind ⟨name, s, kind⟩ hs rfl htab'
    have hrest : Declares s tab' entries (tab'.bindAll s entries) := by
      refine ih (hfirst.scopes ▸ hs) hdistinct fun name' hname' => hfirst.own?_eq_none.2 ⟨?_, ?_⟩
      · exact hnew name' (List.mem_cons_of_mem name hname')
      · rintro hmem
        obtain rfl := List.mem_singleton.1 hmem
        exact hname hname'
    have hcons := hfirst.append hrest
    unfold bindAll at hcons ⊢
    rw [List.foldl_cons]
    dsimp only
    rwa [show (tab.add ⟨name, s, kind⟩).1 = tab.symbols.size from rfl, htab', Option.getD_some]

/-! ## The primitives -/

theorem primitives_distinct : (primitives.map (·.1)).Nodup := by
  decide +kernel

/-- A scope of primitives declares the primitives. -/
theorem openPrimitives_declares (tab : SymbolTable) :
    Declares tab.scopes.size (tab.openScope []).2 primitives tab.openPrimitives.2 := by
  rw [openPrimitives_snd]
  refine bindAll_declares ?_ primitives_distinct fun name _ => ?_
  · simp [openScope]
  · simp [own?, names, openScope]

/-! ## Scopes -/

theorem scopes_letGo (tab : SymbolTable) (s : ScopeId) : (tab.letGo s).scopes.size = tab.scopes.size := by
  simp [letGo]

theorem own?_letGo (tab : SymbolTable) (s s' : ScopeId) (name : String) : (tab.letGo s).own? s' name = tab.own? s' name := by
  unfold own? names letGo
  dsimp only
  rw [Array.getElem?_modify]
  split <;> cases tab.scopes[s']? <;> rfl

theorem ancestors_letGo (tab : SymbolTable) (s s' : ScopeId) : (tab.letGo s).ancestors s' = tab.ancestors s' := by
  unfold ancestors letGo
  dsimp only
  rw [Array.getElem?_modify]
  split <;> cases tab.scopes[s']? <;> rfl

/-- A new scope binds nothing, and the others bind what they did. -/
theorem own?_openScope (tab : SymbolTable) (outer : List ScopeId) (s : ScopeId) (name : String) :
    (tab.openScope outer).2.own? s name = tab.own? s name := by
  unfold own? names openScope
  dsimp only
  rw [Array.getElem?_push]
  split
  · rename_i h
    rw [h, Array.getElem?_eq_none (Nat.le_refl _)]
    rfl
  · rfl

theorem own?_of_size_le {tab : SymbolTable} {s : ScopeId} (h : tab.scopes.size ≤ s) (name : String) :
    tab.own? s name = none := by
  unfold own? names
  rw [Array.getElem?_eq_none h]
  rfl

theorem ancestors_openScope (tab : SymbolTable) (outer : List ScopeId) :
    (tab.openScope outer).2.ancestors tab.scopes.size = outer := by
  unfold ancestors openScope
  dsimp only
  rw [Array.getElem?_push, if_pos rfl]
  rfl

end SymbolTable

/-! ## Names of primitives -/

/-- the name of a built-in type or a primitive operation -/
def IsPrimitive (name : String) : Prop :=
  (∃ b : Builtin, b.name = name) ∨ ∃ op : Operation, op.name = name

theorem Builtin.mem_all (b : Builtin) : b ∈ all := by
  cases b with
  | scalar s => cases s <;> decide
  | array => decide
  | arrayValue => decide
  | ref => decide

theorem ScalarOp.mem_all (op : ScalarOp) : op ∈ all := by
  cases op with
  | charCompare c => cases c <;> decide
  | intArith a => cases a <;> decide
  | intCompare c => cases c <;> decide
  | boolNot => decide
  | charToInt => decide
  | intToChar => decide
  | intNegate => decide

theorem Operation.mem_all (op : Operation) : op ∈ all := by
  cases op with
  | scalar op => exact List.mem_append_right _ (List.mem_map_of_mem op.mem_all)
  | default => decide
  | array => decide
  | arraySize => decide
  | arrayValue => decide

namespace SymbolTable

theorem builtin_mem_primitives (b : Builtin) : (b.name, .builtin b) ∈ primitives :=
  List.mem_append_left _ (List.mem_map_of_mem b.mem_all)

theorem operation_mem_primitives (op : Operation) : (op.name, .primitive op) ∈ primitives :=
  List.mem_append_right _ (List.mem_map_of_mem op.mem_all)

theorem isPrimitive_iff {name : String} : IsPrimitive name ↔ name ∈ primitives.map (·.1) := by
  constructor
  · rintro (⟨b, rfl⟩ | ⟨op, rfl⟩)
    · exact List.mem_map_of_mem (builtin_mem_primitives b)
    · exact List.mem_map_of_mem (operation_mem_primitives op)
  · intro hname
    obtain ⟨entry, hentry, rfl⟩ := List.mem_map.1 hname
    rcases kind_of_primitive hentry with ⟨b, rfl⟩ | ⟨op, rfl⟩
    · exact .inl ⟨b, rfl⟩
    · exact .inr ⟨op, rfl⟩

end SymbolTable

/-! ## The empty module -/

namespace Module

open SymbolTable

/-- The outermost scope holds the primitives. -/
theorem declares_primitives : Declares 0 (openScope {} []).2 primitives (openPrimitives {}).2 :=
  openPrimitives_declares {}

theorem scopes_primitives : (openPrimitives {}).2.scopes.size = 1 :=
  declares_primitives.scopes

theorem fst_openPrimitives : (openPrimitives {}).1 = 0 := by
  simp only [openPrimitives, openScope]
  rfl

theorem empty_scope : empty.scope = 1 := by
  have hsize : ((openPrimitives {}).2.letGo (openPrimitives {}).1).scopes.size = 1 := by
    rw [scopes_letGo, scopes_primitives]
  rw [← hsize, empty]
  simp only [openChild, openScope]

theorem own?_empty (s : ScopeId) (name : String) : empty.table.own? s name = (openPrimitives {}).2.own? s name := by
  rw [table_empty, openChild, own?_openScope, own?_letGo]

/-- The module's own scope is empty at first. -/
theorem own?_empty_scope (name : String) : empty.table.own? empty.scope name = none := by
  rw [own?_empty]
  exact own?_of_size_le (by simp only [scopes_primitives, empty_scope, Nat.le_refl]) name

/-- Around it there are only the primitives. -/
theorem ancestors_empty : empty.table.ancestors empty.scope = [0] := by
  have hsize : ((openPrimitives {}).2.letGo (openPrimitives {}).1).scopes.size = empty.scope := by
    rw [scopes_letGo, scopes_primitives, empty_scope]
  rw [table_empty, openChild, ← hsize, ancestors_openScope, ancestors_letGo, fst_openPrimitives,
    declares_primitives.ancestors]
  rfl

theorem own?_primitive {name : String} {id : Nat} :
    empty.table.own? 0 name = some id ↔ (primitives.map (·.1))[id]? = some name := by
  have hnone : (openScope {} []).2.own? 0 name = none := rfl
  have hsize : (openScope {} []).2.symbols.size = 0 := rfl
  rw [own?_empty, declares_primitives.own, hnone, hsize]
  simp

theorem symbol?_primitive (id : Nat) :
    empty.table.symbol? id = primitives[id]?.map fun entry => ⟨entry.1, 0, entry.2⟩ := by
  have hnew := declares_primitives.new id
  rw [show (openScope {} []).2.symbols.size = 0 from rfl, Nat.zero_add] at hnew
  rw [symbol?, symbols_empty]
  exact hnew

/-- A primitive is found in the scope around the module's. -/
theorem primitive_found {name : String} {kind : SymbolKind} (h : (name, kind) ∈ primitives) :
    ∃ id, empty.table.own? 0 name = some id ∧ empty.table.symbol? id = some ⟨name, 0, kind⟩ := by
  obtain ⟨id, hid⟩ := List.getElem?_of_mem h
  refine ⟨id, own?_primitive.2 ?_, ?_⟩
  · rw [List.getElem?_map, hid]
    rfl
  · rw [symbol?_primitive, hid]
    rfl

theorem own?_eq_none_of_not_primitive {name : String} (h : ¬IsPrimitive name) : empty.table.own? 0 name = none := by
  rw [Option.eq_none_iff_forall_ne_some]
  intro id hid
  exact h (isPrimitive_iff.2 (List.mem_of_getElem? (own?_primitive.1 hid)))

end Module

end DualInference
