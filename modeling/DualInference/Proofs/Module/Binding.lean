/-
What the binding of a program makes of it.

An item declares names, or it is attached to what an earlier item declares under its name. Declared names are new to
their module, and what is attached has its owner before it (`WellOrdered`). The table of a well-ordered program can be
written down without binding it: the declared names in order, each with the kind of its item (`entriesFrom`), where a
predicate has all instances of its name and an overloadable all overloads of its name, in order, wherever they stand in
the program (`Item.kindAt`).

The binder comes to that table item by item. A declaring item adds its own entries, and those before it are not changed
(`Bound.declare`). An attached item changes the one entry of its name, and that is how the entries of the program with
the item differ from those without it (`Bound.attach`).
-/
import DualInference.Proofs.Module.Declarations

namespace DualInference

open SymbolTable

/-! ## Items -/

namespace Item

/-- the names an item declares, in order -/
def binds : Item → List Ident
  | .predicate d => [d.name]
  | .predicateInstance _ => []
  | .aggregate _ d => [d.name]
  | .vars d => d.names.map (·.name)
  | .procedure d => [d.name]
  | .overloadable name => [name]
  | .overload _ => []

/-- the kind of owner an item is attached to, and the name it goes by -/
def attaches? : Item → Option (Owner × Ident)
  | .predicateInstance d => some (.predicate, d.name)
  | .overload d => some (.overloadable, d.name)
  | _ => none

/-- is the item an owner of the kind and the name -/
def Owns (owner : Owner) (name : String) : Item → Prop
  | .predicate d => owner = .predicate ∧ d.name.name = name
  | .overloadable ident => owner = .overloadable ∧ ident.name = name
  | _ => False

/-- what an attached item makes of its owner -/
def attach : Item → SymbolKind → SymbolKind
  | .predicateInstance d => attachInstance d
  | .overload d => attachOverload d
  | _ => id

theorem binds_of_attaches? {item : Item} {owner : Owner} {ident : Ident} (h : item.attaches? = some (owner, ident)) :
    item.binds = [] := by
  cases item <;> simp_all [attaches?, binds]

theorem Owns.binds {item : Item} {owner : Owner} {name : String} (h : item.Owns owner name) :
    ∃ ident, item.binds = [ident] ∧ ident.name = name := by
  cases item with
  | predicate d => exact ⟨d.name, rfl, h.2⟩
  | overloadable ident => exact ⟨ident, rfl, h.2⟩
  | _ => cases h

end Item

/-! ## Programs -/

/-- the names that items declare, in order -/
def declaredNames (items : List Item) : List String :=
  items.flatMap fun item => item.binds.map (·.name)

/-- the instances of a name, in order -/
def instancesOf (items : List Item) (name : String) : List PredicateInstance :=
  items.filterMap fun
    | .predicateInstance d => if d.name.name = name then some d else none
    | _ => none

/-- the overloads of a name, in order -/
def overloadsOf (items : List Item) (name : String) : List Procedure :=
  items.filterMap fun
    | .overload d => if d.name.name = name then some d else none
    | _ => none

/-- what the name at a position of an item stands for in a program. The names of a variable definition share the given
group. -/
def Item.kindAt (items : List Item) (group : SymbolId) (position : Nat) : Item → SymbolKind
  | .predicate d => .predicate d (instancesOf items d.name.name)
  | .predicateInstance d => .predicateInstance d
  | .aggregate kind d => .aggregate kind d
  | .vars d => .global d group position
  | .procedure d => .procedure d
  | .overloadable ident => .overloadable ident (overloadsOf items ident.name)
  | .overload d => .overload d

/-- every name is declared once, and everything that is attached comes after an owner of its name -/
structure WellOrdered (items : List Item) : Prop where
  distinct : (declaredNames items).Nodup
  attached : ∀ {before item after owner ident}, items = before ++ item :: after →
    item.attaches? = some (owner, ident) → ∃ earlier ∈ before, earlier.Owns owner ident.name

/-- the names that an item declares in a program, with their kinds -/
def Item.entries (items : List Item) (group : SymbolId) (item : Item) : List (String × SymbolKind) :=
  item.binds.mapIdx fun position ident => (ident.name, item.kindAt items group position)

/-- the names that some items of a program declare, with their kinds, if the first of them has the given symbol -/
def entriesFrom (items : List Item) : SymbolId → List Item → List (String × SymbolKind)
  | _, [] => []
  | base, item :: rest => item.entries items base ++ entriesFrom items (base + item.binds.length) rest

section

variable {items before : List Item} {item : Item}

theorem declaredNames_append (items items' : List Item) :
    declaredNames (items ++ items') = declaredNames items ++ declaredNames items' := by
  simp [declaredNames]

theorem declaredNames_singleton (item : Item) : declaredNames [item] = item.binds.map (·.name) := by
  simp [declaredNames]

theorem mem_declaredNames {name : String} :
    name ∈ declaredNames items ↔ ∃ item ∈ items, ∃ ident ∈ item.binds, ident.name = name := by
  simp [declaredNames]

theorem length_entries (items : List Item) (group : SymbolId) (item : Item) :
    (item.entries items group).length = item.binds.length := by
  simp [Item.entries]

/-- What does not depend on positions can be read off without them. -/
theorem map_mapIdx {α β γ : Type} {f : Nat → α → β} {g : β → γ} {k : α → γ} (h : ∀ p a, g (f p a) = k a) (l : List α) :
    (l.mapIdx f).map g = l.map k := by
  refine List.ext_getElem? fun p => ?_
  simp only [List.getElem?_map, List.getElem?_mapIdx, Option.map_map]
  exact congrArg (Option.map · l[p]?) (funext (h p))

theorem names_entries (items : List Item) (group : SymbolId) (item : Item) :
    (item.entries items group).map (·.1) = item.binds.map (·.name) := by
  rw [Item.entries]
  apply map_mapIdx
  simp

/-- The entries of a program are its declared names in order. -/
theorem names_entriesFrom (all : List Item) (base : SymbolId) (items : List Item) :
    (entriesFrom all base items).map (·.1) = declaredNames items := by
  induction items generalizing base with
  | nil => rfl
  | cons item items ih =>
    rw [entriesFrom, List.map_append, names_entries, ih]
    rfl

theorem entriesFrom_append (all : List Item) (base : Nat) (items items' : List Item) :
    entriesFrom all base (items ++ items') =
      entriesFrom all base items ++ entriesFrom all (base + (declaredNames items).length) items' := by
  induction items generalizing base with
  | nil => rfl
  | cons item items ih =>
    have hlen : (declaredNames (item :: items)).length = item.binds.length + (declaredNames items).length := by
      simp [declaredNames]
    rw [List.cons_append, entriesFrom, entriesFrom, ih, List.append_assoc, hlen, Nat.add_assoc]

/-- Every name that an item declares has its entry. -/
theorem entriesFrom_getElem? (all : List Item) (base : Nat) (before after : List Item) {p : Nat} {ident : Ident}
    (hp : item.binds[p]? = some ident) :
    (entriesFrom all base (before ++ item :: after))[(declaredNames before).length + p]? =
      some (ident.name, item.kindAt all (base + (declaredNames before).length) p) := by
  have hlen : (entriesFrom all base before).length = (declaredNames before).length := by
    rw [← names_entriesFrom all base, List.length_map]
  have hlt : p < (item.entries all (base + (declaredNames before).length)).length := by
    rw [length_entries]
    exact (List.getElem?_eq_some_iff.1 hp).1
  rw [entriesFrom_append, List.getElem?_append_right (by omega), hlen, Nat.add_sub_cancel_left, entriesFrom,
    List.getElem?_append_left hlt, Item.entries, List.getElem?_mapIdx, hp]
  rfl

/-! ## Kinds in a growing program -/

theorem Item.kindAt_append_of_declaring (h : item.attaches? = none) (group : SymbolId) (p : Nat) (other : Item) :
    other.kindAt (items ++ [item]) group p = other.kindAt items group p := by
  cases item <;> cases other <;> simp_all [attaches?, kindAt, instancesOf, overloadsOf]

/-- An attached item is felt at its own name only. -/
theorem Item.kindAt_append_of_attached {owner : Owner} {ident : Ident} (h : item.attaches? = some (owner, ident))
    (group : SymbolId) {p : Nat} {other : Item} {ident' : Ident} (hp : other.binds[p]? = some ident') :
    other.kindAt (items ++ [item]) group p =
      if ident'.name = ident.name then item.attach (other.kindAt items group p) else other.kindAt items group p := by
  cases item with
  | predicateInstance d =>
    cases h
    cases other with
    | predicate d' =>
      have hname : d'.name = ident' := by simp_all [binds, List.getElem?_cons]
      subst hname
      by_cases heq : d'.name.name = d.name.name
      · simp [kindAt, attach, attachInstance, instancesOf, heq]
      · simp [kindAt, instancesOf, heq, Ne.symm heq]
    | overloadable ident => simp [kindAt, attach, attachInstance, overloadsOf]
    | _ => simp [kindAt, attach, attachInstance]
  | overload d =>
    cases h
    cases other with
    | predicate d' => simp [kindAt, attach, attachOverload, instancesOf]
    | overloadable ident =>
      have hname : ident = ident' := by simp_all [binds, List.getElem?_cons]
      subst hname
      by_cases heq : ident.name = d.name.name
      · simp [kindAt, attach, attachOverload, overloadsOf, heq]
      · simp [kindAt, overloadsOf, heq, Ne.symm heq]
    | _ => simp [kindAt, attach, attachOverload]
  | _ => cases h

theorem entriesFrom_of_declaring (h : item.attaches? = none) (base : SymbolId) (part : List Item) :
    entriesFrom (items ++ [item]) base part = entriesFrom items base part := by
  induction part generalizing base with
  | nil => rfl
  | cons other rest ih => simp only [entriesFrom, Item.entries, Item.kindAt_append_of_declaring h, ih]

theorem entriesFrom_of_attached {owner : Owner} {ident : Ident} (h : item.attaches? = some (owner, ident))
    (base : SymbolId) (part : List Item) :
    entriesFrom (items ++ [item]) base part = (entriesFrom items base part).map fun entry =>
      if entry.1 = ident.name then (entry.1, item.attach entry.2) else entry := by
  induction part generalizing base with
  | nil => rfl
  | cons other rest ih =>
    have hentries : other.entries (items ++ [item]) base = (other.entries items base).map fun entry =>
        if entry.1 = ident.name then (entry.1, item.attach entry.2) else entry := by
      refine List.ext_getElem? fun p => ?_
      simp only [Item.entries, List.getElem?_map, List.getElem?_mapIdx]
      cases hp : other.binds[p]? with
      | none => rfl
      | some ident' =>
        simp only [Option.map_some, Item.kindAt_append_of_attached h base hp]
        split <;> rfl
    rw [entriesFrom, entriesFrom, List.map_append, hentries, ih]

/-! ## Well-ordered programs -/

theorem wellOrdered_nil : WellOrdered [] where
  distinct := by simp [declaredNames]
  attached h := by simp at h

/-- The first items of a well-ordered program are one. -/
theorem WellOrdered.initial (h : WellOrdered (before ++ items)) : WellOrdered before where
  distinct := by
    have hdistinct := h.distinct
    rw [declaredNames_append] at hdistinct
    exact (List.nodup_append.1 hdistinct).1
  attached hsplit := h.attached (by rw [hsplit, List.append_assoc, List.cons_append])

/-- A program can be continued with new names, or with what has its owner. -/
theorem wellOrdered_append : WellOrdered (before ++ [item]) ↔ WellOrdered before ∧
    (declaredNames before ++ item.binds.map (·.name)).Nodup ∧
      ∀ owner ident, item.attaches? = some (owner, ident) → ∃ earlier ∈ before, earlier.Owns owner ident.name := by
  rw [← declaredNames_singleton, ← declaredNames_append]
  constructor
  · intro h
    exact ⟨h.initial, h.distinct, fun owner ident => h.attached rfl⟩
  · rintro ⟨h, hdistinct, hattached⟩
    refine ⟨hdistinct, fun {before' item' after owner ident} hsplit hattaches => ?_⟩
    -- what is attached is the last item, or it stands in the program before it
    rcases List.eq_nil_or_concat after with rfl | ⟨after, last, rfl⟩
    · obtain ⟨rfl, hitem⟩ := List.append_inj' hsplit rfl
      cases hitem
      exact hattached owner ident hattaches
    · rw [List.concat_eq_append, ← List.cons_append, ← List.append_assoc] at hsplit
      exact h.attached (List.append_inj' hsplit rfl).1 hattaches

/-- What is attached in a well-ordered program goes by a name that the program declares. -/
theorem WellOrdered.name_declared (h : WellOrdered items) (hmem : item ∈ items) {owner : Owner} {ident : Ident}
    (hattaches : item.attaches? = some (owner, ident)) : ident.name ∈ declaredNames items := by
  obtain ⟨before, after, rfl⟩ := List.append_of_mem hmem
  obtain ⟨earlier, hearlier, howns⟩ := h.attached rfl hattaches
  obtain ⟨ident', hbinds, hname⟩ := howns.binds
  exact mem_declaredNames.2 ⟨earlier, by simp [hearlier], ident', by simp [hbinds], hname⟩

/-- Nothing is attached yet to a new name. -/
theorem WellOrdered.kindAt_new (h : WellOrdered items) {other : Item} {p : Nat} {ident : Ident}
    (hp : other.binds[p]? = some ident) (hnew : ident.name ∉ declaredNames items) (group : SymbolId) :
    other.kindAt items group p = other.kindAt [] group p := by
  have hnone : ∀ {item owner ident'}, item ∈ items → item.attaches? = some (owner, ident') →
      ident'.name ≠ ident.name := by
    intro item owner ident' hmem hattaches hname
    exact hnew (hname ▸ h.name_declared hmem hattaches)
  cases other with
  | predicate d =>
    have hname : d.name = ident := by simp_all [Item.binds, List.getElem?_cons]
    have hinstances : instancesOf items d.name.name = [] := by
      refine List.filterMap_eq_nil_iff.2 fun item hmem => ?_
      cases item with
      | predicateInstance d' => exact if_neg (hname ▸ hnone hmem rfl)
      | _ => rfl
    rw [Item.kindAt, hinstances]
    rfl
  | overloadable ident' =>
    have hname : ident' = ident := by simp_all [Item.binds, List.getElem?_cons]
    have hoverloads : overloadsOf items ident'.name = [] := by
      refine List.filterMap_eq_nil_iff.2 fun item hmem => ?_
      cases item with
      | overload d' => exact if_neg (hname ▸ hnone hmem rfl)
      | _ => rfl
    rw [Item.kindAt, hoverloads]
    rfl
  | _ => rfl

/-- A change made to the entry of a name is a change made wherever the name is, as it is there only once. -/
theorem modify_eq_map {entries : List (String × SymbolKind)} (hdistinct : (entries.map (·.1)).Nodup) {k : Nat}
    {name : String} (hk : (entries.map (·.1))[k]? = some name) (f : SymbolKind → SymbolKind) :
    (entries.modify k fun entry => (entry.1, f entry.2)) =
      entries.map fun entry => if entry.1 = name then (entry.1, f entry.2) else entry := by
  refine List.ext_getElem? fun i => ?_
  rw [List.getElem?_modify, List.getElem?_map]
  cases hi : entries[i]? with
  | none => rfl
  | some entry =>
    have hname : (entries.map (·.1))[i]? = some entry.1 := by simp [hi]
    have hiff : k = i ↔ entry.1 = name := by
      constructor
      · rintro rfl
        exact Option.some.inj (hname.symm.trans hk)
      · rintro rfl
        exact (List.getElem?_inj (List.getElem?_eq_some_iff.1 hk).1 hdistinct).1 (hk.trans hname.symm)
    by_cases heq : entry.1 = name
    · simp [hiff.2 heq, heq]
    · simp [mt hiff.1 heq, heq]

end

/-! ## Declaring -/

namespace SymbolTable

variable {s : ScopeId} {tab : SymbolTable}

/-- declare identifiers in a scope, one after the other -/
def declareAll (s : ScopeId) (tab : SymbolTable) (bindings : List (Ident × SymbolKind)) : Except Error SymbolTable :=
  bindings.foldlM (fun tab binding => tab.declare s binding.1 ⟨binding.1.name, s, binding.2⟩) tab

/-- New names are all declared. -/
theorem declareAll_of_new (hs : s < tab.scopes.size) {bindings : List (Ident × SymbolKind)}
    (hdistinct : (bindings.map (·.1.name)).Nodup) (hnew : ∀ name ∈ bindings.map (·.1.name), tab.own? s name = none) :
    ∃ tab', declareAll s tab bindings = .ok tab' ∧ Declares s tab (bindings.map fun b => (b.1.name, b.2)) tab' := by
  induction bindings generalizing tab with
  | nil => exact ⟨tab, rfl, .refl s tab⟩
  | cons binding bindings ih =>
    obtain ⟨ident, kind⟩ := binding
    obtain ⟨hname, hdistinct⟩ := List.nodup_cons.1 hdistinct
    obtain ⟨tab₁, htab₁, hfirst⟩ := declare_of_new kind hs (hnew ident.name (by simp))
    have hnew₁ : ∀ name ∈ bindings.map (·.1.name), tab₁.own? s name = none := by
      refine fun name hmem => hfirst.own?_eq_none.2 ⟨hnew name (List.mem_cons_of_mem _ hmem), fun hfound => ?_⟩
      obtain rfl := List.mem_singleton.1 hfound
      exact hname hmem
    obtain ⟨tab', htab', hrest⟩ := ih (hfirst.scopes ▸ hs) hdistinct hnew₁
    refine ⟨tab', ?_, hfirst.append hrest⟩
    rw [declareAll, List.foldlM_cons, htab₁]
    exact htab'

theorem declareAll_singleton (ident : Ident) (kind : SymbolKind) :
    declareAll s tab [(ident, kind)] = tab.declare s ident ⟨ident.name, s, kind⟩ := by
  simp [declareAll]

theorem declareNames_eq (d : Variables) (group : SymbolId) (position : Nat) (vs : List Variable) :
    declareNames s d group tab position vs =
      declareAll s tab ((vs.map (·.name)).mapIdx fun p ident => (ident, .global d group (position + p))) := by
  induction vs generalizing tab position with
  | nil => rfl
  | cons v vs ih =>
    have hshift : ∀ p, position + 1 + p = position + (p + 1) := by omega
    rw [declareNames, List.map_cons, List.mapIdx_cons, declareAll, List.foldlM_cons]
    dsimp only [Nat.add_zero]
    cases tab.declare s v.name ⟨v.name.name, s, .global d group position⟩ with
    | error e => rfl
    | ok tab₁ =>
      dsimp only
      rw [ih]
      simp only [hshift]
      rfl

end SymbolTable

/-- the identifiers that an item declares, with the kinds they have as long as nothing is attached -/
def Item.bindings (group : SymbolId) (item : Item) : List (Ident × SymbolKind) :=
  item.binds.mapIdx fun position ident => (ident, item.kindAt [] group position)

theorem Item.names_bindings (group : SymbolId) (item : Item) :
    (item.bindings group).map (·.1.name) = item.binds.map (·.name) := by
  rw [bindings]
  apply map_mapIdx
  simp

/-- A new name is declared as it is in the whole program so far. -/
theorem WellOrdered.entries_bindings {before : List Item} {item : Item} (h : WellOrdered before)
    (hnone : item.attaches? = none) (hnew : ∀ ident ∈ item.binds, ident.name ∉ declaredNames before)
    (group : SymbolId) :
    (item.bindings group).map (fun binding => (binding.1.name, binding.2)) = item.entries (before ++ [item]) group := by
  refine List.ext_getElem? fun p => ?_
  simp only [Item.bindings, Item.entries, List.getElem?_map, List.getElem?_mapIdx]
  cases hp : item.binds[p]? with
  | none => rfl
  | some ident =>
    have hkind := h.kindAt_new hp (hnew ident (List.mem_of_getElem? hp)) group
    simp only [Option.map_some, Item.kindAt_append_of_declaring hnone, hkind]

theorem declareItem_of_declaring {s : ScopeId} {tab : SymbolTable} {item : Item} (h : item.attaches? = none) :
    declareItem s tab item = declareAll s tab (item.bindings tab.symbols.size) := by
  cases item with
  | vars d =>
    rw [declareItem, declareNames_eq]
    simp only [Nat.zero_add]
    rfl
  | predicateInstance d => cases h
  | overload d => cases h
  | _ => exact (declareAll_singleton _ _).symm

/-! ## Attaching -/

namespace SymbolTable

variable {s : ScopeId} {tab : SymbolTable} {owner : Owner} {ident : Ident}

theorem lookupOwner_of_none (h : tab.lookup s ident.name = none) :
    tab.lookupOwner s owner ident = .error ⟨.undefinedName ident.name, ident.span⟩ := by
  rw [lookupOwner, lookupIdent, h]
  rfl

theorem lookupOwner_of_found {id : SymbolId} {symbol : Symbol} (h : tab.lookup s ident.name = some id)
    (hsymbol : tab.symbol? id = some symbol) : tab.lookupOwner s owner ident =
      if owner.accepts symbol.kind then .ok id else .error ⟨.kindMismatch ident.name owner.text, ident.span⟩ := by
  have hok : tab.lookupIdent s ident = .ok id := by rw [lookupIdent, h]
  rw [lookupOwner, hok]
  dsimp only [Bind.bind, Except.bind]
  rw [hsymbol, Option.any_some]

end SymbolTable

theorem Item.kindAt_accepts {item : Item} {p : Nat} {ident : Ident} (hp : item.binds[p]? = some ident) (owner : Owner)
    (items : List Item) (group : SymbolId) :
    owner.accepts (item.kindAt items group p) = true ↔ item.Owns owner ident.name := by
  cases item <;> cases owner <;> simp_all [Owner.accepts, kindAt, Owns, binds, List.getElem?_cons]

theorem declareItem_of_attached {s : ScopeId} {tab : SymbolTable} {item : Item} {owner : Owner} {ident : Ident}
    (h : item.attaches? = some (owner, ident)) :
    declareItem s tab item = do return tab.modifyKind (← tab.lookupOwner s owner ident) item.attach := by
  cases item with
  | predicateInstance d =>
    cases h
    rfl
  | overload d =>
    cases h
    rfl
  | _ => cases h

/-! ## The binder -/

/-- the table is that of the module of a program -/
def Bound (items : List Item) (tab : SymbolTable) : Prop :=
  Declares Module.empty.scope Module.empty.table (entriesFrom items Module.empty.table.symbols.size items) tab

namespace Bound

open DualInference.Module (empty)

variable {items before : List Item} {item : Item} {tab : SymbolTable}

theorem nil : Bound [] empty.table := by
  rw [Bound, entriesFrom]
  exact .refl empty.scope empty.table

theorem scope_lt (h : Bound items tab) : empty.scope < tab.scopes.size := by
  rw [h.scopes]
  exact Module.empty_scope_lt

/-- The module's scope binds the declared names. -/
theorem own?_eq_some (h : Bound items tab) {name : String} {id : Nat} : tab.own? empty.scope name = some id ↔
    ∃ k, (declaredNames items)[k]? = some name ∧ id = empty.table.symbols.size + k := by
  rw [h.own, Module.own?_empty_scope, names_entriesFrom]
  simp

theorem own?_eq_none (h : Bound items tab) {name : String} :
    tab.own? empty.scope name = none ↔ name ∉ declaredNames items := by
  rw [Declares.own?_eq_none h, names_entriesFrom]
  simp [Module.own?_empty_scope]

/-- A declared name has the kind of its item. -/
theorem declared (h : Bound (before ++ item :: items) tab) {p : Nat} {ident : Ident} (hp : item.binds[p]? = some ident) :
    ∃ id, tab.own? empty.scope ident.name = some id ∧ tab.symbol? id = some ⟨ident.name, empty.scope,
      item.kindAt (before ++ item :: items) (empty.table.symbols.size + (declaredNames before).length) p⟩ := by
  have hentry := entriesFrom_getElem? (before ++ item :: items) empty.table.symbols.size before items hp
  have hown := h.own?_of_getElem? hentry
  refine ⟨_, hown, ?_⟩
  rw [h.new, hentry, Option.map_some]

/-- A name that is not declared is looked up among the primitives. -/
theorem lookup (h : Bound items tab) (name : String) :
    tab.lookup empty.scope name = (tab.own? empty.scope name).or (empty.table.own? 0 name) := by
  have hs : empty.scope ∉ empty.table.ancestors empty.scope := by
    rw [Module.ancestors_empty, Module.empty_scope]
    decide
  rw [Declares.lookup h hs, Module.ancestors_empty, List.findSome?_cons, List.findSome?_nil]
  cases empty.table.own? 0 name <;> rfl

/-- A declared name is found with the kind of its item. -/
theorem lookup_declared (h : Bound (before ++ item :: items) tab) {p : Nat} {ident : Ident}
    (hp : item.binds[p]? = some ident) : ∃ id, tab.lookup empty.scope ident.name = some id ∧
      tab.symbol? id = some ⟨ident.name, empty.scope,
        item.kindAt (before ++ item :: items) (empty.table.symbols.size + (declaredNames before).length) p⟩ := by
  obtain ⟨id, hown, hsymbol⟩ := h.declared hp
  exact ⟨id, by rw [h.lookup, hown, Option.some_or], hsymbol⟩

/-- A declared name is an owner if its item is. -/
theorem lookupOwner (h : Bound items tab) (hitem : item ∈ items) {ident ident' : Ident} (hident : ident' ∈ item.binds)
    (hname : ident'.name = ident.name) (owner : Owner) : ∃ id, tab.own? empty.scope ident.name = some id ∧
      (item.Owns owner ident.name → tab.lookupOwner empty.scope owner ident = .ok id) ∧
      (¬item.Owns owner ident.name →
        tab.lookupOwner empty.scope owner ident = .error ⟨.kindMismatch ident.name owner.text, ident.span⟩) := by
  obtain ⟨before, after, rfl⟩ := List.append_of_mem hitem
  obtain ⟨p, hp⟩ := List.getElem?_of_mem hident
  obtain ⟨id, hown, hsymbol⟩ := h.declared hp
  rw [hname] at hown hsymbol
  have hlookup : tab.lookup empty.scope ident.name = some id := by rw [h.lookup, hown, Option.some_or]
  have haccepts := hname ▸ Item.kindAt_accepts hp owner (before ++ item :: after)
    (empty.table.symbols.size + (declaredNames before).length)
  refine ⟨id, hown, fun howns => ?_, fun howns => ?_⟩
  · rw [lookupOwner_of_found hlookup hsymbol, if_pos (haccepts.2 howns)]
  · rw [lookupOwner_of_found hlookup hsymbol, if_neg (mt haccepts.1 howns)]

/-- An attached item finds its owner, and changes its entry. -/
theorem attach (h : Bound before tab) (hdistinct : (declaredNames before).Nodup) {owner : Owner} {ident : Ident}
    (hattaches : item.attaches? = some (owner, ident)) {earlier : Item} (hearlier : earlier ∈ before)
    (howns : earlier.Owns owner ident.name) :
    ∃ tab', declareItem empty.scope tab item = .ok tab' ∧ Bound (before ++ [item]) tab' := by
  obtain ⟨ident', hbinds, hname⟩ := howns.binds
  obtain ⟨id, hown, hfound, -⟩ := h.lookupOwner hearlier (by rw [hbinds]; simp) hname owner
  obtain ⟨k, hk, hid⟩ := h.own?_eq_some.1 hown
  refine ⟨tab.modifyKind id item.attach, ?_, ?_⟩
  · rw [declareItem_of_attached hattaches, hfound howns]
    rfl
  · -- the change is made to one entry, and the longer program asks for it at every entry of the name
    have hmodified := h.modifyKind k item.attach
    rw [← names_entriesFrom before empty.table.symbols.size] at hk hdistinct
    rw [modify_eq_map hdistinct hk, ← entriesFrom_of_attached hattaches] at hmodified
    rw [Bound, entriesFrom_append, entriesFrom, Item.entries, Item.binds_of_attaches? hattaches, entriesFrom,
      List.mapIdx_nil, List.append_nil, List.append_nil, hid]
    exact hmodified

/-- A declaring item adds its entries. -/
theorem declare (h : Bound before tab) (hbefore : WellOrdered before) (hnone : item.attaches? = none)
    (hdistinct : (declaredNames before ++ item.binds.map (·.name)).Nodup) :
    ∃ tab', declareItem empty.scope tab item = .ok tab' ∧ Bound (before ++ [item]) tab' := by
  obtain ⟨-, hitem, hdisjoint⟩ := List.nodup_append.1 hdistinct
  have hnew : ∀ name ∈ item.binds.map (·.name), name ∉ declaredNames before :=
    fun name hname hdeclared => hdisjoint name hdeclared name hname rfl
  have hown : ∀ name ∈ (item.bindings tab.symbols.size).map (·.1.name), tab.own? empty.scope name = none := by
    intro name hname
    rw [Item.names_bindings] at hname
    exact h.own?_eq_none.2 (hnew name hname)
  obtain ⟨tab', htab', hdeclares⟩ := declareAll_of_new h.scope_lt (by rwa [Item.names_bindings]) hown
  refine ⟨tab', by rw [declareItem_of_declaring hnone, htab'], ?_⟩
  rw [hbefore.entries_bindings hnone fun ident hident => hnew _ (List.mem_map_of_mem hident), h.size,
    ← List.length_map (·.1), names_entriesFrom] at hdeclares
  have happend := h.append hdeclares
  rw [Bound, entriesFrom_append, entriesFrom_of_declaring hnone, entriesFrom, entriesFrom, List.append_nil]
  exact happend

/-- **One item.** An item that fits is bound or attached, and the table is that of the longer program. -/
theorem step (h : Bound before tab) (hitem : WellOrdered (before ++ [item])) :
    ∃ tab', declareItem empty.scope tab item = .ok tab' ∧ Bound (before ++ [item]) tab' := by
  obtain ⟨hbefore, hdistinct, hattached⟩ := wellOrdered_append.1 hitem
  cases hattaches : item.attaches? with
  | none => exact h.declare hbefore hattaches hdistinct
  | some attached =>
    obtain ⟨owner, ident⟩ := attached
    obtain ⟨earlier, hearlier, howns⟩ := hattached owner ident hattaches
    exact h.attach hbefore.distinct hattaches hearlier howns

/-- **All items.** A well-ordered program is bound. -/
theorem run (h : Bound before tab) (hitems : WellOrdered (before ++ items)) :
    ∃ tab', items.foldlM (declareItem empty.scope) tab = .ok tab' ∧ Bound (before ++ items) tab' := by
  induction items generalizing before tab with
  | nil =>
    rw [List.append_nil]
    exact ⟨tab, rfl, h⟩
  | cons item items ih =>
    rw [List.append_cons] at hitems ⊢
    obtain ⟨tab₁, htab₁, hbound₁⟩ := h.step hitems.initial
    obtain ⟨tab', htab', hbound'⟩ := ih hbound₁ hitems
    refine ⟨tab', ?_, hbound'⟩
    rw [List.foldlM_cons, htab₁]
    exact htab'

end Bound

end DualInference
