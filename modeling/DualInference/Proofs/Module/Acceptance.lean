/-
Which programs are bound, and what the others fail with.

The binder accepts the well-ordered programs. Any other program has a first item that does not fit what comes before it,
and that item offends in one way (`Offence`): it declares a name for the second time, or it is to be attached and its
name is unknown, or its name is that of something it cannot be attached to. A primitive is in the way of an attachment
only as long as the program has not declared the name.

Results:
- `wellOrdered_or_offence`: a program is well-ordered or has a first offence;
- `Bound.offends`: at an offence the binder stops with its error;
- `binds_exactly_well_ordered`: so the binder decides well-orderedness and reports the first offence.
-/
import DualInference.Proofs.Module.Binding

namespace DualInference

open SymbolTable

/-- the error of an item that does not fit after the items before it -/
inductive Offence (before : List Item) (item : Item) : Error → Prop
  /-- the first name of the item that was declared before, by the item itself or by an earlier one -/
  | redefinition {earlier later : List Ident} {ident : Ident} (binds : item.binds = earlier ++ ident :: later)
    (distinct : (declaredNames before ++ earlier.map (·.name)).Nodup)
    (repeated : ident.name ∈ declaredNames before ++ earlier.map (·.name)) :
    Offence before item ⟨.nameRedefinition ident.name, ident.span⟩
  /-- an attached item whose name nothing declares -/
  | undefined {owner : Owner} {ident : Ident} (attaches : item.attaches? = some (owner, ident))
    (undeclared : ident.name ∉ declaredNames before) (unknown : ¬IsPrimitive ident.name) :
    Offence before item ⟨.undefinedName ident.name, ident.span⟩
  /-- an attached item whose name is declared, but not as an owner -/
  | mismatch {owner : Owner} {ident : Ident} (attaches : item.attaches? = some (owner, ident))
    (declared : ident.name ∈ declaredNames before) (other : ∀ earlier ∈ before, ¬earlier.Owns owner ident.name) :
    Offence before item ⟨.kindMismatch ident.name owner.text, ident.span⟩
  /-- an attached item whose name is a primitive, and not declared -/
  | primitive {owner : Owner} {ident : Ident} (attaches : item.attaches? = some (owner, ident))
    (undeclared : ident.name ∉ declaredNames before) (known : IsPrimitive ident.name) :
    Offence before item ⟨.kindMismatch ident.name owner.text, ident.span⟩

/-! ## Every program is well-ordered or has a first offence -/

theorem nodup_or_repeated {names : List String} (h : names.Nodup) (idents : List Ident) :
    (names ++ idents.map (·.name)).Nodup ∨ ∃ earlier ident later, idents = earlier ++ ident :: later ∧
      (names ++ earlier.map (·.name)).Nodup ∧ ident.name ∈ names ++ earlier.map (·.name) := by
  induction idents generalizing names with
  | nil => simp [h]
  | cons ident idents ih =>
    by_cases hmem : ident.name ∈ names
    · exact .inr ⟨[], ident, idents, by simp [h, hmem]⟩
    · have hnames : (names ++ [ident.name]).Nodup := by
        rw [List.nodup_append]
        refine ⟨h, by simp, ?_⟩
        rintro name hname _ hident rfl
        rw [List.mem_singleton.1 hident] at hname
        exact hmem hname
      rcases ih hnames with hdistinct | ⟨earlier, ident', later, rfl, hdistinct, hrepeated⟩
      · exact .inl (by simpa using hdistinct)
      · exact .inr ⟨ident :: earlier, ident', later, by simp_all⟩

/-- An item fits after the ones before it, or it offends. -/
theorem WellOrdered.append_or_offence {before : List Item} (h : WellOrdered before) (item : Item) :
    WellOrdered (before ++ [item]) ∨ ∃ e, Offence before item e := by
  cases hattaches : item.attaches? with
  | none =>
    rcases nodup_or_repeated h.distinct item.binds with hdistinct | ⟨earlier, ident, later, hbinds, hdistinct, hrepeated⟩
    · refine .inl (wellOrdered_append.2 ⟨h, hdistinct, fun owner ident hsome => ?_⟩)
      rw [hattaches] at hsome
      cases hsome
    · exact .inr ⟨_, .redefinition hbinds hdistinct hrepeated⟩
  | some attached =>
    obtain ⟨owner, ident⟩ := attached
    by_cases howner : ∃ earlier ∈ before, earlier.Owns owner ident.name
    · refine .inl (wellOrdered_append.2 ⟨h, ?_, fun owner' ident' hsome => ?_⟩)
      · simp [Item.binds_of_attaches? hattaches, h.distinct]
      · rw [hattaches] at hsome
        cases hsome
        exact howner
    · by_cases hdeclared : ident.name ∈ declaredNames before
      · exact .inr ⟨_, .mismatch hattaches hdeclared fun earlier hearlier howns => howner ⟨earlier, hearlier, howns⟩⟩
      · by_cases hprimitive : IsPrimitive ident.name
        · exact .inr ⟨_, .primitive hattaches hdeclared hprimitive⟩
        · exact .inr ⟨_, .undefined hattaches hdeclared hprimitive⟩

/-- **A program is well-ordered, or it has a first item that offends.** -/
theorem wellOrdered_or_offence (items : List Item) : WellOrdered items ∨ ∃ before item after e,
    items = before ++ item :: after ∧ WellOrdered before ∧ Offence before item e := by
  suffices h : ∀ before, WellOrdered before → WellOrdered (before ++ items) ∨ ∃ before' item after e,
      before ++ items = before' ++ item :: after ∧ WellOrdered before' ∧ Offence before' item e from
    h [] wellOrdered_nil
  induction items with
  | nil =>
    intro before hbefore
    rw [List.append_nil]
    exact .inl hbefore
  | cons item items ih =>
    intro before hbefore
    rcases hbefore.append_or_offence item with hitem | ⟨e, he⟩
    · rw [List.append_cons]
      exact ih (before ++ [item]) hitem
    · exact .inr ⟨before, item, items, e, rfl, hbefore, he⟩

/-! ## The binder stops at an offence -/

theorem SymbolTable.declareAll_of_repeated {s : ScopeId} {tab : SymbolTable} (hs : s < tab.scopes.size)
    {earlier later : List (Ident × SymbolKind)} {ident : Ident} {kind : SymbolKind}
    (hdistinct : (earlier.map (·.1.name)).Nodup) (hnew : ∀ name ∈ earlier.map (·.1.name), tab.own? s name = none)
    (hrepeated : (∃ id, tab.own? s ident.name = some id) ∨ ident.name ∈ earlier.map (·.1.name)) :
    declareAll s tab (earlier ++ (ident, kind) :: later) = .error ⟨.nameRedefinition ident.name, ident.span⟩ := by
  obtain ⟨tab', htab', hdeclares⟩ := declareAll_of_new hs hdistinct hnew
  have hown : ∃ id, tab'.own? s ident.name = some id := by
    rcases hrepeated with ⟨id, hid⟩ | hmem
    · exact ⟨id, (hdeclares.own _ _).2 (.inl hid)⟩
    · obtain ⟨k, hk⟩ := List.getElem?_of_mem hmem
      exact ⟨_, (hdeclares.own _ _).2 (.inr ⟨k, by simpa using hk, rfl⟩)⟩
  obtain ⟨id, hid⟩ := hown
  have happend : declareAll s tab (earlier ++ (ident, kind) :: later) =
      (declareAll s tab earlier >>= fun tab' => declareAll s tab' ((ident, kind) :: later)) :=
    List.foldlM_append
  rw [happend, htab']
  change declareAll s tab' ((ident, kind) :: later) = _
  rw [declareAll, List.foldlM_cons, declare_of_own? hid]
  rfl

namespace Bound

open DualInference.Module (empty)

variable {items before : List Item} {item : Item} {tab : SymbolTable} {owner : Owner} {ident : Ident}

theorem lookup_of_undeclared (h : Bound items tab) {name : String} (hname : name ∉ declaredNames items) :
    tab.lookup empty.scope name = empty.table.own? 0 name := by
  rw [h.lookup, h.own?_eq_none.2 hname, Option.none_or]

/-- A primitive is found as long as its name is not declared. -/
theorem lookup_primitive (h : Bound items tab) {name : String} {kind : SymbolKind} (hmem : (name, kind) ∈ primitives)
    (hname : name ∉ declaredNames items) :
    ∃ id, tab.lookup empty.scope name = some id ∧ tab.symbol? id = some ⟨name, 0, kind⟩ := by
  obtain ⟨id, hown, hsymbol⟩ := Module.primitive_found hmem
  refine ⟨id, (h.lookup_of_undeclared hname).trans hown, ?_⟩
  rw [h.old id (symbol?_lt hsymbol), hsymbol]

/-- A primitive is no owner. -/
theorem lookupOwner_primitive (h : Bound items tab) (hname : ident.name ∉ declaredNames items)
    (hprimitive : IsPrimitive ident.name) (owner : Owner) :
    tab.lookupOwner empty.scope owner ident = .error ⟨.kindMismatch ident.name owner.text, ident.span⟩ := by
  have hkind : ∃ kind, (ident.name, kind) ∈ primitives ∧ owner.accepts kind = false := by
    rcases hprimitive with ⟨b, hb⟩ | ⟨op, hop⟩
    · exact ⟨.builtin b, hb ▸ builtin_mem_primitives b, by cases owner <;> rfl⟩
    · exact ⟨.primitive op, hop ▸ operation_mem_primitives op, by cases owner <;> rfl⟩
  obtain ⟨kind, hmem, haccepts⟩ := hkind
  obtain ⟨id, hlookup, hsymbol⟩ := h.lookup_primitive hmem hname
  rw [lookupOwner_of_found hlookup hsymbol, if_neg (by simp [haccepts])]

/-- A name that was declared before stops the binder. -/
theorem redefines (h : Bound before tab) {earlier later : List Ident} (hbinds : item.binds = earlier ++ ident :: later)
    (hdistinct : (declaredNames before ++ earlier.map (·.name)).Nodup)
    (hrepeated : ident.name ∈ declaredNames before ++ earlier.map (·.name)) :
    declareItem empty.scope tab item = .error ⟨.nameRedefinition ident.name, ident.span⟩ := by
  have hnone : item.attaches? = none := by
    cases hattaches : item.attaches? with
    | none => rfl
    | some attached =>
      rw [Item.binds_of_attaches? hattaches] at hbinds
      simp at hbinds
  obtain ⟨hbefore, hearlier, hdisjoint⟩ := List.nodup_append.1 hdistinct
  have hnames : ∀ f : Nat → Ident → SymbolKind,
      (earlier.mapIdx fun p ident => (ident, f p ident)).map (·.1.name) = earlier.map (·.name) := by
    intro f
    apply map_mapIdx
    simp
  rw [declareItem_of_declaring hnone, Item.bindings, hbinds, List.mapIdx_append, List.mapIdx_cons]
  refine declareAll_of_repeated h.scope_lt (by rwa [hnames]) (fun name hname => ?_) ?_
  · rw [hnames] at hname
    exact h.own?_eq_none.2 fun hdeclared => hdisjoint name hdeclared name hname rfl
  · rw [hnames]
    rcases List.mem_append.1 hrepeated with hdeclared | hmem
    · refine .inl (Option.ne_none_iff_exists'.1 fun hown => ?_)
      exact h.own?_eq_none.1 hown hdeclared
    · exact .inr hmem

/-- **At an offence the binder stops with its error.** -/
theorem offends (h : Bound before tab) {e : Error} (hoffence : Offence before item e) :
    declareItem empty.scope tab item = .error e := by
  cases hoffence with
  | redefinition hbinds hdistinct hrepeated => exact h.redefines hbinds hdistinct hrepeated
  | undefined hattaches hundeclared hunknown =>
    have hlookup := (h.lookup_of_undeclared hundeclared).trans (Module.own?_eq_none_of_not_primitive hunknown)
    rw [declareItem_of_attached hattaches, lookupOwner_of_none hlookup]
    rfl
  | @mismatch owner ident hattaches hdeclared hother =>
    obtain ⟨earlier, hearlier, ident', hident, hname⟩ := mem_declaredNames.1 hdeclared
    obtain ⟨id, -, -, herror⟩ := h.lookupOwner hearlier hident hname owner
    rw [declareItem_of_attached hattaches, herror (hother earlier hearlier)]
    rfl
  | primitive hattaches hundeclared hknown =>
    rw [declareItem_of_attached hattaches, h.lookupOwner_primitive hundeclared hknown]
    rfl

end Bound

/-! ## Main result -/

namespace Module

theorem ofItems_eq_ok {items : List Item} {m : Module} : ofItems items = .ok m ↔
    ∃ tab, items.foldlM (declareItem empty.scope) empty.table = .ok tab ∧ m = ⟨tab, empty.scope⟩ := by
  unfold ofItems
  generalize empty = start
  cases items.foldlM (declareItem start.scope) start.table with
  | error e => simp [Bind.bind, Except.bind]
  | ok tab => simp [Bind.bind, Except.bind, pure, Except.pure, eq_comm]

theorem ofItems_eq_error {items : List Item} {e : Error} :
    ofItems items = .error e ↔ items.foldlM (declareItem empty.scope) empty.table = .error e := by
  unfold ofItems
  generalize empty = start
  cases items.foldlM (declareItem start.scope) start.table with
  | error e' => simp [Bind.bind, Except.bind]
  | ok tab => simp [Bind.bind, Except.bind, pure, Except.pure]

end Module

/-- A well-ordered program has a module. -/
theorem WellOrdered.ofItems {items : List Item} (h : WellOrdered items) :
    ∃ tab, Module.ofItems items = .ok ⟨tab, Module.empty.scope⟩ ∧ Bound items tab := by
  obtain ⟨tab, htab, hbound⟩ := Bound.nil.run (show WellOrdered ([] ++ items) from h)
  exact ⟨tab, Module.ofItems_eq_ok.2 ⟨tab, htab, rfl⟩, hbound⟩

/-- The binder stops at the first offence. -/
theorem Offence.ofItems {before after : List Item} {item : Item} {e : Error} (hbefore : WellOrdered before)
    (h : Offence before item e) : Module.ofItems (before ++ item :: after) = .error e := by
  obtain ⟨tab, htab, hbound⟩ := Bound.nil.run (show WellOrdered ([] ++ before) from hbefore)
  rw [Module.ofItems_eq_error, List.foldlM_append, htab]
  change (item :: after).foldlM (declareItem Module.empty.scope) tab = .error e
  rw [List.foldlM_cons, hbound.offends h]
  rfl

/-- A program with a module is well-ordered, and the module is that of the program. -/
theorem Module.bound_of_ofItems {items : List Item} {m : Module} (h : Module.ofItems items = .ok m) :
    WellOrdered items ∧ Bound items m.table ∧ m.scope = Module.empty.scope := by
  rcases wellOrdered_or_offence items with hitems | ⟨before, item, after, e, rfl, hbefore, hoffence⟩
  · obtain ⟨tab, hok, hbound⟩ := hitems.ofItems
    have hm : m = ⟨tab, Module.empty.scope⟩ := Except.ok.inj (h.symm.trans hok)
    rw [hm]
    exact ⟨hitems, hbound, by dsimp only⟩
  · rw [hoffence.ofItems hbefore] at h
    cases h

/-- A name that an item declares is bound, in the scope of the module, to what it stands for in the program. -/
theorem Module.lookup_binds {items : List Item} {m : Module} (h : Module.ofItems items = .ok m) {item : Item}
    (hitem : item ∈ items) {p : Nat} {ident : Ident} (hp : item.binds[p]? = some ident) :
    ∃ id group, m.table.lookup m.scope ident.name = some id ∧
      m.table.symbol? id = some ⟨ident.name, m.scope, item.kindAt items group p⟩ := by
  obtain ⟨-, hbound, hscope⟩ := Module.bound_of_ofItems h
  obtain ⟨before, after, rfl⟩ := List.append_of_mem hitem
  obtain ⟨id, hlookup, hsymbol⟩ := hbound.lookup_declared hp
  rw [hscope]
  exact ⟨id, _, hlookup, hsymbol⟩

/-- Every aggregate of a program is bound to its name in the scope of the module. -/
theorem Module.aggregate_bound {items : List Item} {m : Module} (h : Module.ofItems items = .ok m) {kind : AggregateKind}
    {d : Aggregate} (hd : .aggregate kind d ∈ items) : ∃ id, m.table.lookup m.scope d.name.name = some id ∧
      m.table.symbol? id = some ⟨d.name.name, m.scope, .aggregate kind d⟩ := by
  obtain ⟨id, _, hfound⟩ := Module.lookup_binds h hd (List.getElem?_cons_zero ..)
  exact ⟨id, hfound⟩

/-- So is every procedure. -/
theorem Module.procedure_bound {items : List Item} {m : Module} (h : Module.ofItems items = .ok m) {d : Procedure}
    (hd : .procedure d ∈ items) : ∃ id, m.table.lookup m.scope d.name.name = some id ∧
      m.table.symbol? id = some ⟨d.name.name, m.scope, .procedure d⟩ := by
  obtain ⟨id, _, hfound⟩ := Module.lookup_binds h hd (List.getElem?_cons_zero ..)
  exact ⟨id, hfound⟩

/-- **The binder accepts exactly the well-ordered programs, and reports the first offence of the others.** -/
theorem binds_exactly_well_ordered (items : List Item) :
    ((∃ m, Module.ofItems items = .ok m) ↔ WellOrdered items) ∧
      ∀ e, Module.ofItems items = .error e ↔
        ∃ before item after, items = before ++ item :: after ∧ WellOrdered before ∧ Offence before item e := by
  refine ⟨⟨?_, ?_⟩, fun e => ⟨?_, ?_⟩⟩
  · rintro ⟨m, hm⟩
    exact (Module.bound_of_ofItems hm).1
  · intro hitems
    obtain ⟨tab, hok, -⟩ := hitems.ofItems
    exact ⟨_, hok⟩
  · intro he
    rcases wellOrdered_or_offence items with hitems | ⟨before, item, after, e', rfl, hbefore, hoffence⟩
    · obtain ⟨tab, hok, -⟩ := hitems.ofItems
      rw [hok] at he
      cases he
    · obtain rfl : e' = e := Except.error.inj ((hoffence.ofItems hbefore).symm.trans he)
      exact ⟨before, item, after, rfl, hbefore, hoffence⟩
  · rintro ⟨before, item, after, rfl, hbefore, hoffence⟩
    exact hoffence.ofItems hbefore

end DualInference
