/-
The tables of modules.

A table that comes from binding the items of a program holds declarations and primitives only. No name in it is a type
variable or a local value, the names of one variable definition agree on it and on its home, and every aggregate is one
that the program declares (`Settled`). Binding one item keeps this so, whichever item it is.
-/
import DualInference.Module
import DualInference.Proofs.Outcome

namespace DualInference

namespace SymbolTable

/-- a symbol that is a declaration or a primitive -/
def Declared (symbol : Symbol) : Prop :=
  match symbol.kind with
  | .typeVar _ _ => False
  | .localVar _ => False
  | _ => True

/-- the declarations of a program, and nothing that only exists while something is looked into -/
structure Settled (items : List Item) (tab : SymbolTable) : Prop where
  declared : ∀ {id symbol}, tab.symbol? id = some symbol → Declared symbol
  group : ∀ {id name home d group position}, tab.symbol? id = some ⟨name, home, .global d group position⟩ →
    ∃ name' position', tab.symbol? group = some ⟨name', home, .global d group position'⟩
  aggregate : ∀ {id name home kind d}, tab.symbol? id = some ⟨name, home, .aggregate kind d⟩ → .aggregate kind d ∈ items

/-! ## Symbols -/

theorem symbols_declare {tab tab' : SymbolTable} {s : ScopeId} {name : Ident} {symbol : Symbol}
    (h : tab.declare s name symbol = .ok tab') : tab'.symbols = tab.symbols.push symbol := by
  unfold declare add bindIdent bind at h
  dsimp only at h
  split at h
  · rename_i tab₁ hb
    cases h
    split at hb
    · cases hb
    · cases hb
      rfl
  · cases h

theorem symbol?_push {tab tab' : SymbolTable} {symbol : Symbol} (h : tab'.symbols = tab.symbols.push symbol)
    (id : SymbolId) : tab'.symbol? id = if id = tab.symbols.size then some symbol else tab.symbol? id := by
  unfold symbol?
  rw [h, Array.getElem?_push]

theorem symbol?_modifyKind (tab : SymbolTable) (id id' : SymbolId) (f : SymbolKind → SymbolKind) :
    (tab.modifyKind id f).symbol? id' =
      (tab.symbol? id').map fun symbol => if id' = id then { symbol with kind := f symbol.kind } else symbol := by
  unfold symbol? modifyKind
  dsimp only
  rw [Array.getElem?_modify]
  split
  · rename_i h
    rw [h]
    simp
  · rename_i h
    simp [Ne.symm h]

theorem symbol?_lt {tab : SymbolTable} {id : SymbolId} {symbol : Symbol} (h : tab.symbol? id = some symbol) :
    id < tab.symbols.size := by
  obtain ⟨hlt, _⟩ := Array.getElem?_eq_some_iff.1 h
  exact hlt

namespace Settled

variable {items : List Item} {tab tab' : SymbolTable}

theorem mono {items' : List Item} (hsub : ∀ item ∈ items, item ∈ items') (h : Settled items tab) :
    Settled items' tab :=
  ⟨h.declared, h.group, fun hid => hsub _ (h.aggregate hid)⟩

theorem congr (h : Settled items tab) (hsymbols : tab'.symbols = tab.symbols) : Settled items tab' := by
  have hsymbol : ∀ id, tab'.symbol? id = tab.symbol? id := fun id => by rw [symbol?, symbol?, hsymbols]
  refine ⟨fun hid => h.declared (hsymbol _ ▸ hid), fun hid => ?_, fun hid => h.aggregate (hsymbol _ ▸ hid)⟩
  obtain ⟨name', position', hg⟩ := h.group (hsymbol _ ▸ hid)
  exact ⟨name', position', (hsymbol _).trans hg⟩

/-- A new symbol may be any declaration; a name of a variable definition needs the name that stands for the whole
definition, and an aggregate needs its item. -/
theorem push (h : Settled items tab) {symbol : Symbol} (htab : tab'.symbols = tab.symbols.push symbol)
    (hdecl : Declared symbol)
    (hgroup : ∀ d group position, symbol.kind = .global d group position →
      ∃ name' position', tab'.symbol? group = some ⟨name', symbol.home, .global d group position'⟩)
    (hitem : ∀ kind d, symbol.kind = .aggregate kind d → .aggregate kind d ∈ items) : Settled items tab' := by
  have hold : ∀ {id symbol'}, tab.symbol? id = some symbol' → tab'.symbol? id = some symbol' := by
    intro id symbol' hid
    rw [symbol?_push htab, if_neg (Nat.ne_of_lt (symbol?_lt hid)), hid]
  constructor
  · intro id symbol' hid
    rw [symbol?_push htab] at hid
    split at hid
    · cases hid
      exact hdecl
    · exact h.declared hid
  · intro id name home d group position hid
    rw [symbol?_push htab] at hid
    split at hid
    · cases hid
      exact hgroup d group position rfl
    · obtain ⟨name', position', hg⟩ := h.group hid
      exact ⟨name', position', hold hg⟩
  · intro id name home kind d hid
    rw [symbol?_push htab] at hid
    split at hid
    · cases hid
      exact hitem kind d rfl
    · exact h.aggregate hid

/-- To attach something to an owner changes neither aggregates nor variables, and makes none. -/
theorem modifyKind (h : Settled items tab) (id : SymbolId) {f : SymbolKind → SymbolKind}
    (hf : ∀ kind, f kind = kind ∨ (∃ p is, kind = .predicate p is ∧ ∃ is', f kind = .predicate p is') ∨
      ∃ n os, kind = .overloadable n os ∧ ∃ os', f kind = .overloadable n os') :
    Settled items (tab.modifyKind id f) := by
  have hinv : ∀ {id' symbol'}, (tab.modifyKind id f).symbol? id' = some symbol' → ∃ symbol,
      tab.symbol? id' = some symbol ∧ (symbol' = symbol ∨ Declared symbol' ∧
        (∀ d group position, symbol'.kind ≠ .global d group position) ∧ ∀ kind d, symbol'.kind ≠ .aggregate kind d) := by
    intro id' symbol' hid
    rw [symbol?_modifyKind] at hid
    obtain ⟨symbol, hs, rfl⟩ := Option.map_eq_some_iff.1 hid
    refine ⟨symbol, hs, ?_⟩
    split
    · rcases hf symbol.kind with hk | ⟨p, is, _, is', hk⟩ | ⟨n, os, _, os', hk⟩
      · rw [hk]
        exact .inl rfl
      · rw [hk]
        exact .inr ⟨trivial, nofun, nofun⟩
      · rw [hk]
        exact .inr ⟨trivial, nofun, nofun⟩
    · exact .inl rfl
  constructor
  · intro id' symbol' hid
    obtain ⟨symbol, hs, rfl | ⟨hd, _⟩⟩ := hinv hid
    · exact h.declared hs
    · exact hd
  · intro id' name home d group position hid
    obtain ⟨symbol, hs, rfl | ⟨_, hne, _⟩⟩ := hinv hid
    · obtain ⟨name', position', hg⟩ := h.group hs
      refine ⟨name', position', ?_⟩
      rw [symbol?_modifyKind, hg, Option.map_some]
      rcases hf (.global d group position') with hk | ⟨_, _, hk, _⟩ | ⟨_, _, hk, _⟩
      · rw [hk]
        split <;> rfl
      · cases hk
      · cases hk
    · exact absurd rfl (hne d group position)
  · intro id' name home kind d hid
    obtain ⟨symbol, hs, rfl | ⟨_, _, hne⟩⟩ := hinv hid
    · exact h.aggregate hs
    · exact absurd rfl (hne kind d)

/-! ## Items -/

theorem declareNames {s : ScopeId} {d : Variables} {group : SymbolId} {position : Nat} {vs : List Variable}
    (h : Settled items tab)
    (hgroup : group = tab.symbols.size ∨ ∃ name position, tab.symbol? group = some ⟨name, s, .global d group position⟩)
    (hd : SymbolTable.declareNames s d group tab position vs = .ok tab') : Settled items tab' := by
  induction vs generalizing tab position with
  | nil =>
    cases hd
    exact h
  | cons v vs ih =>
    rw [SymbolTable.declareNames] at hd
    split at hd
    · rename_i tab₁ htab₁
      have hsym := symbols_declare htab₁
      -- the definition goes by its first name, which is the one just bound or bound already
      have hgroup₁ : ∃ name position, tab₁.symbol? group = some ⟨name, s, .global d group position⟩ := by
        rcases hgroup with rfl | ⟨name, position', hg⟩
        · exact ⟨v.name.name, position, by rw [symbol?_push hsym, if_pos rfl]⟩
        · exact ⟨name, position', by rw [symbol?_push hsym, if_neg (Nat.ne_of_lt (symbol?_lt hg)), hg]⟩
      refine ih (h.push hsym trivial ?_ nofun) (.inr hgroup₁) hd
      intro d' group' position' hk
      cases hk
      exact hgroup₁
    · cases hd

/-- Binding one item keeps a table settled. -/
theorem declareItem {s : ScopeId} {item : Item} (hmem : item ∈ items) (h : Settled items tab)
    (hd : SymbolTable.declareItem s tab item = .ok tab') : Settled items tab' := by
  cases item with
  | predicate d => exact h.push (symbols_declare hd) trivial nofun nofun
  | predicateInstance d =>
    rw [SymbolTable.declareItem] at hd
    obtain ⟨id, -, hd⟩ := except_bind_eq_ok hd
    cases hd
    refine h.modifyKind id fun kind => ?_
    cases kind with
    | predicate p is => exact .inr (.inl ⟨p, is, rfl, _, rfl⟩)
    | _ => exact .inl rfl
  | aggregate kind d =>
    refine h.push (symbols_declare hd) trivial nofun ?_
    intro kind' d' hk
    cases hk
    exact hmem
  | vars d => exact h.declareNames (.inl rfl) hd
  | procedure d => exact h.push (symbols_declare hd) trivial nofun nofun
  | overloadable name => exact h.push (symbols_declare hd) trivial nofun nofun
  | overload d =>
    rw [SymbolTable.declareItem] at hd
    obtain ⟨id, -, hd⟩ := except_bind_eq_ok hd
    cases hd
    refine h.modifyKind id fun kind => ?_
    cases kind with
    | overloadable n os => exact .inr (.inr ⟨n, os, rfl, _, rfl⟩)
    | _ => exact .inl rfl

end Settled

/-! ## Primitives -/

theorem kind_of_primitive {entry : String × SymbolKind} (h : entry ∈ primitives) :
    (∃ b : Builtin, entry = (b.name, .builtin b)) ∨ ∃ op : Operation, entry = (op.name, .primitive op) := by
  rcases List.mem_append.1 h with hb | hop
  · obtain ⟨b, _, rfl⟩ := List.mem_map.1 hb
    exact .inl ⟨b, rfl⟩
  · obtain ⟨op, _, rfl⟩ := List.mem_map.1 hop
    exact .inr ⟨op, rfl⟩

theorem settled_bindAll {tab : SymbolTable} (h : Settled [] tab) (s : ScopeId) (entries : List (String × SymbolKind))
    (hentries : ∀ entry ∈ entries, (∃ b, entry.2 = .builtin b) ∨ ∃ op, entry.2 = .primitive op) :
    Settled [] (tab.bindAll s entries) := by
  unfold bindAll
  induction entries generalizing tab with
  | nil => exact h
  | cons entry entries ih =>
    rw [List.foldl_cons]
    refine ih ?_ fun entry' hmem => hentries entry' (by simp [hmem])
    have hsym : ∀ tab₁ : SymbolTable, tab₁.symbols = tab.symbols.push ⟨entry.1, s, entry.2⟩ → Settled [] tab₁ := by
      intro tab₁ htab₁
      rcases hentries entry (by simp) with ⟨b, hb⟩ | ⟨op, hop⟩
      · rw [hb] at htab₁
        exact h.push htab₁ trivial nofun nofun
      · rw [hop] at htab₁
        exact h.push htab₁ trivial nofun nofun
    apply hsym
    unfold add bind
    dsimp only
    split <;> rfl

-- The list of primitives is long: the equations are proved by rewriting, so that nothing evaluates it.

theorem openPrimitives_snd (tab : SymbolTable) :
    tab.openPrimitives.2 = (tab.openScope []).2.bindAll tab.scopes.size primitives := by
  simp only [openPrimitives, openScope]

theorem symbols_openChild (tab : SymbolTable) (parent : ScopeId) : (tab.openChild parent).2.symbols = tab.symbols :=
  rfl

theorem symbols_letGo (tab : SymbolTable) (s : ScopeId) : (tab.letGo s).symbols = tab.symbols :=
  rfl

theorem table_empty : Module.empty.table =
    (((openPrimitives {}).2.letGo (openPrimitives {}).1).openChild (openPrimitives {}).1).2 := by
  rw [Module.empty]

theorem symbols_empty : Module.empty.table.symbols = (openPrimitives {}).2.symbols := by
  rw [table_empty, symbols_openChild, symbols_letGo]

theorem settled_openPrimitives {tab : SymbolTable} (h : Settled [] tab) : Settled [] tab.openPrimitives.2 := by
  have hopen : Settled [] (tab.openScope []).2 := ⟨h.declared, h.group, h.aggregate⟩
  rw [openPrimitives_snd]
  refine settled_bindAll hopen tab.scopes.size primitives fun entry hentry => ?_
  rcases kind_of_primitive hentry with ⟨b, rfl⟩ | ⟨op, rfl⟩
  · exact .inl ⟨b, rfl⟩
  · exact .inr ⟨op, rfl⟩

theorem settled_empty : Settled [] Module.empty.table := by
  have hnone : ∀ id, symbol? {} id = none := fun id => by simp [symbol?]
  have hstart : Settled [] {} := by
    refine ⟨?_, ?_, ?_⟩
    · intro id symbol hid
      simp [hnone] at hid
    · intro id name home d group position hid
      simp [hnone] at hid
    · intro id name home kind d hid
      simp [hnone] at hid
  exact (settled_openPrimitives hstart).congr symbols_empty

end SymbolTable

/-- The table of a bound program is settled. -/
theorem Module.settled {items : List Item} {m : Module} (h : Module.ofItems items = .ok m) : m.table.Settled items := by
  rw [ofItems] at h
  obtain ⟨tab, htab, h⟩ := except_bind_eq_ok h
  cases h
  have hempty : Module.empty.table.Settled items :=
    SymbolTable.settled_empty.mono fun _ hmem => absurd hmem List.not_mem_nil
  exact foldlM_keeps (fun item hmem _ _ h hd => h.declareItem hmem hd) hempty htab

theorem Module.ofItems_of_isOk {items : List Item} (h : (Module.ofItems items).isOk = true) :
    ∃ m, Module.ofItems items = .ok m := by
  cases hm : Module.ofItems items with
  | ok m => exact ⟨m, rfl⟩
  | error e =>
    rw [hm] at h
    cases h

/-- What can be read off the module of a program can be read off once the binder has run. -/
theorem Module.exists_of_bind {items : List Item} {α : Type} {f : Module → Option α} {a : α}
    (h : (Module.ofItems items).toOption.bind f = some a) : ∃ m, Module.ofItems items = .ok m ∧ f m = some a := by
  cases hm : Module.ofItems items with
  | ok m =>
    rw [hm] at h
    exact ⟨m, rfl, h⟩
  | error e =>
    rw [hm] at h
    cases h

/-! ## Names -/

theorem SymbolTable.own?_bind {tab tab' : SymbolTable} {s : ScopeId} {name : String} {id : SymbolId}
    (h : tab.bind s name id = some tab') (hs : s < tab.scopes.size) (name' : String) :
    tab'.own? s name' = if name' = name then some id else tab.own? s name' := by
  unfold bind at h
  split at h
  · cases h
  · cases h
    unfold own? names
    dsimp only
    rw [Array.getElem?_modify, if_pos rfl, Array.getElem?_eq_getElem hs]
    simp only [Option.map_some, Option.getD_some, List.lookup_cons]
    by_cases hname : name' = name
    · simp [hname]
    · rw [beq_eq_false_iff_ne.2 hname, if_neg hname]

theorem Module.empty_scope_lt : empty.scope < empty.table.scopes.size := by
  simp only [empty, SymbolTable.openChild, SymbolTable.openScope, SymbolTable.letGo, Array.size_push]
  exact Nat.lt_add_one _

end DualInference
