/-
Inference in disguise.

A program is disguised by giving its symbols other numbers and its spans other places. A computation follows another one
if, started from the disguised state, it does in disguise what the other does (`Infer.Follows`): it ends where the other
ends, and its result, its error and its final state are those of the other, disguised. On the way no hidden variable is
bound, and none comes up in a result.

Two tables agree under a disguise if corresponding symbols mean the same in disguise, and the names that a declaration
mentions stand for corresponding symbols where it is read (`SymbolTable.Agrees`). Two environments only have to agree on
the names that come up (`Env.Agrees`); what else they know makes no difference.
-/
import DualInference.Proofs.Inference.Parameters
import DualInference.Proofs.Store.Disguise

namespace DualInference

/-! ## Program texts -/

def Ident.under (δ : Disguise) (ident : Ident) : Ident :=
  { ident with span := δ.span ident.span }

mutual

/-- the expression with its spans at other places -/
def Expr.under (δ : Disguise) : Expr → Expr
  | .addressOf span operand => .addressOf (δ.span span) (operand.under δ)
  | .index span base indexes => .index (δ.span span) (base.under δ) (Expr.underList δ indexes)
  | .call span callee args => .call (δ.span span) (callee.under δ) (Expr.underList δ args)
  | .field span base ident => .field (δ.span span) (base.under δ) (ident.under δ)
  | .element span base position => .element (δ.span span) (base.under δ) position
  | .pointee span base => .pointee (δ.span span) (base.under δ)
  | .array span elements => .array (δ.span span) (Expr.underList δ elements)
  | .tuple span elements => .tuple (δ.span span) (Expr.underList δ elements)
  | .name span ident => .name (δ.span span) (ident.under δ)
  | .bool span value => .bool (δ.span span) value
  | .int span value => .int (δ.span span) value
  | .char span value => .char (δ.span span) value

def Expr.underList (δ : Disguise) : List Expr → List Expr
  | [] => []
  | e :: es => e.under δ :: Expr.underList δ es

end

def Field.under (δ : Disguise) (f : Field) : Field :=
  ⟨f.name.under δ, f.type.under δ⟩

def Aggregate.under (δ : Disguise) (d : Aggregate) : Aggregate :=
  ⟨d.name.under δ, d.typeVars.map (·.under δ), d.fields.map (·.under δ)⟩

def Variable.under (δ : Disguise) (v : Variable) : Variable :=
  ⟨v.name.under δ, v.type.map (·.under δ)⟩

def Variables.under (δ : Disguise) (d : Variables) : Variables :=
  ⟨d.names.map (·.under δ), d.init.under δ⟩

def Formal.under (δ : Disguise) : Formal → Formal
  | .value passing ident t => .value passing (ident.under δ) (t.under δ)
  | .type t => .type (t.under δ)

def Procedure.under (δ : Disguise) (d : Procedure) : Procedure where
  name := d.name.under δ
  typeVars := d.typeVars.map (·.under δ)
  formals := d.formals.map (·.under δ)
  conditions := d.conditions.map (·.under δ)
  returnType := d.returnType.map (·.under δ)
  body := d.body.map (·.under δ)
  span := δ.span d.span

section

variable {δ : Disguise}

theorem Expr.span_under (e : Expr) : (e.under δ).span = δ.span e.span := by
  cases e <;> rfl

theorem Expr.natLiteral?_under (e : Expr) : (e.under δ).natLiteral? = e.natLiteral? := by
  cases e with
  | int span value => cases value <;> rfl
  | _ => rfl

theorem Expr.length_underList (es : List Expr) : (Expr.underList δ es).length = es.length := by
  induction es with
  | nil => rfl
  | cons e es ih => rw [Expr.underList, List.length_cons, List.length_cons, ih]

theorem Formal.typeExpr_under (formal : Formal) : (formal.under δ).typeExpr = formal.typeExpr.under δ := by
  cases formal <;> rfl

end

/-! ### Spans -/

mutual

/-- the spans in an expression, of the expressions inside it and of their identifiers -/
def Expr.spans : Expr → List Span
  | .addressOf span operand => span :: operand.spans
  | .index span base indexes => span :: (base.spans ++ Expr.spansList indexes)
  | .call span callee args => span :: (callee.spans ++ Expr.spansList args)
  | .field span base ident => span :: ident.span :: base.spans
  | .element span base _ => span :: base.spans
  | .pointee span base => span :: base.spans
  | .array span elements => span :: Expr.spansList elements
  | .tuple span elements => span :: Expr.spansList elements
  | .name span ident => [span, ident.span]
  | .bool span _ => [span]
  | .int span _ => [span]
  | .char span _ => [span]

def Expr.spansList : List Expr → List Span
  | [] => []
  | e :: es => e.spans ++ Expr.spansList es

end

def Field.spans (f : Field) : List Span :=
  f.name.span :: f.type.spans

def Aggregate.spans (d : Aggregate) : List Span :=
  d.name.span :: (d.typeVars.map (·.span) ++ d.fields.flatMap (·.spans))

def Variable.spans (v : Variable) : List Span :=
  v.name.span :: v.type.elim [] Expr.spans

def Variables.spans (d : Variables) : List Span :=
  d.names.flatMap (·.spans) ++ d.init.spans

def Formal.spans : Formal → List Span
  | .value _ ident t => ident.span :: t.spans
  | .type t => t.spans

def Procedure.spans (d : Procedure) : List Span :=
  d.span :: d.name.span :: (d.typeVars.map (·.span) ++ d.formals.flatMap (·.spans) ++ d.conditions.flatMap (·.spans) ++
    d.returnType.elim [] Expr.spans ++ d.body.elim [] Expr.spans)

/-! ### Names that are mentioned -/

namespace Aggregate

/-- the names in the field types of an aggregate -/
def usedNames (d : Aggregate) : List String :=
  d.fields.flatMap (·.type.names)

end Aggregate

namespace Variables

/-- the names in the annotations and the initializer of a definition -/
def usedNames (d : Variables) : List String :=
  d.names.flatMap (fun v => v.type.elim [] Expr.names) ++ d.init.names

end Variables

namespace Procedure

/-- the names in the types, the conditions and the body of a procedure -/
def usedNames (d : Procedure) : List String :=
  d.formals.flatMap (·.typeExpr.names) ++ d.conditions.flatMap Expr.names ++ d.returnType.elim [] Expr.names ++
    d.body.elim [] Expr.names

end Procedure

/-- the names that a symbol's declaration mentions -/
def SymbolKind.usedNames : SymbolKind → List String
  | .aggregate _ d => d.usedNames
  | .procedure d => d.usedNames
  | .global d _ _ => d.usedNames
  | _ => []

/-! ## Meanings and environments -/

def Denotation.under (δ : Disguise) : Denotation → Denotation
  | .value t => .value (t.under δ)
  | .type t => .type (t.under δ)

def LocalName.under (δ : Disguise) : LocalName → LocalName
  | .typeVar t => .typeVar (t.under δ)
  | .param t => .param (t.under δ)

def Origin.under (δ : Disguise) (origin : Origin) : Origin :=
  { origin with id := δ.symbol origin.id }

def Meaning.under (δ : Disguise) : Meaning → Meaning
  | .typeVar t => .typeVar (t.under δ)
  | .localVar t => .localVar (t.under δ)
  | .builtin b => .builtin b
  | .primitive op => .primitive op
  | .aggregate origin kind d => .aggregate (origin.under δ) kind (d.under δ)
  | .procedure origin d => .procedure (origin.under δ) (d.under δ)
  | .overloadable => .overloadable
  | .global origin d group position => .global (origin.under δ) (d.under δ) (δ.symbol group) position
  | .unusable => .unusable

instance : Disguised Unit := ⟨fun _ => id⟩
instance : Disguised Nat := ⟨fun _ => id⟩
instance : Disguised String := ⟨fun _ => id⟩
instance : Disguised Denotation where
  disguise := Denotation.under
instance : Disguised LocalName := ⟨LocalName.under⟩
instance {α : Type} [Disguised α] : Disguised (List α) := ⟨fun δ => List.map (Disguised.disguise δ)⟩
instance {α β : Type} [Disguised α] [Disguised β] : Disguised (α × β) :=
  ⟨fun δ => Prod.map (Disguised.disguise δ) (Disguised.disguise δ)⟩
instance : Disguised Error := ⟨fun δ e => { e with span := δ.span e.span }⟩

instance {α : Type} [Disguised α] : Disguised (Except Error α) where
  disguise δ
    | .ok a => .ok (Disguised.disguise δ a)
    | .error e => .error (Disguised.disguise δ e)

open Disguised (disguise)

/-- Injective changes of keys keep what is found under them. -/
theorem lookup_map_injective {α α' β β' : Type} [BEq α] [LawfulBEq α] [BEq α'] [LawfulBEq α'] {k : α → α'}
    (hk : Function.Injective k) (f : β → β') (l : List (α × β)) (a : α) :
    (l.map (Prod.map k f)).lookup (k a) = (l.lookup a).map f := by
  induction l with
  | nil => rfl
  | cons p l ih =>
    obtain ⟨b, x⟩ := p
    rw [List.map_cons, Prod.map_apply, List.lookup_cons, List.lookup_cons]
    by_cases hab : a = b
    · rw [hab, beq_self_eq_true, beq_self_eq_true]
      rfl
    · rw [beq_eq_false_iff_ne.2 hab, beq_eq_false_iff_ne.2 fun h => hab (hk h)]
      exact ih

theorem lookup_under {α : Type} [Disguised α] (δ : Disguise) (l : List (String × α)) (name : String) :
    (disguise δ l).lookup name = (l.lookup name).map (disguise δ) :=
  lookup_map_injective Function.injective_id (disguise δ) l name

namespace Frame

variable {δ : Disguise}

theorem add_under (frame : Frame) (name : Ident) (entry : LocalName) :
    Frame.add (disguise δ frame) (name.under δ) (entry.under δ) = disguise δ (frame.add name entry) := by
  unfold add
  rw [lookup_under]
  simp only [Ident.under]
  cases frame.lookup name.name <;> rfl

theorem ofTypeVars_under (names : List Ident) (types : List Ty) :
    ofTypeVars (names.map (·.under δ)) (disguise δ types) = disguise δ (ofTypeVars names types) := by
  have hfold : ∀ (names : List Ident) (types : List Ty) (frame : Frame),
      ((names.map (·.under δ)).zip (disguise δ types)).foldlM
        (fun frame p => Frame.add frame p.1 (.typeVar p.2)) (disguise δ frame) =
      disguise δ ((names.zip types).foldlM (fun frame p => Frame.add frame p.1 (.typeVar p.2)) frame) := by
    intro names
    induction names with
    | nil => exact fun _ _ => rfl
    | cons name names ih =>
      intro types frame
      cases types with
      | nil => rfl
      | cons t types =>
        have hadd := add_under (δ := δ) frame name (.typeVar t)
        simp only [disguise, List.map_cons, List.zip_cons_cons, List.foldlM_cons] at hadd ih ⊢
        rw [show LocalName.typeVar (t.under δ) = LocalName.under δ (.typeVar t) from rfl, hadd]
        cases frame.add name (.typeVar t) with
        | error e => rfl
        | ok frame' => exact ih types frame'
  exact hfold names types []

theorem visible_add {frame frame' : Frame} {name : Ident} {entry : LocalName} (hframe : Visible δ frame)
    (hentry : Visible δ entry) (h : frame.add name entry = .ok frame') : Visible δ frame' := by
  obtain ⟨_, rfl⟩ := add_eq_ok.1 h
  exact visible_cons.2 ⟨visible_pair.2 ⟨nofun, hentry⟩, hframe⟩

theorem visible_ofTypeVars {names : List Ident} {types : List Ty} {frame : Frame} (htypes : Visible δ types)
    (h : ofTypeVars names types = .ok frame) : Visible δ frame := by
  refine foldlM_keeps (P := Visible δ) (fun p hp frame₁ frame₂ hframe hadd => ?_) (fun _ hv => by cases hv) h
  have hentry : Visible δ (LocalName.typeVar p.2) := visible_list.1 htypes p.2 (List.of_mem_zip hp).2
  exact visible_add hframe hentry hadd

end Frame

/-! ## Tables -/

/-- what a symbol means -/
def SymbolTable.meaning? (tab : SymbolTable) (id : SymbolId) : Option Meaning :=
  (tab.symbol? id).map (Symbol.meaning id)

/-- the second table is the first one in disguise, as far as declarations can tell -/
structure SymbolTable.Agrees (δ : Disguise) (tab tab' : SymbolTable) : Prop where
  name : ∀ id, tab'.nameOf (δ.symbol id) = tab.nameOf id
  meaning : ∀ id, tab'.meaning? (δ.symbol id) = (tab.meaning? id).map (·.under δ)
  visible : ∀ {id symbol}, tab.symbol? id = some symbol → Visible δ symbol.kind
  alive : ∀ s, tab'.alive s = tab.alive s
  inside : ∀ {id symbol}, tab.symbol? id = some symbol → ∀ name ∈ symbol.kind.usedNames,
    tab'.lookup symbol.home name = (tab.lookup symbol.home name).map δ.symbol

/-- the names mean the same in both environments, in disguise -/
def Env.Agrees (δ : Disguise) (tab tab' : SymbolTable) (names : List String) (env env' : Env) : Prop :=
  ∀ name ∈ names, env'.meaning? tab' name = (env.meaning? tab name).map (·.under δ) ∧
    ∀ m, env.meaning? tab name = some m → Visible δ m

section

variable {δ : Disguise} {tab tab' : SymbolTable}

theorem Env.Agrees.mono {names names' : List String} {env env' : Env} (h : Env.Agrees δ tab tab' names env env')
    (hsub : ∀ name ∈ names', name ∈ names) : Env.Agrees δ tab tab' names' env env' :=
  fun name hname => h name (hsub name hname)

theorem Env.Agrees.left {names names' : List String} {env env' : Env}
    (h : Env.Agrees δ tab tab' (names ++ names') env env') : Env.Agrees δ tab tab' names env env' :=
  h.mono fun _ => List.mem_append_left _

theorem Env.Agrees.right {names names' : List String} {env env' : Env}
    (h : Env.Agrees δ tab tab' (names ++ names') env env') : Env.Agrees δ tab tab' names' env env' :=
  h.mono fun _ => List.mem_append_right _

theorem Symbol.meaning_visible {id : SymbolId} {symbol : Symbol} (h : Visible δ symbol.kind) :
    Visible δ (symbol.meaning id) := by
  obtain ⟨name, home, kind⟩ := symbol
  cases kind with
  | typeVar span t => exact h
  | localVar t => exact h
  | _ => nofun

/-- Names that stand for corresponding symbols mean the same behind frames that correspond. -/
theorem SymbolTable.Agrees.env (h : tab.Agrees δ tab') {names : List String} {scope scope' : ScopeId}
    (hlookup : ∀ name ∈ names, tab'.lookup scope' name = (tab.lookup scope name).map δ.symbol) {locals : Frame}
    (hlocals : Visible δ locals) : Env.Agrees δ tab tab' names ⟨locals, scope⟩ ⟨disguise δ locals, scope'⟩ := by
  intro name hname
  constructor
  · unfold Env.meaning?
    dsimp only
    rw [lookup_under]
    cases locals.lookup name with
    | some entry => cases entry <;> rfl
    | none =>
      dsimp only [Option.map_none]
      rw [hlookup name hname]
      cases tab.lookup scope name with
      | none => rfl
      | some id =>
        have hmeaning := h.meaning id
        unfold SymbolTable.meaning? at hmeaning
        dsimp only [Option.map_some, Option.bind_eq_bind, Option.bind_some]
        cases hs : tab.symbol? id <;> cases hs' : tab'.symbol? (δ.symbol id) <;> simp_all
  · intro m hm
    rcases Env.meaning?_cases hm with ⟨entry, hentry, rfl⟩ | ⟨id, symbol, _, hsymbol, rfl⟩
    · have hvisible : Visible δ entry := visible_lookup hlocals hentry
      cases entry <;> exact hvisible
    · exact Symbol.meaning_visible (h.visible hsymbol)

end

/-! ## Memos and states -/

def Progress.under (δ : Disguise) : Progress → Progress
  | .inProgress => .inProgress
  | .resolved t => .resolved (t.under δ)

/-- the key with its size, in disguise -/
def Key.underSized (δ : Disguise) : Nat × Key → Nat × Key :=
  Prod.map id (disguise δ)

def Cache.under (δ : Disguise) (c : Cache) : Cache :=
  ⟨c.entries.map (Prod.map (Key.underSized δ) (·.under δ))⟩

def Memo.under (δ : Disguise) (m : Memo) : Memo :=
  ⟨m.caches.map (Prod.map δ.symbol (·.under δ))⟩

def State.under (δ : Disguise) (st : State) : State :=
  ⟨st.store.under δ, st.memo.under δ⟩

section

variable {δ : Disguise}

theorem Denotation.under_injective : Function.Injective (under δ) := by
  intro d d' h
  cases d <;> cases d' <;> simp only [under, value.injEq, type.injEq, reduceCtorEq] at h
  all_goals rw [Ty.under_injective δ _ _ h]

theorem Key.underSized_injective : Function.Injective (Key.underSized δ) :=
  Function.injective_id.prodMap (List.map_injective_iff.2 Denotation.under_injective)

theorem Key.sized_under (key : Key) : Key.sized (disguise δ key) = Key.underSized δ (Key.sized key) := by
  have hsize : ∀ (key : Key) (n : Nat), (disguise δ key).foldl (fun n d => n + d.ty.size) n =
      key.foldl (fun n d => n + d.ty.size) n := by
    intro key
    induction key with
    | nil => exact fun _ => rfl
    | cons d key ih =>
      intro n
      have hd : (d.under δ).ty.size = d.ty.size := by cases d <;> exact Ty.size_under δ _
      simp only [disguise, List.map_cons, List.foldl_cons] at ih ⊢
      rw [ih, hd]
  rw [Key.sized, hsize]
  rfl

theorem filter_map_ne {α α' β β' : Type} [DecidableEq α] [DecidableEq α'] {k : α → α'} (hk : Function.Injective k)
    (f : β → β') (l : List (α × β)) (a : α) :
    (l.map (Prod.map k f)).filter (fun entry => entry.1 ≠ k a) =
      (l.filter fun entry => entry.1 ≠ a).map (Prod.map k f) := by
  rw [List.filter_map]
  congr 2
  funext p
  simp [hk.eq_iff]

theorem Cache.state?_under (c : Cache) (key : Key) : (c.under δ).state? (disguise δ key) = (c.state? key).map (·.under δ) := by
  rw [Cache.state?, Key.sized_under]
  exact lookup_map_injective Key.underSized_injective _ c.entries _

theorem Cache.erase_under (c : Cache) (key : Key) : (c.erase key).under δ = (c.under δ).erase (disguise δ key) := by
  simp only [Cache.erase, Key.sized_under]
  exact congrArg Cache.mk (filter_map_ne Key.underSized_injective _ c.entries _).symm

theorem Cache.insert_under (c : Cache) (key : Key) (p : Progress) :
    (c.insert key p).under δ = (c.under δ).insert (disguise δ key) (p.under δ) := by
  have herase := Cache.erase_under (δ := δ) c key
  simp only [Cache.insert, Key.sized_under, ← herase]
  rfl

theorem Memo.cache_under (m : Memo) (id : SymbolId) : (m.under δ).cache (δ.symbol id) = (m.cache id).under δ := by
  unfold Memo.cache Memo.under
  dsimp only
  rw [lookup_map_injective δ.injective]
  cases m.caches.lookup id <;> rfl

theorem Memo.state?_under (m : Memo) (id : SymbolId) (key : Key) :
    (m.under δ).state? (δ.symbol id) (disguise δ key) = (m.state? id key).map (·.under δ) := by
  rw [Memo.state?, Memo.cache_under, Cache.state?_under, Memo.state?]

theorem Memo.modify_under {f g : Cache → Cache} (h : ∀ c, (f c).under δ = g (c.under δ)) (m : Memo) (id : SymbolId) :
    (m.modify id f).under δ = (m.under δ).modify (δ.symbol id) g := by
  have hcache := Memo.cache_under (δ := δ) m id
  simp only [Memo.modify, hcache, ← h]
  exact congrArg Memo.mk (congrArg (List.cons _) (filter_map_ne δ.injective _ m.caches id).symm)

theorem Cache.size_under (c : Cache) : (c.under δ).size = c.size :=
  List.length_map _

theorem Memo.finish_under (m : Memo) (id : SymbolId) (key : Key) (r : Except Error Ty) :
    (m.finish id key r).under δ = (m.under δ).finish (δ.symbol id) (disguise δ key) (disguise δ r) := by
  cases r with
  | ok t =>
    exact Memo.modify_under (g := (·.resolve (disguise δ key) (t.under δ))) (fun c => c.insert_under key (.resolved t)) m id
  | error e =>
    exact Memo.modify_under (g := (·.abandon (disguise δ key))) (fun c => c.erase_under key) m id

end

/-- hidden variables are out of sight in the store, and no recorded answer mentions one -/
structure State.Hides (δ : Disguise) (st : State) : Prop where
  store : st.store.Hides δ
  answers : ∀ {id key t}, st.memo.state? id key = some (.resolved t) → Visible δ t

/-! ## Disguises that change nothing to see -/

/-- the spans stay at their places -/
def Disguise.Fixes (δ : Disguise) (spans : List Span) : Prop :=
  ∀ span ∈ spans, δ.span span = span

/-- all spans stay at their places -/
def Disguise.KeepsSpans (δ : Disguise) : Prop :=
  ∀ span, δ.span span = span

/-- symbols keep their numbers -/
def Disguise.KeepsSymbols (δ : Disguise) : Prop :=
  ∀ id, δ.symbol id = id

/-- symbols keep their numbers and spans their places -/
structure Disguise.Plain (δ : Disguise) : Prop where
  symbol : δ.KeepsSymbols
  span : δ.KeepsSpans

section

variable {δ : Disguise}

theorem Disguise.KeepsSpans.fixes (hδ : δ.KeepsSpans) (spans : List Span) : δ.Fixes spans :=
  fun span _ => hδ span

theorem Disguise.fixes_cons {span : Span} {spans : List Span} :
    δ.Fixes (span :: spans) ↔ δ.span span = span ∧ δ.Fixes spans :=
  List.forall_mem_cons

theorem Disguise.fixes_append {spans spans' : List Span} : δ.Fixes (spans ++ spans') ↔ δ.Fixes spans ∧ δ.Fixes spans' :=
  List.forall_mem_append

theorem Disguise.fixes_flatMap {α : Type} {f : α → List Span} {l : List α} :
    δ.Fixes (l.flatMap f) ↔ ∀ a ∈ l, δ.Fixes (f a) :=
  List.forall_mem_flatMap

theorem map_eq_self {α : Type} {f : α → α} {l : List α} (h : ∀ a ∈ l, f a = a) : l.map f = l :=
  (List.map_congr_left h).trans (List.map_id' l)

theorem Ident.under_eq {ident : Ident} (h : δ.span ident.span = ident.span) : ident.under δ = ident := by
  rw [Ident.under, h]

theorem Ident.map_under_eq {idents : List Ident} (h : δ.Fixes (idents.map (·.span))) : idents.map (·.under δ) = idents :=
  map_eq_self fun _ hident => Ident.under_eq (h _ (List.mem_map_of_mem hident))

mutual

theorem Expr.under_eq : ∀ {e : Expr}, δ.Fixes e.spans → e.under δ = e
  | .addressOf _ _, h => by
    obtain ⟨hspan, hoperand⟩ := Disguise.fixes_cons.1 h
    rw [Expr.under, hspan, Expr.under_eq hoperand]
  | .index _ _ _, h => by
    obtain ⟨hspan, hrest⟩ := Disguise.fixes_cons.1 h
    obtain ⟨hbase, hindexes⟩ := Disguise.fixes_append.1 hrest
    rw [Expr.under, hspan, Expr.under_eq hbase, Expr.underList_eq hindexes]
  | .call _ _ _, h => by
    obtain ⟨hspan, hrest⟩ := Disguise.fixes_cons.1 h
    obtain ⟨hcallee, hargs⟩ := Disguise.fixes_append.1 hrest
    rw [Expr.under, hspan, Expr.under_eq hcallee, Expr.underList_eq hargs]
  | .field _ _ _, h => by
    obtain ⟨hspan, hrest⟩ := Disguise.fixes_cons.1 h
    obtain ⟨hident, hbase⟩ := Disguise.fixes_cons.1 hrest
    rw [Expr.under, hspan, Expr.under_eq hbase, Ident.under_eq hident]
  | .element _ _ _, h => by
    obtain ⟨hspan, hbase⟩ := Disguise.fixes_cons.1 h
    rw [Expr.under, hspan, Expr.under_eq hbase]
  | .pointee _ _, h => by
    obtain ⟨hspan, hbase⟩ := Disguise.fixes_cons.1 h
    rw [Expr.under, hspan, Expr.under_eq hbase]
  | .array _ _, h => by
    obtain ⟨hspan, helements⟩ := Disguise.fixes_cons.1 h
    rw [Expr.under, hspan, Expr.underList_eq helements]
  | .tuple _ _, h => by
    obtain ⟨hspan, helements⟩ := Disguise.fixes_cons.1 h
    rw [Expr.under, hspan, Expr.underList_eq helements]
  | .name _ _, h => by
    obtain ⟨hspan, hrest⟩ := Disguise.fixes_cons.1 h
    rw [Expr.under, hspan, Ident.under_eq (Disguise.fixes_cons.1 hrest).1]
  | .bool _ _, h => by rw [Expr.under, (Disguise.fixes_cons.1 h).1]
  | .int _ _, h => by rw [Expr.under, (Disguise.fixes_cons.1 h).1]
  | .char _ _, h => by rw [Expr.under, (Disguise.fixes_cons.1 h).1]

theorem Expr.underList_eq : ∀ {es : List Expr}, δ.Fixes (Expr.spansList es) → Expr.underList δ es = es
  | [], _ => rfl
  | _ :: _, h => by
    obtain ⟨he, hes⟩ := Disguise.fixes_append.1 h
    rw [Expr.underList, Expr.under_eq he, Expr.underList_eq hes]

end

theorem Expr.map_under_eq {es : List Expr} (h : δ.Fixes (es.flatMap (·.spans))) : es.map (·.under δ) = es :=
  map_eq_self fun e he => Expr.under_eq (Disguise.fixes_flatMap.1 h e he)

theorem Expr.option_under_eq {e? : Option Expr} (h : δ.Fixes (e?.elim [] Expr.spans)) : e?.map (·.under δ) = e? := by
  cases e? with
  | none => rfl
  | some e => rw [Option.map_some, Expr.under_eq h]

theorem Aggregate.under_eq {d : Aggregate} (h : δ.Fixes d.spans) : d.under δ = d := by
  obtain ⟨hname, hrest⟩ := Disguise.fixes_cons.1 h
  obtain ⟨htypeVars, hfields⟩ := Disguise.fixes_append.1 hrest
  have hfield : ∀ f ∈ d.fields, f.under δ = f := by
    intro f hf
    obtain ⟨hident, htype⟩ := Disguise.fixes_cons.1 (Disguise.fixes_flatMap.1 hfields f hf)
    rw [Field.under, Ident.under_eq hident, Expr.under_eq htype]
  rw [Aggregate.under, Ident.under_eq hname, Ident.map_under_eq htypeVars, map_eq_self hfield]

theorem Variables.under_eq {d : Variables} (h : δ.Fixes d.spans) : d.under δ = d := by
  obtain ⟨hnames, hinit⟩ := Disguise.fixes_append.1 h
  have hvariable : ∀ v ∈ d.names, v.under δ = v := by
    intro v hv
    obtain ⟨hident, htype⟩ := Disguise.fixes_cons.1 (Disguise.fixes_flatMap.1 hnames v hv)
    rw [Variable.under, Ident.under_eq hident, Expr.option_under_eq htype]
  rw [Variables.under, map_eq_self hvariable, Expr.under_eq hinit]

theorem Formal.under_eq {formal : Formal} (h : δ.Fixes formal.spans) : formal.under δ = formal := by
  cases formal with
  | value passing ident t =>
    obtain ⟨hident, htype⟩ := Disguise.fixes_cons.1 h
    rw [Formal.under, Ident.under_eq hident, Expr.under_eq htype]
  | type t => rw [Formal.under, Expr.under_eq h]

theorem Procedure.under_eq {d : Procedure} (h : δ.Fixes d.spans) : d.under δ = d := by
  obtain ⟨hspan, hrest⟩ := Disguise.fixes_cons.1 h
  obtain ⟨hname, hrest⟩ := Disguise.fixes_cons.1 hrest
  obtain ⟨hrest, hbody⟩ := Disguise.fixes_append.1 hrest
  obtain ⟨hrest, hreturnType⟩ := Disguise.fixes_append.1 hrest
  obtain ⟨hrest, hconditions⟩ := Disguise.fixes_append.1 hrest
  obtain ⟨htypeVars, hformals⟩ := Disguise.fixes_append.1 hrest
  have hformal : ∀ formal ∈ d.formals, formal.under δ = formal :=
    fun formal hmem => Formal.under_eq (Disguise.fixes_flatMap.1 hformals formal hmem)
  rw [Procedure.under, Ident.under_eq hname, Ident.map_under_eq htypeVars, map_eq_self hformal,
    Expr.map_under_eq hconditions, Expr.option_under_eq hreturnType, Expr.option_under_eq hbody, hspan]

theorem Error.under_eq (hδ : δ.KeepsSpans) (e : Error) : disguise δ e = e := by
  simp only [disguise]
  rw [hδ]

theorem Former.under_eq (hδ : δ.KeepsSymbols) (f : Former) : f.under δ = f := by
  cases f with
  | aggregate kind id => rw [Former.under, hδ]
  | tuple => rfl

mutual

theorem Ty.under_eq (hδ : δ.KeepsSymbols) : ∀ t : Ty, t.under δ = t
  | .scalar _ => rfl
  | .wrap _ t => by rw [Ty.under, Ty.under_eq hδ t]
  | .compound _ ts => by rw [Ty.under, Former.under_eq hδ, Ty.underList_eq hδ ts]
  | .var _ => rfl

theorem Ty.underList_eq (hδ : δ.KeepsSymbols) : ∀ ts : List Ty, Ty.underList δ ts = ts
  | [] => rfl
  | t :: ts => by rw [Ty.underList, Ty.under_eq hδ t, Ty.underList_eq hδ ts]

end

theorem Denotation.under_eq (hδ : δ.KeepsSymbols) (d : Denotation) : d.under δ = d := by
  cases d <;> simp only [under, Ty.under_eq hδ]

theorem Origin.under_eq (hδ : δ.KeepsSymbols) (origin : Origin) : origin.under δ = origin := by
  rw [Origin.under, hδ]

theorem State.under_eq (hδ : δ.KeepsSymbols) (st : State) : st.under δ = st := by
  have hcell : ∀ cell : Option Ty, cell.map (Ty.under δ) = cell := fun cell => by
    rw [funext (Ty.under_eq hδ), Option.map_id']
  have hstore : st.store.under δ = st.store := by
    rw [Store.under, funext hcell, Array.map_id']
  have hkey : ∀ key : Nat × Key, Key.underSized δ key = key :=
    fun key => Prod.ext rfl (List.map_id'' (fun d => d.under_eq hδ) key.2)
  have hprogress : ∀ p : Progress, p.under δ = p := by
    intro p
    cases p <;> simp only [Progress.under, Ty.under_eq hδ]
  have hcache : ∀ c : Cache, c.under δ = c := fun c =>
    congrArg Cache.mk (List.map_id'' (fun entry => Prod.ext (hkey entry.1) (hprogress entry.2)) c.entries)
  have hmemo : st.memo.under δ = st.memo :=
    congrArg Memo.mk (List.map_id'' (fun entry => Prod.ext (hδ entry.1) (hcache entry.2)) st.memo.caches)
  rw [State.under, hstore, hmemo]

theorem Meaning.under_eq (hδ : δ.Plain) (m : Meaning) : m.under δ = m := by
  cases m with
  | typeVar t => rw [Meaning.under, Ty.under_eq hδ.symbol]
  | localVar t => rw [Meaning.under, Ty.under_eq hδ.symbol]
  | aggregate origin kind d => rw [Meaning.under, Origin.under_eq hδ.symbol, Aggregate.under_eq (hδ.span.fixes _)]
  | procedure origin d => rw [Meaning.under, Origin.under_eq hδ.symbol, Procedure.under_eq (hδ.span.fixes _)]
  | global origin d group position =>
    rw [Meaning.under, Origin.under_eq hδ.symbol, Variables.under_eq (hδ.span.fixes _), hδ.symbol]
  | _ => rfl

/-- Every table agrees with itself under a disguise that changes nothing to see and hides nothing that symbols mention. -/
theorem SymbolTable.Agrees.plain (hδ : δ.Plain) {tab : SymbolTable}
    (hvisible : ∀ {id symbol}, tab.symbol? id = some symbol → Visible δ symbol.kind) : tab.Agrees δ tab where
  name id := by rw [hδ.symbol]
  meaning id := by rw [hδ.symbol, funext (Meaning.under_eq hδ), Option.map_id']
  visible := hvisible
  alive _ := rfl
  inside _ name _ := by rw [funext hδ.symbol, Option.map_id']

end

/-! ## Computations -/

namespace Infer

variable {δ : Disguise} {α β : Type} [HasVars α] [Disguised α] [HasVars β] [Disguised β]

/-- the second computation does in disguise what the first one does, and neither comes upon a hidden variable -/
def Follows (δ : Disguise) (x x' : Infer α) : Prop :=
  ∀ st : State, st.Hides δ →
    x' (st.under δ) = (x st).map (fun p => (disguise δ p.1, p.2.under δ)) ∧
    ∀ r st', x st = some (r, st') → st'.Hides δ ∧ ∀ a, r = .ok a → Visible δ a

namespace Follows

theorem pure {a : α} (ha : Visible δ a) : Follows δ (pure a) (pure (disguise δ a)) := by
  refine fun st hst => ⟨rfl, fun r st' h => ?_⟩
  cases h
  exact ⟨hst, fun b hb => by cases hb; exact ha⟩

theorem fail (cause : Cause) (span : Span) : Follows δ (fail (α := α) cause span) (Infer.fail cause (δ.span span)) := by
  refine fun st hst => ⟨rfl, fun r st' h => ?_⟩
  cases h
  exact ⟨hst, nofun⟩

theorem tooDeep : Follows δ (tooDeep (α := α)) Infer.tooDeep :=
  fun _ _ => ⟨rfl, nofun⟩

theorem lift {x : Except Error α} (hx : ∀ a, x = .ok a → Visible δ a) : Follows δ (lift x) (Infer.lift (disguise δ x)) := by
  cases x with
  | ok a => exact pure (hx a rfl)
  | error e => exact fail e.cause e.span

theorem bind {x x' : Infer α} {f f' : α → Infer β} (hx : Follows δ x x')
    (hf : ∀ a, Visible δ a → Follows δ (f a) (f' (disguise δ a))) : Follows δ (x >>= f) (x' >>= f') := by
  intro st hst
  obtain ⟨heq, hend⟩ := hx st hst
  rw [bind_apply, bind_apply, heq]
  cases hrun : x st with
  | none => exact ⟨rfl, nofun⟩
  | some p =>
    obtain ⟨r, st₁⟩ := p
    obtain ⟨hst₁, hvisible⟩ := hend r st₁ hrun
    cases r with
    | ok a => exact hf a (hvisible a rfl) st₁ hst₁
    | error e =>
      refine ⟨rfl, fun r' st' h => ?_⟩
      cases h
      exact ⟨hst₁, nofun⟩

/-- A computation that goes on with the store it finds. -/
theorem store {f f' : Store → Infer α} (hf : ∀ s : Store, s.Hides δ → Follows δ (f s) (f' (s.under δ))) :
    Follows δ (Infer.store >>= f) (Infer.store >>= f') :=
  fun st hst => hf st.store hst.store st hst

/-- An answer is remembered, missed or found in disguise as it is without. -/
theorem memoized {x x' : Infer Ty} (hx : Follows δ x x') (id : SymbolId) (key : Key) (span : Span) :
    Follows δ (memoized start id key span x) (Infer.memoized start (δ.symbol id) (disguise δ key) (δ.span span) x') := by
  intro st hst
  have hstate : (st.under δ).memo.state? (δ.symbol id) (disguise δ key) = (st.memo.state? id key).map (·.under δ) :=
    Memo.state?_under st.memo id key
  cases hp : st.memo.state? id key with
  | some p =>
    rw [hp] at hstate
    unfold Infer.memoized
    rw [hp, hstate]
    cases p with
    | resolved t => exact Follows.pure (hst.answers hp) st hst
    | inProgress => exact Follows.fail _ span st hst
  | none =>
    rw [hp] at hstate
    have hstart : (st.memo.modify id (·.start key)).under δ =
        (st.under δ).memo.modify (δ.symbol id) (·.start (disguise δ key)) :=
      Memo.modify_under (fun c => c.insert_under key .inProgress) st.memo id
    have hhides : State.Hides δ { st with memo := st.memo.modify id (·.start key) } :=
      ⟨hst.store, fun ht => hst.answers (Memo.resolved_start ht)⟩
    obtain ⟨heq, hend⟩ := hx { st with memo := st.memo.modify id (·.start key) } hhides
    have hrun : x' { st.under δ with memo := (st.under δ).memo.modify (δ.symbol id) (·.start (disguise δ key)) } =
        (x { st with memo := st.memo.modify id (·.start key) }).map fun p => (disguise δ p.1, p.2.under δ) := by
      rw [← hstart]
      exact heq
    rw [memoized_none hp, memoized_none hstate, hrun]
    constructor
    · cases x { st with memo := st.memo.modify id (·.start key) } with
      | none => rfl
      | some p =>
        have hfinish := p.2.memo.finish_under (δ := δ) id key p.1
        simp only [Option.map_some, State.under, hfinish]
    · intro r st' h
      obtain ⟨⟨r₁, st₁⟩, hx₁, hfinish⟩ := Option.map_eq_some_iff.1 h
      obtain ⟨rfl, rfl⟩ := Prod.mk.inj hfinish
      obtain ⟨hst₁, hvisible⟩ := hend r₁ st₁ hx₁
      refine ⟨⟨hst₁.store, fun {id' key' t} ht => ?_⟩, hvisible⟩
      rcases Memo.resolved_finish ht with hr | ht
      · exact hvisible t hr
      · exact hst₁.answers ht

/-! ### Steps without a context -/

theorem freshVars (names : List Ident) : Follows δ (freshVars names) (Infer.freshVars (names.map (·.under δ))) := by
  induction names with
  | nil => exact .pure nofun
  | cons name names ih =>
    intro st hst
    -- the new variable is not hidden, since hidden ones are in the store already
    have hnew : ¬δ.hidden st.store.size := fun h => Nat.lt_irrefl _ (hst.store.lt h)
    have hrest : Follows δ (Infer.freshVars names >>= fun ts => Pure.pure (.var st.store.size :: ts))
        (Infer.freshVars (names.map (·.under δ)) >>= fun ts => Pure.pure (.var st.store.size :: ts)) :=
      ih.bind fun ts hts => .pure (visible_cons.2 ⟨visible_var.2 hnew, hts⟩)
    have hfresh := st.store.fresh_under (δ := δ)
    have hstate : ({ st.under δ with store := (st.store.under δ).fresh.2 } : State) =
        State.under δ { st with store := st.store.fresh.2 } := by
      rw [hfresh]
      rfl
    have hsize : (st.store.under δ).fresh.1 = st.store.size := by
      rw [hfresh]
      rfl
    have hrun : Infer.freshVars ((name :: names).map (·.under δ)) (st.under δ) =
        (Infer.freshVars (names.map (·.under δ)) >>= fun ts => Pure.pure (.var st.store.size :: ts))
          (State.under δ { st with store := st.store.fresh.2 }) := by
      rw [← hstate, ← hsize]
      rfl
    rw [hrun]
    exact hrest _ ⟨hst.store.fresh, hst.answers⟩

theorem closed {name name' : Infer String} (t : Ty) (h : Follows δ name name') (span : Span) :
    Follows δ (closed t name span) (Infer.closed (t.under δ) name' (δ.span span)) := by
  refine .store fun s hs => ?_
  rw [Store.deref?_under]
  cases hd : s.deref? t with
  | some u => exact .pure (visible_closed (Store.vars_deref? hd))
  | none => exact h.bind fun _ _ => .fail _ _

theorem solution (span : Span) (names : List Ident) (ts : List Ty) :
    Follows δ (solution span names ts) (Infer.solution (δ.span span) (names.map (·.under δ)) (disguise δ ts)) := by
  induction names generalizing ts with
  | nil => exact .pure nofun
  | cons name names ih =>
    cases ts with
    | nil => exact .pure nofun
    | cons t ts =>
      have hname : Follows δ (Pure.pure name.name : Infer String) (Pure.pure (name.under δ).name) := .pure nofun
      exact (closed t hname span).bind fun u hu => (ih ts).bind fun us hus => .pure (visible_cons.2 ⟨hu, hus⟩)

theorem arity (what : String) {expected expected' found found' : Nat} (hexpected : expected' = expected)
    (hfound : found' = found) (span : Span) : Follows δ (DualInference.arity what expected found span)
      (DualInference.arity what expected' found' (δ.span span)) := by
  subst hexpected hfound
  unfold DualInference.arity
  split
  · exact .pure nofun
  · exact .fail _ _

/-- A list of the wrong length is as long in disguise. -/
theorem wrongLength (what : String) (expected : Nat) (es : List Expr) (span : Span) :
    Follows δ (Infer.fail (α := α) (.arity what expected es.length) span)
      (Infer.fail (.arity what expected (Expr.underList δ es).length) (δ.span span)) := by
  rw [Expr.length_underList]
  exact .fail _ _

theorem natLiteral (e : Expr) : Follows δ (DualInference.natLiteral e) (DualInference.natLiteral (e.under δ)) := by
  unfold DualInference.natLiteral
  rw [Expr.natLiteral?_under, Expr.span_under]
  split
  · exact .pure nofun
  · exact .fail _ _

theorem part {parts : List Ty} (h : Visible δ parts) (position : Nat) (span : Span) :
    Follows δ (DualInference.part parts position span)
      (DualInference.part (disguise δ parts) position (δ.span span)) := by
  have hget : (disguise δ parts)[position]? = (parts[position]?).map (Ty.under δ) := List.getElem?_map
  have hlen : (disguise δ parts).length = parts.length := List.length_map _
  unfold DualInference.part
  rw [hget, hlen]
  cases ht : parts[position]? with
  | some t => exact .pure (visible_list.1 h t (List.mem_of_getElem? ht))
  | none => exact .fail _ _

theorem instantiate (origin : Origin) (kind : AggregateKind) (d : Aggregate) {params : List Ty} (h : Visible δ params)
    (span : Span) : Follows δ (DualInference.instantiate origin kind d params span)
      (DualInference.instantiate (origin.under δ) kind (d.under δ) (disguise δ params) (δ.span span)) := by
  refine (arity _ (List.length_map _) (List.length_map _) span).bind fun _ _ => ?_
  have hty : Ty.aggregate kind (origin.under δ).id (disguise δ params) = disguise δ (Ty.aggregate kind origin.id params) :=
    congrArg _ (Ty.underList_eq_map δ params).symm
  rw [hty]
  exact .pure (visible_compound.2 h)

theorem accepted (formal : Formal) (actual : Denotation) (span : Span) :
    Follows δ (formal.accept actual span) ((formal.under δ).accept (actual.under δ) (δ.span span)) := by
  cases formal with
  | value passing name t =>
    cases actual with
    | value u => exact .pure nofun
    | type u => exact .fail _ _
  | type t =>
    cases actual with
    | value u => exact .fail _ _
    | type u => exact .pure nofun

theorem unconditional (conditions : List Expr) :
    Follows δ (Context.unconditional conditions) (Context.unconditional (conditions.map (·.under δ))) := by
  cases conditions with
  | nil => exact .pure nofun
  | cons condition conditions =>
    unfold Context.unconditional
    rw [List.map_cons]
    dsimp only
    rw [Expr.span_under]
    exact .fail _ _

end Follows

end Infer

end DualInference
