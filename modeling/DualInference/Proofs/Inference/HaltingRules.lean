/-
Rules that come to an end.

A rule infers the parts of its expression, and what declarations say. There are three sorts of things in declarations:
- types, which are read again and again and never remembered. That reading them halts has to be known
  (`Context.TypesHalt`), in every situation and also while their type variables are open. It is so if they are names,
  indexes and integers, and none of the names is a variable (`Expr.Simple`): then a type is read without a look at any
  other declaration (`SymbolTable.SimplyTyped.typesHalt`);
- initializers and bodies, which are remembered. That they halt has to be known of each name that occurs
  (`Context.Answers`);
- procedures, whose key has to fit the formals before anything else happens. A procedure without type variables goes on
  to its body with one key only (`Formal.Fits`).

Main result: `infer_halts`. Inference halts on an expression if the answers behind its names do.
-/
import DualInference.Proofs.Inference.ConfinedRules
import DualInference.Proofs.Inference.Halting
import DualInference.Proofs.Inference.Parameters

namespace DualInference

/-! ## Parts of expressions -/

namespace Expr

/-- the expressions directly inside an expression -/
def children : Expr → List Expr
  | .addressOf _ operand => [operand]
  | .index _ base indexes => base :: indexes
  | .call _ callee args => callee :: args
  | .field _ base _ => [base]
  | .element _ base _ => [base]
  | .pointee _ base => [base]
  | .array _ elements => elements
  | .tuple _ elements => elements
  | .name _ _ => []
  | .bool _ _ => []
  | .int _ _ => []
  | .char _ _ => []

theorem sizeOf_children {e e' : Expr} (h : e' ∈ e.children) : sizeOf e' < sizeOf e := by
  cases e <;> simp only [children, List.mem_cons, List.not_mem_nil, or_false] at h
  case addressOf | field | element | pointee =>
    subst h
    simp only [addressOf.sizeOf_spec, field.sizeOf_spec, element.sizeOf_spec, pointee.sizeOf_spec]
    omega
  case index | call =>
    simp only [index.sizeOf_spec, call.sizeOf_spec]
    rcases h with rfl | h
    · omega
    · have := List.sizeOf_lt_of_mem h
      omega
  case array | tuple =>
    have := List.sizeOf_lt_of_mem h
    simp only [array.sizeOf_spec, tuple.sizeOf_spec]
    omega

/-- Induction over expressions, from the parts to the whole. -/
theorem by_children {P : Expr → Prop} (h : ∀ e, (∀ e' ∈ e.children, P e') → P e) (e : Expr) : P e :=
  h e fun e' _ => by_children h e'
termination_by sizeOf e
decreasing_by exact sizeOf_children (by assumption)

/-- The names in a part are names in the whole. -/
theorem names_children {e e' : Expr} (h : e' ∈ e.children) {name : String} (hname : name ∈ e'.names) :
    name ∈ e.names := by
  have hlist : ∀ {es : List Expr}, e' ∈ es → name ∈ namesList es := fun hmem => mem_namesList.2 ⟨e', hmem, hname⟩
  cases e <;> simp only [children, List.mem_cons, List.not_mem_nil, or_false] at h
  case addressOf | field | element | pointee =>
    subst h
    exact hname
  case index | call =>
    rcases h with rfl | h
    · exact List.mem_append_left _ hname
    · exact List.mem_append_right _ (hlist h)
  case array | tuple => exact hlist h

mutual

/-- an expression and all that is inside it -/
def parts : Expr → List Expr
  | .addressOf span operand => .addressOf span operand :: operand.parts
  | .index span base indexes => .index span base indexes :: (base.parts ++ partsList indexes)
  | .call span callee args => .call span callee args :: (callee.parts ++ partsList args)
  | .field span base ident => .field span base ident :: base.parts
  | .element span base position => .element span base position :: base.parts
  | .pointee span base => .pointee span base :: base.parts
  | .array span elements => .array span elements :: partsList elements
  | .tuple span elements => .tuple span elements :: partsList elements
  | .name span ident => [.name span ident]
  | .bool span value => [.bool span value]
  | .int span value => [.int span value]
  | .char span value => [.char span value]

def partsList : List Expr → List Expr
  | [] => []
  | e :: es => e.parts ++ partsList es

end

theorem self_mem_parts (e : Expr) : e ∈ e.parts := by
  cases e <;> exact List.mem_cons_self ..

theorem mem_partsList {e : Expr} {es : List Expr} : e ∈ partsList es ↔ ∃ e' ∈ es, e ∈ e'.parts := by
  induction es with
  | nil => simp [partsList]
  | cons e es ih => simp [partsList, ih]

/-- What is inside a part is inside the whole. -/
theorem parts_children {e e' e'' : Expr} (h : e' ∈ e.children) (hpart : e'' ∈ e'.parts) : e'' ∈ e.parts := by
  have hlist : ∀ {es : List Expr}, e' ∈ es → e'' ∈ partsList es := fun hmem => mem_partsList.2 ⟨e', hmem, hpart⟩
  cases e <;> simp only [children, List.mem_cons, List.not_mem_nil, or_false] at h
  case addressOf | field | element | pointee =>
    subst h
    exact List.mem_cons_of_mem _ hpart
  case index | call =>
    rcases h with rfl | h
    · exact List.mem_cons_of_mem _ (List.mem_append_left _ hpart)
    · exact List.mem_cons_of_mem _ (List.mem_append_right _ (hlist h))
  case array | tuple => exact List.mem_cons_of_mem _ (hlist h)

mutual

/-- is the expression made of names, indexes and integers -/
def typeForm : Expr → Bool
  | .index _ base indexes => base.typeForm && typeForms indexes
  | .name _ _ => true
  | .int _ _ => true
  | _ => false

def typeForms : List Expr → Bool
  | [] => true
  | e :: es => e.typeForm && typeForms es

end

theorem typeForm_children {e e' : Expr} (he : e.typeForm = true) (h : e' ∈ e.children) : e'.typeForm = true := by
  have hlist : ∀ {es : List Expr}, typeForms es = true → e' ∈ es → e'.typeForm = true := by
    intro es hes hmem
    induction es with
    | nil => cases hmem
    | cons e es ih =>
      obtain ⟨he, hes⟩ := Bool.and_eq_true_iff.1 (by rwa [typeForms] at hes)
      rcases List.mem_cons.1 hmem with rfl | hmem
      · exact he
      · exact ih hes hmem
  cases e with
  | index span base indexes =>
    obtain ⟨hbase, hindexes⟩ := Bool.and_eq_true_iff.1 (by rwa [typeForm] at he)
    rcases List.mem_cons.1 h with rfl | h
    · exact hbase
    · exact hlist hindexes h
  | name span ident => cases h
  | int span value => cases h
  | _ => cases he

/-- made of names, indexes and integers, and where the expression is read none of the names is a variable -/
structure Simple (tab : SymbolTable) (scope : ScopeId) (e : Expr) : Prop where
  form : e.typeForm = true
  names : ∀ name ∈ e.names, ∀ {origin d group position},
    Env.meaning? tab { scope } name ≠ some (.global origin d group position)

theorem Simple.child {tab : SymbolTable} {scope : ScopeId} {e e' : Expr} (he : e.Simple tab scope)
    (h : e' ∈ e.children) : e'.Simple tab scope :=
  ⟨typeForm_children he.form h, fun name hname => he.names name (names_children h hname)⟩

end Expr

/-! ## Types in declarations -/

namespace Aggregate

/-- the types of the fields -/
def types (d : Aggregate) : List Expr :=
  d.fields.map (·.type)

end Aggregate

namespace Variables

/-- the annotations -/
def types (d : Variables) : List Expr :=
  d.names.filterMap (·.type)

end Variables

/-- the name of a value parameter -/
def Formal.paramName? : Formal → Option String
  | .value _ name _ => some name.name
  | .type _ => none

namespace Procedure

/-- the types of the formals and the declared return type -/
def types (d : Procedure) : List Expr :=
  d.formals.map (·.typeExpr) ++ d.returnType.toList

/-- the names that the body sees first: the value parameters and the type variables -/
def ownNames (d : Procedure) : List String :=
  d.formals.filterMap (·.paramName?) ++ d.typeVars.map (·.name)

end Procedure

/-- the expressions in a declaration that stand for types -/
def SymbolKind.types : SymbolKind → List Expr
  | .aggregate _ d => d.types
  | .procedure d => d.types
  | .global d _ _ => d.types
  | _ => []

/-- may the frame stand in front of the home of a declaration where its types are read: for an aggregate, only its type
variables do -/
def SymbolKind.Fronts : SymbolKind → Frame → Prop
  | .aggregate _ d, locals => ∀ name, name ∉ d.typeVars.map (·.name) → locals.lookup name = none
  | _, _ => True

/-- all types in declarations are simple where they are read -/
def SymbolTable.SimplyTyped (tab : SymbolTable) : Prop :=
  ∀ {id symbol}, tab.symbol? id = some symbol → ∀ e ∈ symbol.kind.types, e.Simple tab symbol.home

/-- inference by the rules over the declarations of a program -/
structure Context.Regular (cx : Context) (items : List Item) : Prop where
  rule : ∀ env e, cx.infer env e = cx.rule env e
  finds : cx.FindsTypes
  unify : cx.unify = Store.unify
  settled : cx.table.Settled items

/-! ## Closed environments -/

/-- without variables if the environment is without variables -/
def Env.Closes (env : Env) {α : Type} [HasVars α] (a : α) : Prop :=
  Below 0 env → Below 0 a

theorem Env.Closes.cons {env : Env} {α : Type} [HasVars α] {a : α} {l : List α} (ha : env.Closes a) (hl : env.Closes l) :
    env.Closes (a :: l) :=
  fun henv => below_cons.2 ⟨ha henv, hl henv⟩

theorem below_zero {t : Ty} (h : Below 0 t) : t.vars = [] :=
  List.eq_nil_iff_forall_not_mem.2 fun v hv => Nat.not_lt_zero v (h v hv)

/-- The symbols of a program mention no variables, so names mean something with variables only in front of the scope. -/
theorem Env.closes_meaning {tab : SymbolTable} {items : List Item} (hset : tab.Settled items) {env : Env} {name : String}
    {m : Meaning} (hm : env.meaning? tab name = some m) : env.Closes m := by
  intro henv
  rcases Env.meaning?_cases hm with ⟨entry, hentry, rfl⟩ | ⟨id, symbol, _, hsymbol, rfl⟩
  · have hlocal := below_lookup henv hentry
    cases entry with
    | typeVar t => exact hlocal
    | param t => exact hlocal
  · have hdeclared := hset.declared hsymbol
    obtain ⟨symName, home, kind⟩ := symbol
    cases kind with
    | typeVar span t => exact hdeclared.elim
    | localVar t => exact hdeclared.elim
    | _ => nofun

/-- What stands in front of a scope is no declaration. -/
theorem Env.meaning?_global {tab : SymbolTable} {locals : Frame} {scope : ScopeId} {name : String} {origin : Origin}
    {d : Variables} {group : SymbolId} {position : Nat}
    (h : Env.meaning? tab ⟨locals, scope⟩ name = some (.global origin d group position)) :
    Env.meaning? tab { scope } name = some (.global origin d group position) := by
  unfold Env.meaning? at h ⊢
  split at h
  · rename_i entry _
    cases entry <;> cases h
  · exact h

namespace Context

open Infer

variable {cx : Context} {S : Situation} {env : Env} {α : Type}

/-! ## Demands on types -/

theorem display_halts (t : Ty) : Halts S (fun _ => True) (cx.display t) :=
  .store fun _ => .pure trivial

theorem invalidType_halts {P : α → Prop} (t : Ty) (span : Span) : Halts S P (cx.invalidType t span) :=
  (display_halts t).bind fun _ _ => .fail (by nofun) span

theorem mismatch_halts {P : α → Prop} (t u : Ty) (span : Span) : Halts S P (cx.mismatch t u span) :=
  (display_halts t).bind fun _ _ => (display_halts u).bind fun _ _ => .fail (by nofun) span

theorem view_halts [HasVars α] {look : Ty → Option α} (hlook : Ty.Sees look) {t : Ty} (ht : env.Closes t) (span : Span) :
    Halts S env.Closes (cx.view look t span) := by
  refine .store fun s => ?_
  cases hl : look (s.prune t) with
  | some a =>
    refine .pure fun henv => ?_
    rw [Store.prune_closed s (below_zero (ht henv))] at hl
    exact hlook (ht henv) hl
  | none => exact invalidType_halts t span

theorem shaped_halts (shape : Shape) (t : Ty) (span : Span) : Halts S (fun _ => True) (cx.shaped shape t span) := by
  refine .store fun s => ?_
  split
  · exact .pure trivial
  · exact invalidType_halts t span

theorem same_halts (t u : Ty) (span : Span) : Halts S (fun _ => True) (cx.same t u span) := by
  refine .store fun s => ?_
  split
  · exact .pure trivial
  · exact mismatch_halts t u span

theorem unified_halts (t u : Ty) (span : Span) : Halts S (fun _ => True) (cx.unified t u span) := by
  refine .store fun s => ?_
  split
  · exact .modifyStore (fun _ => _) trivial
  · exact mismatch_halts t u span

/-! ## Demands on the program text -/

theorem home_halts (origin : Origin) (span : Span) :
    Halts S (fun home => home = { scope := origin.home }) (cx.home origin span) := by
  unfold Context.home
  split
  · exact .pure rfl
  · exact .fail (by nofun) span

theorem meaning_halts (name : Ident) :
    Halts S (fun m => env.meaning? cx.table name.name = some m) (cx.meaning env name) := by
  unfold Context.meaning
  split
  · rename_i m hm
    exact .pure hm
  · exact .fail (by nofun) name.span

theorem typeVars_halts {names : List Ident} {types : List Ty} {P : Frame → Prop}
    (h : ∀ frame, Frame.ofTypeVars names types = .ok frame → P frame) :
    Halts S P (Infer.lift (Frame.ofTypeVars names types)) := by
  refine .lift h fun e he => ?_
  obtain ⟨name, hcause⟩ := Frame.ofTypeVars_error he
  rw [hcause]
  nofun

/-! ## Demands on expressions -/

theorem value_halts {e : Expr} (h : Halts S env.Closes (cx.infer env e)) : Halts S env.Closes (cx.value env e) := by
  refine h.bind fun d hd => ?_
  cases d with
  | value t => exact .pure hd
  | type t => exact .fail (by nofun) e.span

theorem type_halts {e : Expr} (h : Halts S env.Closes (cx.infer env e)) : Halts S env.Closes (cx.type env e) := by
  refine h.bind fun d hd => ?_
  cases d with
  | value t => exact .fail (by nofun) e.span
  | type t => exact .pure hd

theorem denotations_halts {es : List Expr} (h : ∀ e ∈ es, Halts S env.Closes (cx.infer env e)) :
    Halts S (fun key => env.Closes key ∧ es.length = key.length) (cx.denotations env es) := by
  induction es with
  | nil => exact .pure ⟨fun _ => below_nil, rfl⟩
  | cons e es ih =>
    obtain ⟨he, hes⟩ := List.forall_mem_cons.1 h
    refine he.bind fun d hd => (ih hes).bind fun key hkey => .pure ⟨hd.cons hkey.1, ?_⟩
    rw [List.length_cons, List.length_cons, hkey.2]

theorem values_halts {es : List Expr} (h : ∀ e ∈ es, Halts S env.Closes (cx.infer env e)) :
    Halts S env.Closes (cx.values env es) := by
  induction es with
  | nil => exact .pure fun _ => below_nil
  | cons e es ih =>
    obtain ⟨he, hes⟩ := List.forall_mem_cons.1 h
    exact (value_halts he).bind fun t ht => (ih hes).bind fun ts hts => .pure (ht.cons hts)

theorem types_halts {es : List Expr} (h : ∀ e ∈ es, Halts S env.Closes (cx.infer env e)) :
    Halts S env.Closes (cx.types env es) := by
  induction es with
  | nil => exact .pure fun _ => below_nil
  | cons e es ih =>
    obtain ⟨he, hes⟩ := List.forall_mem_cons.1 h
    exact (type_halts he).bind fun t ht => (ih hes).bind fun ts hts => .pure (ht.cons hts)

/-! ## Names and indexes -/

theorem name_halts {items : List Item} (hset : cx.table.Settled items) (name : Ident)
    (hglobal : ∀ {origin d group position}, env.meaning? cx.table name.name = some (.global origin d group position) →
      Halts S env.Closes (cx.globalType origin d group position name.span)) : Halts S env.Closes (cx.name env name) := by
  refine (meaning_halts name).bind fun m hm => ?_
  have hclosed := Env.closes_meaning hset hm
  cases m with
  | typeVar t =>
    refine .store fun s => .pure fun henv => ?_
    cases hd : s.deref? t with
    | some u => exact below_closed (Store.vars_deref? hd)
    | none => exact hclosed henv
  | localVar t => exact .pure hclosed
  | builtin b =>
    cases b with
    | scalar c => exact .pure fun _ => nofun
    | _ => exact .fail (by nofun) name.span
  | aggregate origin kind d =>
    refine (Halts.instantiate origin kind d [] name.span).bind fun t ht => .pure fun _ => ?_
    rw [ht]
    exact below_compound.2 below_nil
  | global origin d group position => exact (hglobal hm).bind fun t ht => .pure ht
  | _ => exact .fail (by nofun) name.span

theorem arrayElement_halts (span : Span) {base : Expr} {indexes : List Expr}
    (hbase : Halts S env.Closes (cx.infer env base)) (hindexes : ∀ e ∈ indexes, Halts S env.Closes (cx.infer env e)) :
    Halts S env.Closes (cx.arrayElement span env base indexes) := by
  refine (value_halts hbase).bind fun t ht => (view_halts sees_element? ht base.span).bind fun element helement => ?_
  split
  · rename_i index
    refine (value_halts (hindexes index (List.mem_singleton_self index))).bind fun i _ => ?_
    exact (shaped_halts _ _ _).bind fun _ _ => .pure helement
  · exact .fail (by nofun) span

theorem typeParam_halts (span : Span) {params : List Expr} (h : ∀ e ∈ params, Halts S env.Closes (cx.infer env e)) :
    Halts S env.Closes (cx.typeParam span env params) := by
  unfold Context.typeParam
  split
  · rename_i t
    exact type_halts (h t (List.mem_singleton_self t))
  · exact .fail (by nofun) span

theorem arrayValueType_halts (span : Span) {params : List Expr}
    (h : ∀ e ∈ params, Halts S env.Closes (cx.infer env e)) :
    Halts S env.Closes (cx.arrayValueType span env params) := by
  unfold Context.arrayValueType
  split
  · rename_i element size
    refine (type_halts (h element (List.mem_cons_self ..))).bind fun t ht => ?_
    exact (Halts.natLiteral size).bind fun _ _ => .pure ht
  · exact .fail (by nofun) span

theorem index_halts (span : Span) {base : Expr} {indexes : List Expr} (hbase : Halts S env.Closes (cx.infer env base))
    (hindexes : ∀ e ∈ indexes, Halts S env.Closes (cx.infer env e)) :
    Halts S env.Closes (cx.index span env base indexes) := by
  unfold Context.index
  split
  · exact arrayElement_halts span hbase hindexes
  · refine (meaning_halts _).bind fun m _ => ?_
    split
    · exact (typeParam_halts span hindexes).bind fun t ht => .pure ht
    · exact (arrayValueType_halts span hindexes).bind fun t ht => .pure ht
    · exact (typeParam_halts span hindexes).bind fun t ht => .pure ht
    · refine (types_halts hindexes).bind fun params hparams => ?_
      refine (Halts.instantiate _ _ _ params span).bind fun t ht => .pure fun henv => ?_
      rw [ht]
      exact below_compound.2 (hparams henv)
    · exact arrayElement_halts span hbase hindexes

end Context

/-! ## Types -/

section

open Infer Context

variable {cx : Context} {items : List Item} (h : cx.Regular items) {S : Situation}

include h

/-- A simple type is read in every situation, whatever stands in front of its scope. -/
theorem Expr.Simple.halts {scope : ScopeId} {e : Expr} (he : e.Simple cx.table scope) (locals : Frame) :
    Halts S (Env.Closes ⟨locals, scope⟩) (cx.infer ⟨locals, scope⟩ e) := by
  induction e using Expr.by_children with
  | h e ih =>
    rw [h.rule]
    cases e with
    | index span base indexes =>
      refine index_halts span (ih base (List.mem_cons_self ..) (he.child (List.mem_cons_self ..))) fun e' he' => ?_
      exact ih e' (List.mem_cons_of_mem _ he') (he.child (List.mem_cons_of_mem _ he'))
    | name span ident =>
      refine name_halts h.settled ident fun hm => ?_
      exact absurd (Env.meaning?_global hm) (he.names ident.name (List.mem_singleton_self _))
    | int span value => exact .pure fun _ => nofun
    | _ => exact absurd he.form (by nofun)

end

/-- all types in declarations are read to an end -/
def Context.TypesHalt (cx : Context) (S : Situation) : Prop :=
  ∀ {id symbol}, cx.table.symbol? id = some symbol → ∀ e ∈ symbol.kind.types, ∀ locals, symbol.kind.Fronts locals →
    Infer.Halts S (Env.Closes ⟨locals, symbol.home⟩) (cx.infer ⟨locals, symbol.home⟩ e)

/-- Simple types are read to an end in every situation. -/
theorem SymbolTable.SimplyTyped.typesHalt {cx : Context} {items : List Item} (h : cx.Regular items)
    (hsimple : cx.table.SimplyTyped) (S : Situation) : cx.TypesHalt S :=
  fun hsymbol e he locals _ => (hsimple hsymbol e he).halts h locals

/-! ## Answers -/

/-- the argument is what the formal of a procedure without type variables says -/
def Formal.Fits (tab : SymbolTable) (scope : ScopeId) (formal : Formal) (actual : Denotation) : Prop :=
  formal.isValue = actual.isValue ∧ ∃ s, TypeExpr tab s { scope } formal.typeExpr actual.ty

/-- the answers that the use of a name may ask for come to an end -/
def Context.Answers (cx : Context) (S : Situation) : Meaning → Prop
  | .procedure origin d => ∀ args span {key}, Below 0 key → args.length = key.length →
    Infer.Halts S (Below 0) (cx.answer (.call origin d args span) key)
  | .global origin d group _ => ∀ span, Infer.Halts S (Below 0) (cx.answer (.initializer origin.home d group span) [])
  | _ => True

namespace Context.Regular

open Infer

variable {cx : Context} {items : List Item} (h : cx.Regular items) {S : Situation} {env : Env}

include h

/-! ## Aggregates -/

omit h in
theorem fieldsIn_halts {fs : List Field} (hfs : ∀ f ∈ fs, Halts S env.Closes (cx.infer env f.type)) :
    Halts S env.Closes (cx.fieldsIn env fs) := by
  induction fs with
  | nil => exact .pure fun _ => below_nil
  | cons f fs ih =>
    obtain ⟨hf, hfs⟩ := List.forall_mem_cons.1 hfs
    refine (type_halts hf).bind fun t ht => (ih hfs).bind fun ts hts => .pure (.cons (fun henv => ?_) hts)
    exact below_pair.2 ⟨nofun, ht henv⟩

omit h in
theorem fieldTypes_halts (htypes : cx.TypesHalt S) {t : Ty} (ht : env.Closes t) (span : Span) :
    Halts S env.Closes (cx.fieldTypes t span) := by
  refine (view_halts sees_aggregate? ht span).bind fun p hp => ?_
  obtain ⟨id, params⟩ := p
  dsimp only
  cases hsymbol : cx.table.symbol? id with
  | none => exact invalidType_halts t span
  | some symbol =>
    obtain ⟨name, home, kind⟩ := symbol
    cases kind with
    | aggregate kind d =>
      refine (home_halts ⟨id, name, home⟩ span).bind fun env' henv' => ?_
      subst henv'
      have hframe : Halts S (fun frame => env.Closes frame ∧ (SymbolKind.aggregate kind d).Fronts frame)
          (Infer.lift (Frame.ofTypeVars d.typeVars params)) :=
        typeVars_halts fun frame hframe => ⟨fun henv => Frame.below_ofTypeVars (below_pair.1 (hp henv)).2 hframe,
          fun _ => Frame.lookup_ofTypeVars_eq_none hframe⟩
      refine hframe.bind fun locals hlocals => ?_
      have hfields : ∀ f ∈ d.fields, Halts S (Env.Closes ⟨locals, home⟩) (cx.infer ⟨locals, home⟩ f.type) :=
        fun f hf => htypes hsymbol f.type (List.mem_map_of_mem hf) locals hlocals.2
      exact (fieldsIn_halts hfields).mono fun fields hclosed henv => hclosed (hlocals.1 henv)
    | _ => exact invalidType_halts t span

omit h in
theorem field_halts (htypes : cx.TypesHalt S) {base : Expr} (hbase : Halts S env.Closes (cx.infer env base))
    (name : Ident) : Halts S env.Closes (cx.field env base name) := by
  refine (value_halts hbase).bind fun t ht => (fieldTypes_halts htypes ht base.span).bind fun fields hfields => ?_
  split
  · rename_i u hu
    exact .pure fun henv => below_lookup (hfields henv) hu
  · exact .fail (fun h => by cases h) name.span

omit h in
theorem unifyFields_halts {fieldEnv : Env} {fs : List Field}
    (hfs : ∀ f ∈ fs, Halts S fieldEnv.Closes (cx.infer fieldEnv f.type)) {args : List Expr}
    (hargs : ∀ e ∈ args, Halts S env.Closes (cx.infer env e)) :
    Halts S (fun _ => True) (cx.unifyFields fieldEnv env fs args) := by
  induction fs generalizing args with
  | nil => exact .pure trivial
  | cons f fs ih =>
    cases args with
    | nil => exact .pure trivial
    | cons arg args =>
      obtain ⟨hf, hfs⟩ := List.forall_mem_cons.1 hfs
      obtain ⟨harg, hargs⟩ := List.forall_mem_cons.1 hargs
      refine (type_halts hf).bind fun formal _ => (value_halts harg).bind fun actual _ => ?_
      exact (unified_halts formal actual arg.span).bind fun _ _ => ih hfs hargs

omit h in
/-- The construction of one aggregate reads the fields of that one only. -/
theorem construct_halts {origin : Origin} {kind : AggregateKind} {d : Aggregate}
    (hfields : ∀ f ∈ d.fields, ∀ locals, (SymbolKind.aggregate kind d).Fronts locals →
      Halts S (Env.Closes ⟨locals, origin.home⟩) (cx.infer ⟨locals, origin.home⟩ f.type))
    (span : Span) {args : List Expr} (hargs : ∀ e ∈ args, Halts S env.Closes (cx.infer env e)) :
    Halts S env.Closes (cx.construct origin kind d span env args) := by
  refine (Halts.arity _ _ _ span).bind fun _ _ => (home_halts origin span).bind fun home hhome => ?_
  subst hhome
  refine (Halts.freshVars d.typeVars).bind fun vars hvars => ?_
  have hframe : Halts S (SymbolKind.aggregate kind d).Fronts (Infer.lift (Frame.ofTypeVars d.typeVars vars)) :=
    typeVars_halts fun frame hframe _ => Frame.lookup_ofTypeVars_eq_none hframe
  refine hframe.bind fun locals hlocals => ?_
  refine (unifyFields_halts (fun f hf => hfields f hf locals hlocals) hargs).bind fun _ _ => ?_
  refine (Halts.solution span hvars).bind fun params hparams => ?_
  exact .pure fun _ => below_compound.2 hparams.1

omit h in
theorem compareFields_halts (fields : List (String × Ty)) {args : List Expr}
    (hargs : ∀ e ∈ args, Halts S env.Closes (cx.infer env e)) :
    Halts S (fun _ => True) (cx.compareFields env fields args) := by
  induction fields generalizing args with
  | nil => exact .pure trivial
  | cons f fields ih =>
    cases args with
    | nil => exact .pure trivial
    | cons arg args =>
      obtain ⟨harg, hargs⟩ := List.forall_mem_cons.1 hargs
      refine (value_halts harg).bind fun actual _ => ?_
      exact (same_halts _ actual arg.span).bind fun _ _ => ih hargs

omit h in
theorem callType_halts (htypes : cx.TypesHalt S) (span : Span) {callee : Expr}
    (hcallee : Halts S env.Closes (cx.infer env callee)) {args : List Expr}
    (hargs : ∀ e ∈ args, Halts S env.Closes (cx.infer env e)) :
    Halts S env.Closes (cx.callType span env callee args) := by
  refine hcallee.bind fun d hd => .store fun s => ?_
  have hprune : env.Closes (s.prune d.ty) := by
    intro henv
    rw [Store.prune_closed s (below_zero (hd henv))]
    exact hd henv
  refine (fieldTypes_halts htypes hprune callee.span).bind fun fields _ => ?_
  refine (Halts.arity _ _ _ span).bind fun _ _ => ?_
  exact (compareFields_halts fields hargs).bind fun _ _ => .pure hprune

/-! ## Procedures -/

omit h in
theorem accept_halts (formal : Formal) (actual : Denotation) (span : Span) :
    Halts S (fun _ => formal.isValue = actual.isValue) (formal.accept actual span) := by
  cases formal with
  | value passing name t =>
    cases actual with
    | value u => exact .pure rfl
    | type u => exact .fail (by nofun) span
  | type t =>
    cases actual with
    | value u => exact .fail (by nofun) span
    | type u => exact .pure rfl

/-- Two closed types are unified only if they are the same. -/
theorem unified_same (t u : Ty) (span : Span) :
    Halts S (fun _ => t.vars = [] → u.vars = [] → t = u) (cx.unified t u span) := by
  refine ((unified_halts t u span).also fun {st _ st'} hrun ht hu => ?_).mono fun _ hboth => hboth.2
  obtain ⟨s, hs, _⟩ := unified_eq_ok.1 hrun
  rw [h.unify, Store.unify, Store.reconcile, Store.reconcileWithin_closed _ _ _ ht hu] at hs
  split at hs
  · assumption
  · cases hs

/-- A closed key that gets past the formals of a procedure without type variables fits them. -/
theorem unifyFormals_halts {scope : ScopeId} {locals : Frame} {formals : List Formal}
    (hformals : ∀ formal ∈ formals, Halts S (Env.Closes ⟨locals, scope⟩) (cx.infer ⟨locals, scope⟩ formal.typeExpr))
    {key : Key} (hkey : Below 0 key)
    (hlen : formals.length = key.length) {args : List Expr} (hargs : args.length = key.length) :
    Halts S (fun _ => locals = [] → List.Forall₂ (Formal.Fits cx.table scope) formals key)
      (cx.unifyFormals ⟨locals, scope⟩ formals key args) := by
  induction formals generalizing key args with
  | nil =>
    obtain rfl := List.length_eq_zero_iff.1 hlen.symm
    exact .pure fun _ => .nil
  | cons formal formals ih =>
    obtain ⟨hformal, hformals⟩ := List.forall_mem_cons.1 hformals
    cases key with
    | nil => cases hlen
    | cons actual key =>
      cases args with
      | nil => cases hargs
      | cons arg args =>
        obtain ⟨hactual, hkey⟩ := below_cons.1 hkey
        have htype : Halts S (fun t => Env.Closes ⟨locals, scope⟩ t ∧
            ∃ s, TypeExpr cx.table s ⟨locals, scope⟩ formal.typeExpr t) (cx.type ⟨locals, scope⟩ formal.typeExpr) :=
          (type_halts hformal).also fun hrun => ⟨_, (h.finds (type_eq_ok.1 hrun)).2⟩
        refine (accept_halts formal actual arg.span).bind fun _ hside => htype.bind fun t ht => ?_
        refine (h.unified_same t actual.ty arg.span).bind fun _ hsame => ?_
        refine (ih hformals hkey (Nat.succ.inj hlen) (Nat.succ.inj hargs)).mono fun _ hrest hlocals => ?_
        subst hlocals
        -- without type variables the formal type is closed, as the argument is
        have heq : t = actual.ty := hsame (below_zero (ht.1 (Env.below_scope scope))) (below_zero hactual)
        exact .cons ⟨hside, heq ▸ ht.2⟩ (hrest rfl)

omit h in
/-- Every value parameter is added to the frame, and the names before it stay there. -/
theorem addParams_halts {frame : Frame} (hframe : Below 0 frame) {formals : List Formal} {key : Key}
    (hlen : formals.length = key.length) : Halts S (fun frame' => Below 0 frame' ∧
      ∀ name, (frame.lookup name).isSome = true ∨ name ∈ formals.filterMap (·.paramName?) →
        (frame'.lookup name).isSome = true) (cx.addParams frame formals key) := by
  induction formals generalizing frame key with
  | nil => exact .pure ⟨hframe, fun name hname => hname.resolve_right List.not_mem_nil⟩
  | cons formal formals ih =>
    cases key with
    | nil => cases hlen
    | cons actual key =>
      cases formal with
      | type t => exact ih hframe (Nat.succ.inj hlen)
      | value passing name type =>
        refine (Halts.closed actual.ty (display_halts actual.ty) name.span).bind fun t ht => ?_
        have hentry : Below 0 (LocalName.param (passing.paramType t)) := by cases passing <;> exact ht
        have hadd : Halts S (fun frame' => Below 0 frame' ∧ frame' = (name.name, .param (passing.paramType t)) :: frame)
            (Infer.lift (frame.add name (.param (passing.paramType t)))) :=
          .lift (fun frame' hframe' => ⟨Frame.below_add hframe hentry hframe', (Frame.add_eq_ok.1 hframe').2⟩)
            fun e he => by rw [Frame.add_error he]; nofun
        refine hadd.bind fun frame' hframe' => ?_
        obtain ⟨hbelow, rfl⟩ := hframe'
        refine (ih hbelow (Nat.succ.inj hlen)).mono fun frame'' hframe'' => ⟨hframe''.1, fun name' hname' => ?_⟩
        refine hframe''.2 name' ?_
        rw [List.lookup_cons]
        by_cases heq : name' = name.name
        · rw [heq, beq_self_eq_true]
          exact .inl rfl
        · rw [beq_eq_false_iff_ne.2 heq]
          refine hname'.imp_right fun hmem => ?_
          have hcons : name' ∈ name.name :: formals.filterMap (·.paramName?) := hmem
          exact (List.mem_cons.1 hcons).resolve_left heq

omit h in
theorem result_halts {d : Procedure} (hreturn : ∀ e ∈ d.returnType, Halts S env.Closes (cx.infer env e))
    (hbody : ∀ body, d.returnType = none → d.body = some body → Halts S (Below 0) (cx.infer env body)) :
    Halts S (fun _ => True) (cx.result env d) := by
  unfold Context.result
  split
  · rename_i declared hdeclared
    exact (type_halts (hreturn declared hdeclared)).mono fun _ _ => trivial
  · rename_i body hnone hsome
    exact (value_halts ((hbody body hnone hsome).mono fun _ hd _ => hd)).mono fun _ _ => trivial
  · exact .pure trivial

/-- The return type is found if the body halts. The body is only looked at if nothing else says what is returned, and
without type variables only for a key that fits; the names of the procedure's own are then in front of its home. -/
theorem returnType_halts (htypes : cx.TypesHalt S) {origin : Origin} {d : Procedure}
    (hsymbol : cx.table.symbol? origin.id = some ⟨origin.name, origin.home, .procedure d⟩) {key : Key}
    (hkey : Below 0 key) {args : List Expr} (hargs : args.length = key.length) (span : Span)
    (hbody : ∀ body, d.returnType = none → d.body = some body →
      (d.typeVars = [] → List.Forall₂ (Formal.Fits cx.table origin.home) d.formals key) → ∀ locals : Frame,
      Below 0 locals → (∀ name ∈ d.ownNames, (locals.lookup name).isSome = true) →
      Halts S (Below 0) (cx.infer ⟨locals, origin.home⟩ body)) :
    Halts S (Below 0) (cx.returnType origin d key args span) := by
  have hformals : ∀ locals, ∀ formal ∈ d.formals,
      Halts S (Env.Closes ⟨locals, origin.home⟩) (cx.infer ⟨locals, origin.home⟩ formal.typeExpr) :=
    fun locals formal hmem => htypes hsymbol _ (List.mem_append_left _ (List.mem_map_of_mem hmem)) locals trivial
  have hreturn : ∀ locals, ∀ e ∈ d.returnType,
      Halts S (Env.Closes ⟨locals, origin.home⟩) (cx.infer ⟨locals, origin.home⟩ e) :=
    fun locals e he => htypes hsymbol e (List.mem_append_right _ (Option.mem_toList.2 he)) locals trivial
  refine (Halts.arity _ _ _ span).bind fun _ hlen => (home_halts origin span).bind fun home hhome => ?_
  subst hhome
  refine (Halts.freshVars d.typeVars).bind fun vars hvars => ?_
  have hopen : Halts S (fun frame => d.typeVars = [] → frame = []) (Infer.lift (Frame.ofTypeVars d.typeVars vars)) := by
    refine typeVars_halts fun frame hframe hnone => ?_
    rw [hnone] at hframe
    cases hframe
    rfl
  refine hopen.bind fun locals hlocals => ?_
  refine (h.unifyFormals_halts (hformals locals) hkey hlen.symm hargs).bind fun _ hfits => ?_
  refine (Halts.unconditional d.conditions).bind fun _ _ => ?_
  refine (Halts.solution span hvars).bind fun types htypes' => ?_
  have hsolved : Halts S (fun frame => Below 0 frame ∧
      ∀ name ∈ d.typeVars.map (·.name), (frame.lookup name).isSome = true)
      (Infer.lift (Frame.ofTypeVars d.typeVars types)) := by
    refine typeVars_halts fun frame hframe => ⟨Frame.below_ofTypeVars htypes'.1 hframe, fun name hname => ?_⟩
    exact Frame.lookup_ofTypeVars_isSome (htypes'.2.trans hvars) hframe hname
  refine hsolved.bind fun solved hsolved => ?_
  refine (addParams_halts below_nil hlen.symm).bind fun params hparams => ?_
  refine (result_halts (hreturn (params ++ solved)) fun body hnone hsome => ?_).bind fun t _ =>
    Halts.closed t (display_halts t) d.span
  refine hbody body hnone hsome (fun htypeVars => hfits (hlocals htypeVars)) (params ++ solved)
    (below_append.2 ⟨hparams.1, hsolved.1⟩) fun name hname => ?_
  rw [List.lookup_append, Option.isSome_or, Bool.or_eq_true]
  rcases List.mem_append.1 hname with hparam | htypeVar
  · exact .inl (hparams.2 name (.inr hparam))
  · exact .inr (hsolved.2 name htypeVar)

omit h in
theorem callProcedure_halts {origin : Origin} {d : Procedure} (hanswers : cx.Answers S (.procedure origin d)) (span : Span)
    (henv : Below 0 env) {args : List Expr} (hargs : ∀ e ∈ args, Halts S env.Closes (cx.infer env e)) :
    Halts S env.Closes (cx.callProcedure origin d span env args) := by
  refine (denotations_halts hargs).bind fun key hkey => ?_
  exact (hanswers args span (hkey.1 henv) hkey.2).bind fun t ht => .pure fun _ => ht

/-! ## Variables -/

omit h in
theorem globalType_halts {origin : Origin} {d : Variables} {group : SymbolId} {position : Nat}
    (hannotations : ∀ e ∈ d.types,
      Halts S (Env.Closes { scope := origin.home }) (cx.infer { scope := origin.home } e))
    (hanswers : cx.Answers S (.global origin d group position)) (span : Span) :
    Halts S env.Closes (cx.globalType origin d group position span) := by
  refine (home_halts origin span).bind fun home hhome => ?_
  subst hhome
  split
  · rename_i annotation hannotated
    obtain ⟨v, hv, htype⟩ := Option.bind_eq_some_iff.1 hannotated
    have hhalts := hannotations annotation (List.mem_filterMap.2 ⟨v, List.mem_of_getElem? hv, htype⟩)
    exact (type_halts hhalts).mono fun t ht _ => ht (Env.below_scope _)
  · refine (hanswers span).bind fun t ht => ?_
    split
    · exact .pure fun _ => ht
    · have hclosed : Env.Closes { scope := origin.home } t := fun _ => ht
      refine (view_halts sees_parts? hclosed d.init.span).bind fun parts hparts => ?_
      refine (Halts.arity _ _ _ _).bind fun _ _ => ?_
      exact (Halts.part (below_list.1 (hparts (Env.below_scope _))) position d.init.span).mono fun u hu _ => hu

/-! ## Primitive operations -/

omit h in
theorem operand_halts (fits : Ty → Bool) (expected : String) {e : Expr} (he : Halts S env.Closes (cx.infer env e)) :
    Halts S (fun _ => True) (cx.operand env fits expected e) := by
  refine (value_halts he).bind fun t _ => .store fun s => ?_
  split
  · exact .pure trivial
  · exact (display_halts t).bind fun _ _ => .fail (by nofun) e.span

omit h in
theorem operands_halts (s : Scalar) {es : List Expr} (hes : ∀ e ∈ es, Halts S env.Closes (cx.infer env e)) :
    Halts S (fun _ => True) (cx.operands env s es) := by
  induction es with
  | nil => exact .pure trivial
  | cons e es ih =>
    obtain ⟨he, hes⟩ := List.forall_mem_cons.1 hes
    exact (operand_halts _ _ he).bind fun _ _ => ih hes

omit h in
theorem callPolymorphic_halts (op : Operation) (span : Span) {args : List Expr}
    (hargs : ∀ e ∈ args, Halts S env.Closes (cx.infer env e)) :
    Halts S env.Closes (cx.callPolymorphic op span env args) := by
  unfold Context.callPolymorphic
  split
  · exact type_halts (hargs _ (by simp))
  · exact .fail (by nofun) span
  · refine (operand_halts _ _ (hargs _ (by simp))).bind fun _ _ => ?_
    exact (value_halts (hargs _ (by simp))).bind fun t ht => .pure ht
  · exact .fail (by nofun) span
  · exact (operand_halts _ _ (hargs _ (by simp))).bind fun _ _ => .pure fun _ => nofun
  · exact .fail (by nofun) span
  · refine (Halts.natLiteral _).bind fun _ _ => ?_
    exact (value_halts (hargs _ (by simp))).bind fun t ht => .pure ht
  · exact .fail (by nofun) span
  · exact .fail (by nofun) span

omit h in
theorem callPrimitive_halts (op : Operation) (span : Span) {args : List Expr}
    (hargs : ∀ e ∈ args, Halts S env.Closes (cx.infer env e)) :
    Halts S env.Closes (cx.callPrimitive op span env args) := by
  unfold Context.callPrimitive
  split
  · refine (Halts.arity _ _ _ span).bind fun _ _ => ?_
    exact (operands_halts _ hargs).bind fun _ _ => .pure fun _ => nofun
  · exact callPolymorphic_halts op span hargs

/-! ## Literals -/

omit h in
theorem sameElements_halts (t : Ty) {es : List Expr} (hes : ∀ e ∈ es, Halts S env.Closes (cx.infer env e)) :
    Halts S (fun _ => True) (cx.sameElements env t es) := by
  induction es with
  | nil => exact .pure trivial
  | cons e es ih =>
    obtain ⟨he, hes⟩ := List.forall_mem_cons.1 hes
    exact (value_halts he).bind fun u _ => (same_halts t u e.span).bind fun _ _ => ih hes

omit h in
theorem arrayLiteral_halts (span : Span) {es : List Expr} (hes : ∀ e ∈ es, Halts S env.Closes (cx.infer env e)) :
    Halts S env.Closes (cx.arrayLiteral span env es) := by
  cases es with
  | nil => exact .fail (by nofun) span
  | cons e es =>
    obtain ⟨he, hes⟩ := List.forall_mem_cons.1 hes
    exact (value_halts he).bind fun t ht => (sameElements_halts t hes).bind fun _ _ => .pure ht

/-! ## All expressions -/

/-- A rule halts if the parts of its expression do, and what the form of the expression asks for in addition. -/
theorem rule_halts_of {e : Expr} (hparts : ∀ e' ∈ e.children, Halts S env.Closes (cx.infer env e'))
    (hglobal : ∀ span ident, e = .name span ident → ∀ {origin d group position},
      env.meaning? cx.table ident.name = some (.global origin d group position) →
      Halts S env.Closes (cx.globalType origin d group position ident.span))
    (hcall : ∀ span callee args, e = .call span callee args → Halts S env.Closes (cx.call span env callee args))
    (hfield : ∀ span base ident, e = .field span base ident → Halts S env.Closes (cx.field env base ident)) :
    Halts S env.Closes (cx.rule env e) := by
  cases e with
  | addressOf span operand =>
    exact (value_halts (hparts operand (List.mem_singleton_self _))).bind fun t ht => .pure ht
  | index span base indexes =>
    exact index_halts span (hparts base (List.mem_cons_self ..)) fun e' he' => hparts e' (List.mem_cons_of_mem _ he')
  | call span callee args => exact hcall span callee args rfl
  | field span base ident => exact hfield span base ident rfl
  | element span base position =>
    refine (value_halts (hparts base (List.mem_singleton_self _))).bind fun t ht => ?_
    refine (view_halts sees_parts? ht base.span).bind fun parts hclosed => ?_
    have hpart : ∀ u ∈ parts, env.Closes u := fun u hu henv => below_list.1 (hclosed henv) u hu
    exact (Halts.part hpart position span).bind fun u hu => .pure hu
  | pointee span base =>
    refine (value_halts (hparts base (List.mem_singleton_self _))).bind fun t ht => ?_
    exact (view_halts sees_pointee? ht base.span).bind fun u hu => .pure hu
  | array span elements => exact (arrayLiteral_halts span hparts).bind fun t ht => .pure ht
  | tuple span elements =>
    exact (values_halts hparts).bind fun ts hts => .pure fun henv => below_compound.2 (hts henv)
  | name span ident => exact name_halts h.settled ident (hglobal span ident rfl)
  | bool span value => exact .pure fun _ => nofun
  | int span value => exact .pure fun _ => nofun
  | char span value => exact .pure fun _ => nofun

omit h in
theorem call_halts (htypes : cx.TypesHalt S) (span : Span) (henv : Below 0 env) {callee : Expr} {args : List Expr}
    (hcallee : Halts S env.Closes (cx.infer env callee)) (hargs : ∀ e ∈ args, Halts S env.Closes (cx.infer env e))
    (hanswers : ∀ ident, callee.bareName? = some ident → ∀ m, env.meaning? cx.table ident.name = some m →
      cx.Answers S m) :
    Halts S env.Closes (cx.call span env callee args) := by
  unfold Context.call
  split
  · exact callType_halts htypes span hcallee hargs
  · rename_i ident hident
    refine (meaning_halts ident).bind fun m hm => ?_
    cases m with
    | primitive op => exact (callPrimitive_halts op span hargs).bind fun t ht => .pure ht
    | aggregate origin kind d =>
      have hsymbol := Env.symbol?_of_meaning?_aggregate hm
      exact construct_halts (fun f hf => htypes hsymbol f.type (List.mem_map_of_mem hf)) span hargs
    | procedure origin d => exact callProcedure_halts (hanswers ident hident _ hm) span henv hargs
    | overloadable => exact .fail (by nofun) span
    | _ => exact callType_halts htypes span hcallee hargs

/-- A rule halts if the parts of its expression do, and the answers that the names in it ask for. -/
theorem rule_halts (htypes : cx.TypesHalt S) (henv : Below 0 env) {e : Expr}
    (hparts : ∀ e' ∈ e.children, Halts S env.Closes (cx.infer env e'))
    (hanswers : ∀ name ∈ e.names, ∀ m, env.meaning? cx.table name = some m → cx.Answers S m) :
    Halts S env.Closes (cx.rule env e) := by
  refine h.rule_halts_of hparts (fun span ident he {origin d group position} hm => ?_) (fun span callee args he => ?_)
    fun span base ident he => ?_
  · subst he
    have hsymbol := Env.symbol?_of_meaning?_global hm
    have hanswer := hanswers ident.name (List.mem_singleton_self _) _ hm
    exact globalType_halts (fun e he => htypes hsymbol e he [] trivial) hanswer ident.span
  · subst he
    refine call_halts htypes span henv (hparts callee (List.mem_cons_self ..))
      (fun e' he' => hparts e' (List.mem_cons_of_mem _ he')) fun ident hident => ?_
    cases callee with
    | name span' ident' =>
      cases hident
      exact hanswers ident.name (List.mem_cons_self ..)
    | _ => cases hident
  · subst he
    exact field_halts htypes (hparts base (List.mem_singleton_self _)) ident

omit h in
theorem project_halts (side : Side) {e : Expr} (he : Halts S env.Closes (cx.infer env e)) (shape : Option Shape) :
    Halts S (fun _ => True) (cx.project side env e shape) := by
  cases side with
  | value =>
    refine (value_halts he).bind fun t _ => ?_
    cases shape with
    | some shape => exact (shaped_halts shape t e.span).bind fun _ _ => .pure trivial
    | none => exact .pure trivial
  | type =>
    refine (type_halts he).bind fun t _ => ?_
    cases shape with
    | some shape => exact (shaped_halts shape t e.span).bind fun _ _ => .pure trivial
    | none => exact .pure trivial

end Context.Regular

/-! ## Main result -/

/-- **Inference halts if its answers do.** In an environment without variables, an expression comes to an end, and to
something without variables, if this is so for the types in declarations and for the answers behind the names in it. -/
theorem infer_halts {cx : Context} {items : List Item} (h : cx.Regular items) {S : Situation} (htypes : cx.TypesHalt S)
    {env : Env} (henv : Below 0 env) {e : Expr}
    (hanswers : ∀ name ∈ e.names, ∀ m, env.meaning? cx.table name = some m → cx.Answers S m) :
    Infer.Halts S (Below 0) (cx.infer env e) := by
  have hcloses : Infer.Halts S env.Closes (cx.infer env e) := by
    induction e using Expr.by_children with
    | h e ih =>
      rw [h.rule]
      refine h.rule_halts htypes henv (fun e' he' => ih e' he' fun name hname => ?_) hanswers
      exact hanswers name (Expr.names_children he' hname)
  exact hcloses.mono fun d hd => hd henv

end DualInference
