/-
Every rule is defended.

Two contexts on one sheltered table are given whose inferences are defended (`Context.Defended`). Then so are the rules of
the one, next to the rules with checks of the other (`Context.Defended.ruleChecked`), one function after the other, in the
order of the rules. Homes are alive because what can be opened is at home in the scope that shelters it, and fields are read
at as many parameters as there are type variables because the types that inference comes to are arranged.

Main results: `infer_defended` and `project_defended`.
-/
import DualInference.Proofs.Inference.Defense

namespace DualInference

/-- two contexts on one table that is sheltered, whose inferences are defended -/
structure Context.Defended (home : ScopeId) (cx cx' : Context) : Prop where
  table : cx'.table = cx.table
  sheltered : cx.table.Sheltered home
  infer : ∀ {env : Env}, env.locals.Arranged cx.table → ∀ e,
    Infer.Defended cx.table (fun d => cx.table.Arranges d.ty) (cx.infer env e) (cx'.infer env e)
  remember : cx.remember = Infer.memoized Infer.start
  remember' : cx'.remember = Infer.memoized Infer.start
  unify : cx.unify = Store.unify
  unify' : cx'.unify = Store.unify

/-- a view that sees what is asked for in a type that is arranged -/
def Ty.SeesArranged {α : Type} (tab : SymbolTable) (P : α → Prop) (look : Ty → Option α) : Prop :=
  ∀ t a, tab.Arranges t → look t = some a → P a

section

variable (tab : SymbolTable)

theorem seesArranged_element? : Ty.SeesArranged tab tab.Arranges Ty.element? := by
  intro t a ht ha
  obtain ⟨w, rfl⟩ := Ty.element?_eq_some ha
  exact ht

theorem seesArranged_pointee? : Ty.SeesArranged tab tab.Arranges Ty.pointee? := by
  intro t a ht ha
  obtain rfl := Ty.pointee?_eq_some ha
  exact ht

theorem seesArranged_parts? : Ty.SeesArranged tab (fun ts => ∀ t ∈ ts, tab.Arranges t) Ty.parts? := by
  intro t a ht ha
  obtain rfl := Ty.parts?_eq_some ha
  exact (Ty.arranged_compound.1 ht).2

theorem seesArranged_aggregate? : Ty.SeesArranged tab (fun p => ∀ t ∈ p.2, tab.Arranges t) Ty.aggregate? := by
  intro t a ht ha
  obtain ⟨kind, rfl⟩ := Ty.aggregate?_eq_some ha
  exact (Ty.arranged_compound.1 ht).2

end

namespace Context.Defended

open Infer

variable {home : ScopeId} {cx cx' : Context} (h : cx.Defended home cx') {α : Type} {P : α → Prop} {env : Env}
  (henv : env.locals.Arranged cx.table)

include h

/-! ### Demands on types -/

theorem display (t : Ty) : Infer.Defended cx.table (fun _ => True) (cx.display t) (cx'.display t) := by
  unfold Context.display
  rw [h.table]
  exact .store fun s _ => .pure trivial

theorem invalidType (t : Ty) (span : Span) :
    Infer.Defended cx.table P (cx.invalidType t span) (cx'.invalidType t span) :=
  (h.display t).bind fun _ _ => .fail rfl _

theorem mismatch (t u : Ty) (span : Span) :
    Infer.Defended cx.table P (cx.mismatch t u span) (cx'.mismatch t u span) :=
  (h.display t).bind fun _ _ => (h.display u).bind fun _ _ => .fail rfl _

theorem view {look : Ty → Option α} (hlook : Ty.SeesArranged cx.table P look) {t : Ty} (ht : cx.table.Arranges t)
    (span : Span) : Infer.Defended cx.table P (cx.view look t span) (cx'.view look t span) := by
  refine .store fun s hs => ?_
  cases hl : look (s.prune t) with
  | some a => exact .pure (hlook _ a (hs.prune ht) hl)
  | none => exact h.invalidType t span

theorem shaped (shape : Shape) (t : Ty) (span : Span) :
    Infer.Defended cx.table (fun _ => True) (cx.shaped shape t span) (cx'.shaped shape t span) := by
  refine .store fun s _ => ?_
  split
  · exact .pure trivial
  · exact h.invalidType t span

theorem same (t u : Ty) (span : Span) :
    Infer.Defended cx.table (fun _ => True) (cx.same t u span) (cx'.same t u span) := by
  refine .store fun s _ => ?_
  split
  · exact .pure trivial
  · exact h.mismatch t u span

theorem unified {t u : Ty} (ht : cx.table.Arranges t) (hu : cx.table.Arranges u) (span : Span) :
    Infer.Defended cx.table (fun _ => True) (cx.unified t u span) (cx'.unified t u span) := by
  refine .evolve fun st hs => ?_
  cases hunify : st.store.unify t u with
  | some s =>
    refine ⟨s, pure (), pure (), hs.unify ht hu hunify, ?_, ?_, .pure trivial⟩
    · exact Context.unified_of_some (by rw [h.unify, hunify])
    · exact Context.unified_of_some (by rw [h.unify', hunify])
  | none =>
    refine ⟨st.store, cx.mismatch t u span, cx'.mismatch t u span, hs, ?_, ?_, h.mismatch t u span⟩
    · exact Context.unified_of_none (by rw [h.unify, hunify])
    · exact Context.unified_of_none (by rw [h.unify', hunify])

/-! ### Demands on the program text -/

/-- The home of what is sheltered is alive. -/
theorem home_alive {origin : Origin} (horigin : origin.home = home) (span : Span) :
    Infer.Defended cx.table (fun env => env.locals = []) (cx.home origin span) (cx'.home origin span) := by
  unfold Context.home
  rw [h.table, horigin, if_pos h.sheltered.alive]
  exact .pure rfl

theorem meaning (henv : env.locals.Arranged cx.table) (name : Ident) :
    Infer.Defended cx.table (Meaning.Sheltered cx.table home) (cx.meaning env name) (cx'.meaning env name) := by
  unfold Context.meaning
  rw [h.table]
  cases hm : env.meaning? cx.table name.name with
  | some m => exact .pure (h.sheltered.meaning? henv hm)
  | none => exact .fail rfl _

/-! ### Demands on expressions -/

section

include henv

theorem value (e : Expr) : Infer.Defended cx.table cx.table.Arranges (cx.value env e) (cx'.value env e) := by
  refine (h.infer henv e).bind fun d hd => ?_
  cases d with
  | value t => exact .pure hd
  | type t => exact .fail rfl _

theorem type (e : Expr) : Infer.Defended cx.table cx.table.Arranges (cx.type env e) (cx'.type env e) := by
  refine (h.infer henv e).bind fun d hd => ?_
  cases d with
  | value t => exact .fail rfl _
  | type t => exact .pure hd

theorem denotations (es : List Expr) : Infer.Defended cx.table (fun ds => ∀ d ∈ ds, cx.table.Arranges d.ty)
    (cx.denotations env es) (cx'.denotations env es) := by
  induction es with
  | nil => exact .pure nofun
  | cons e es ih =>
    exact (h.infer henv e).bind fun d hd => ih.bind fun ds hds => .pure (List.forall_mem_cons.2 ⟨hd, hds⟩)

theorem values (es : List Expr) : Infer.Defended cx.table (fun ts => ∀ t ∈ ts, cx.table.Arranges t)
    (cx.values env es) (cx'.values env es) := by
  induction es with
  | nil => exact .pure nofun
  | cons e es ih =>
    exact (h.value henv e).bind fun t ht => ih.bind fun ts hts => .pure (List.forall_mem_cons.2 ⟨ht, hts⟩)

theorem types (es : List Expr) : Infer.Defended cx.table (fun ts => ∀ t ∈ ts, cx.table.Arranges t)
    (cx.types env es) (cx'.types env es) := by
  induction es with
  | nil => exact .pure nofun
  | cons e es ih =>
    exact (h.type henv e).bind fun t ht => ih.bind fun ts hts => .pure (List.forall_mem_cons.2 ⟨ht, hts⟩)

/-! ### Aggregates -/

theorem fieldsIn (fs : List Field) : Infer.Defended cx.table (fun fields => ∀ f ∈ fields, cx.table.Arranges f.2)
    (cx.fieldsIn env fs) (cx'.fieldsIn env fs) := by
  induction fs with
  | nil => exact .pure nofun
  | cons f fs ih =>
    exact (h.type henv f.type).bind fun t ht => ih.bind fun ts hts => .pure (List.forall_mem_cons.2 ⟨ht, hts⟩)

end

/-- What is written in the fields is read behind the parameters, which are arranged. -/
theorem fieldTypes {t : Ty} (ht : cx.table.Arranges t) (span : Span) :
    Infer.Defended cx.table (fun fields => ∀ f ∈ fields, cx.table.Arranges f.2) (cx.fieldTypes t span)
      (cx'.fieldTypes t span) := by
  refine (h.view (seesArranged_aggregate? cx.table) ht span).bind fun p hparams => ?_
  obtain ⟨id, params⟩ := p
  dsimp only
  rw [h.table]
  split
  · rename_i origin kind d hmeaning
    obtain ⟨symbol, hsymbol, hsheltered⟩ := Option.map_eq_some_iff.1 hmeaning
    have horigin := h.sheltered.symbols hsymbol
    rw [hsheltered] at horigin
    refine (h.home_alive horigin.1 span).bind fun env _ => ?_
    exact (Infer.Defended.typeVars hparams).bind fun locals hlocals => h.fieldsIn hlocals d.fields
  · exact h.invalidType t span

theorem fieldTypesChecked {t : Ty} (ht : cx.table.Arranges t) (span : Span) :
    Infer.Defended cx.table (fun fields => ∀ f ∈ fields, cx.table.Arranges f.2) (cx.fieldTypes t span)
      (cx'.fieldTypesChecked t span) := by
  refine (h.fieldTypes ht span).check (fun st hst => ?_) span
  rw [h.table]
  exact ht.fits hst.store

theorem fieldChecked (henv : env.locals.Arranged cx.table) (base : Expr) (name : Ident) :
    Infer.Defended cx.table (fun d => cx.table.Arranges d.ty) (cx.field env base name)
      (cx'.fieldChecked env base name) := by
  refine (h.value henv base).bind fun t ht => (h.fieldTypesChecked ht base.span).bind fun fields hfields => ?_
  cases hu : fields.lookup name.name with
  | some u =>
    obtain ⟨before, behind, rfl, -⟩ := List.lookup_eq_some_iff.1 hu
    exact .pure (hfields (name.name, u) (by simp))
  | none => exact .fail rfl _

theorem unifyFields {fieldEnv : Env} (hfield : fieldEnv.locals.Arranged cx.table) (henv : env.locals.Arranged cx.table)
    (fs : List Field) (args : List Expr) : Infer.Defended cx.table (fun _ => True)
      (cx.unifyFields fieldEnv env fs args) (cx'.unifyFields fieldEnv env fs args) := by
  induction fs generalizing args with
  | nil => exact .pure trivial
  | cons f fs ih =>
    cases args with
    | nil => exact .pure trivial
    | cons arg args =>
      refine (h.type hfield f.type).bind fun formal hformal => (h.value henv arg).bind fun actual hactual => ?_
      exact (h.unified hformal hactual arg.span).bind fun _ _ => ih args

/-- Fresh variables in front of the home of a declaration. -/
theorem opened {β : Type} {Q : β → Prop} {origin : Origin} (horigin : origin.home = home) (span : Span)
    (names : List Ident) {f g : Env → List Ty → Frame → Infer β}
    (hfg : ∀ (env : Env) (vars : List Ty) (locals : Frame), vars.length = names.length →
      (∀ t ∈ vars, cx.table.Arranges t) → locals.Arranged cx.table →
      Infer.Defended cx.table Q (f env vars locals) (g env vars locals)) :
    Infer.Defended cx.table Q
      (cx.home origin span >>= fun env => freshVars names >>= fun vars =>
        Infer.lift (Frame.ofTypeVars names vars) >>= fun locals => f env vars locals)
      (cx'.home origin span >>= fun env => freshVars names >>= fun vars =>
        Infer.lift (Frame.ofTypeVars names vars) >>= fun locals => g env vars locals) := by
  refine (h.home_alive horigin span).bind fun env _ => (Infer.Defended.freshVars names).bind fun vars hvars => ?_
  exact (Infer.Defended.typeVars hvars.2).bind fun locals hlocals => hfg env vars locals hvars.1 hvars.2 hlocals

theorem construct {origin : Origin} {kind : AggregateKind} {d : Aggregate}
    (hd : (Meaning.aggregate origin kind d).Sheltered cx.table home) (span : Span) (henv : env.locals.Arranged cx.table)
    (args : List Expr) : Infer.Defended cx.table (fun d => cx.table.Arranges d.ty)
      (cx.construct origin kind d span env args) (cx'.construct origin kind d span env args) := by
  refine (Infer.Defended.arity _ _ _ _).bind fun _ _ => ?_
  refine h.opened hd.1 span d.typeVars fun fieldEnv vars locals hlen hvars hlocals => ?_
  have hfield : Frame.Arranged cx.table { fieldEnv with locals }.locals := hlocals
  refine (h.unifyFields hfield henv d.fields args).bind fun _ _ => ?_
  refine (Infer.Defended.solution span hlen hvars).bind fun params hparams => .pure ?_
  exact Ty.arranged_compound.2 ⟨⟨origin.name, origin.home, d, hd.2, hparams.1.symm⟩, hparams.2⟩

theorem compareFields (henv : env.locals.Arranged cx.table) (fields : List (String × Ty)) (args : List Expr) :
    Infer.Defended cx.table (fun _ => True) (cx.compareFields env fields args) (cx'.compareFields env fields args) := by
  induction fields generalizing args with
  | nil => exact .pure trivial
  | cons f fields ih =>
    cases args with
    | nil => exact .pure trivial
    | cons arg args => exact (h.value henv arg).bind fun _ _ => (h.same _ _ _).bind fun _ _ => ih args

theorem callTypeChecked (span : Span) (henv : env.locals.Arranged cx.table) (callee : Expr) (args : List Expr) :
    Infer.Defended cx.table (fun d => cx.table.Arranges d.ty) (cx.callType span env callee args)
      (cx'.callTypeChecked span env callee args) := by
  refine (h.infer henv callee).bind fun d hd => .store fun s hs => ?_
  have hprune := hs.prune hd
  refine (h.fieldTypesChecked hprune callee.span).bind fun fields _ => (Infer.Defended.arity _ _ _ _).bind fun _ _ => ?_
  exact (h.compareFields henv fields args).bind fun _ _ => .pure hprune

/-! ### Answers -/

theorem unifyFormals (henv : env.locals.Arranged cx.table) (formals : List Formal) {key : Key}
    (hkey : ∀ d ∈ key, cx.table.Arranges d.ty) (args : List Expr) : Infer.Defended cx.table (fun _ => True)
      (cx.unifyFormals env formals key args) (cx'.unifyFormals env formals key args) := by
  induction formals generalizing key args with
  | nil => exact .pure trivial
  | cons formal formals ih =>
    cases key with
    | nil => exact .pure trivial
    | cons actual key =>
      cases args with
      | nil => exact .pure trivial
      | cons arg args =>
        obtain ⟨hactual, hkey⟩ := List.forall_mem_cons.1 hkey
        refine (Infer.Defended.accepted formal actual arg.span).bind fun _ _ => ?_
        refine (h.type henv formal.typeExpr).bind fun t ht => ?_
        exact (h.unified ht hactual arg.span).bind fun _ _ => ih hkey args

theorem addParams {frame : Frame} (hframe : frame.Arranged cx.table) (formals : List Formal) {key : Key}
    (hkey : ∀ d ∈ key, cx.table.Arranges d.ty) : Infer.Defended cx.table (Frame.Arranged cx.table)
      (cx.addParams frame formals key) (cx'.addParams frame formals key) := by
  induction formals generalizing frame key with
  | nil => exact .pure hframe
  | cons formal formals ih =>
    cases key with
    | nil => cases formal <;> exact .pure hframe
    | cons actual key =>
      obtain ⟨hactual, hkey⟩ := List.forall_mem_cons.1 hkey
      cases formal with
      | type t => exact ih hframe hkey
      | value passing name type =>
        refine (Infer.Defended.closed hactual (h.display actual.ty) name.span).bind fun t ht => ?_
        have hentry : ∀ home, (LocalName.param (passing.paramType t)).meaning.Sheltered cx.table home := by
          cases passing <;> exact fun _ => ht
        have hadd : Infer.Defended cx.table (Frame.Arranged cx.table)
            (Infer.lift (frame.add name (.param (passing.paramType t))))
            (Infer.lift (frame.add name (.param (passing.paramType t)))) :=
          .lift (fun frame' hframe' => hframe.add hentry hframe') fun e he => by rw [Frame.add_error he]; rfl
        exact hadd.bind fun frame' hframe' => ih hframe' hkey

theorem result (henv : env.locals.Arranged cx.table) (d : Procedure) :
    Infer.Defended cx.table cx.table.Arranges (cx.result env d) (cx'.result env d) := by
  unfold Context.result
  split
  · exact h.type henv _
  · exact h.value henv _
  · exact .pure trivial

theorem returnType {origin : Origin} (horigin : origin.home = home) (d : Procedure) {key : Key}
    (hkey : ∀ d ∈ key, cx.table.Arranges d.ty) (args : List Expr) (span : Span) :
    Infer.Defended cx.table cx.table.Arranges (cx.returnType origin d key args span)
      (cx'.returnType origin d key args span) := by
  refine (Infer.Defended.arity _ _ _ _).bind fun _ _ => ?_
  refine h.opened horigin span d.typeVars fun env vars locals hlen hvars hlocals => ?_
  have hformal : Frame.Arranged cx.table { env with locals }.locals := hlocals
  refine (h.unifyFormals hformal d.formals hkey args).bind fun _ _ => ?_
  refine (Infer.Defended.unconditional d.conditions).bind fun _ _ => ?_
  refine (Infer.Defended.solution span hlen hvars).bind fun types htypes => ?_
  refine (Infer.Defended.typeVars htypes.2).bind fun solved hsolved => ?_
  refine (h.addParams Frame.arranged_nil d.formals hkey).bind fun params hparams => ?_
  have hbody : Frame.Arranged cx.table { env with locals := params ++ solved }.locals := hparams.append hsolved
  refine (h.result hbody d).bind fun t ht => ?_
  exact Infer.Defended.closed ht (h.display t) d.span

theorem callProcedure {origin : Origin} (horigin : origin.home = home) (d : Procedure) (span : Span)
    (henv : env.locals.Arranged cx.table) (args : List Expr) : Infer.Defended cx.table (fun d => cx.table.Arranges d.ty)
      (cx.callProcedure origin d span env args) (cx'.callProcedure origin d span env args) := by
  refine (h.denotations henv args).bind fun key hkey => ?_
  rw [h.remember, h.remember']
  exact ((h.returnType horigin d hkey args span).memoized _ key span).bind fun t ht => .pure ht

theorem initType (henv : env.locals.Arranged cx.table) (d : Variables) (group : SymbolId) (span : Span) :
    Infer.Defended cx.table cx.table.Arranges (cx.initType env d group span) (cx'.initType env d group span) := by
  unfold Context.initType
  rw [h.remember, h.remember']
  exact (h.value henv d.init).memoized group [] span

theorem globalType {origin : Origin} (horigin : origin.home = home) (d : Variables) (group : SymbolId) (position : Nat)
    (span : Span) : Infer.Defended cx.table cx.table.Arranges (cx.globalType origin d group position span)
      (cx'.globalType origin d group position span) := by
  refine (h.home_alive horigin span).bind fun env hlocals => ?_
  have henv : env.locals.Arranged cx.table := hlocals ▸ Frame.arranged_nil
  split
  · exact h.type henv _
  · refine (h.initType henv d group span).bind fun t ht => ?_
    split
    · exact .pure ht
    · refine (h.view (seesArranged_parts? cx.table) ht d.init.span).bind fun parts hparts => ?_
      exact (Infer.Defended.arity _ _ _ _).bind fun _ _ => .part hparts position d.init.span

/-! ### Primitive operations -/

section

include henv

theorem operand (fits : Ty → Bool) (expected : String) (e : Expr) :
    Infer.Defended cx.table cx.table.Arranges (cx.operand env fits expected e) (cx'.operand env fits expected e) := by
  refine (h.value henv e).bind fun t ht => .store fun s _ => ?_
  split
  · exact .pure ht
  · exact (h.display t).bind fun _ _ => .fail rfl _

theorem operands (s : Scalar) (es : List Expr) :
    Infer.Defended cx.table (fun _ => True) (cx.operands env s es) (cx'.operands env s es) := by
  induction es with
  | nil => exact .pure trivial
  | cons e es ih => exact (h.operand henv _ _ e).bind fun _ _ => ih

/-- An operation without signature is one of the four that have a rule of their own. -/
theorem callPolymorphic {op : Operation} (hop : op.signature? = none) (span : Span) (args : List Expr) :
    Infer.Defended cx.table cx.table.Arranges (cx.callPolymorphic op span env args)
      (cx'.callPolymorphic op span env args) := by
  unfold Context.callPolymorphic
  split
  · exact h.type henv _
  · exact .fail rfl _
  · exact (h.operand henv _ _ _).bind fun _ _ => (h.value henv _).bind fun t ht => .pure ht
  · exact .fail rfl _
  · exact (h.operand henv _ _ _).bind fun _ _ => .pure trivial
  · exact .fail rfl _
  · exact (Infer.Defended.natLiteral _).bind fun _ _ => (h.value henv _).bind fun t ht => .pure ht
  · exact .fail rfl _
  · cases hop

theorem callPrimitive (op : Operation) (span : Span) (args : List Expr) :
    Infer.Defended cx.table cx.table.Arranges (cx.callPrimitive op span env args)
      (cx'.callPrimitive op span env args) := by
  unfold Context.callPrimitive
  split
  · exact (Infer.Defended.arity _ _ _ _).bind fun _ _ => (h.operands henv _ args).bind fun _ _ => .pure trivial
  · rename_i hop
    exact h.callPolymorphic henv hop span args

/-! ### All expressions -/

theorem name (name : Ident) :
    Infer.Defended cx.table (fun d => cx.table.Arranges d.ty) (cx.name env name) (cx'.name env name) := by
  refine (h.meaning henv name).bind fun m hm => ?_
  cases m with
  | typeVar t =>
    refine .store fun s hs => .pure ?_
    cases hd : s.deref? t with
    | none => exact hm
    | some u => exact hs.deref? hm hd
  | localVar t => exact .pure hm
  | builtin b =>
    dsimp only
    split
    · rename_i t ht
      cases b with
      | scalar c =>
        cases ht
        exact .pure trivial
      | _ => cases ht
    · exact .fail rfl _
  | aggregate origin kind d =>
    exact (Infer.Defended.instantiate hm (List.forall_mem_nil _) name.span).bind fun t ht => .pure ht
  | global origin d group position => exact (h.globalType hm d group position name.span).bind fun t ht => .pure ht
  | _ => exact .fail rfl _

theorem arrayElement (span : Span) (base : Expr) (indexes : List Expr) :
    Infer.Defended cx.table (fun d => cx.table.Arranges d.ty) (cx.arrayElement span env base indexes)
      (cx'.arrayElement span env base indexes) := by
  refine (h.value henv base).bind fun t ht => ?_
  refine (h.view (seesArranged_element? cx.table) ht base.span).bind fun element helement => ?_
  split
  · exact (h.value henv _).bind fun i _ => (h.shaped _ _ _).bind fun _ _ => .pure helement
  · exact .fail rfl _

theorem typeParam (span : Span) (params : List Expr) :
    Infer.Defended cx.table cx.table.Arranges (cx.typeParam span env params) (cx'.typeParam span env params) := by
  unfold Context.typeParam
  split
  · exact h.type henv _
  · exact .fail rfl _

theorem arrayValueType (span : Span) (params : List Expr) :
    Infer.Defended cx.table cx.table.Arranges (cx.arrayValueType span env params)
      (cx'.arrayValueType span env params) := by
  unfold Context.arrayValueType
  split
  · exact (h.type henv _).bind fun t ht => (Infer.Defended.natLiteral _).bind fun _ _ => .pure ht
  · exact .fail rfl _

theorem index (span : Span) (base : Expr) (indexes : List Expr) :
    Infer.Defended cx.table (fun d => cx.table.Arranges d.ty) (cx.index span env base indexes)
      (cx'.index span env base indexes) := by
  unfold Context.index
  split
  · exact h.arrayElement henv span base indexes
  · refine (h.meaning henv _).bind fun m hm => ?_
    split
    · exact (h.typeParam henv span indexes).bind fun t ht => .pure ht
    · exact (h.arrayValueType henv span indexes).bind fun t ht => .pure ht
    · exact (h.typeParam henv span indexes).bind fun t ht => .pure ht
    · refine (h.types henv indexes).bind fun params hparams => ?_
      exact (Infer.Defended.instantiate hm hparams span).bind fun t ht => .pure ht
    · exact h.arrayElement henv span base indexes

theorem callChecked (span : Span) (callee : Expr) (args : List Expr) :
    Infer.Defended cx.table (fun d => cx.table.Arranges d.ty) (cx.call span env callee args)
      (cx'.callChecked span env callee args) := by
  unfold Context.call Context.callChecked
  cases callee.bareName? with
  | none => exact h.callTypeChecked span henv callee args
  | some name =>
    refine (h.meaning henv name).bind fun m hm => ?_
    cases m with
    | primitive op => exact (h.callPrimitive henv op span args).bind fun t ht => .pure ht
    | aggregate origin kind d => exact h.construct hm span henv args
    | procedure origin d => exact h.callProcedure hm d span henv args
    | overloadable => exact .fail rfl _
    | _ => exact h.callTypeChecked span henv callee args

theorem sameElements (t : Ty) (es : List Expr) :
    Infer.Defended cx.table (fun _ => True) (cx.sameElements env t es) (cx'.sameElements env t es) := by
  induction es with
  | nil => exact .pure trivial
  | cons e es ih => exact (h.value henv e).bind fun u _ => (h.same t u e.span).bind fun _ _ => ih

theorem arrayLiteral (span : Span) (es : List Expr) :
    Infer.Defended cx.table cx.table.Arranges (cx.arrayLiteral span env es) (cx'.arrayLiteral span env es) := by
  cases es with
  | nil => exact .fail rfl _
  | cons e es => exact (h.value henv e).bind fun t ht => (h.sameElements henv t es).bind fun _ _ => .pure ht

/-- Every rule is defended, and its checks are passed. -/
theorem ruleChecked (e : Expr) :
    Infer.Defended cx.table (fun d => cx.table.Arranges d.ty) (cx.rule env e) (cx'.ruleChecked env e) := by
  cases e with
  | addressOf span operand => exact (h.value henv operand).bind fun t ht => .pure ht
  | index span base indexes => exact h.index henv span base indexes
  | call span callee args => exact h.callChecked henv span callee args
  | field span base name => exact h.fieldChecked henv base name
  | element span base position =>
    refine (h.value henv base).bind fun t ht => ?_
    refine (h.view (seesArranged_parts? cx.table) ht base.span).bind fun parts hparts => ?_
    exact (Infer.Defended.part hparts position span).bind fun u hu => .pure hu
  | pointee span base =>
    refine (h.value henv base).bind fun t ht => ?_
    exact (h.view (seesArranged_pointee? cx.table) ht base.span).bind fun u hu => .pure hu
  | array span elements => exact (h.arrayLiteral henv span elements).bind fun t ht => .pure ht
  | tuple span elements =>
    exact (h.values henv elements).bind fun ts hts => .pure (Ty.arranged_compound.2 ⟨trivial, hts⟩)
  | name span ident => exact h.name henv ident
  | bool span b => exact .pure trivial
  | int span i => exact .pure trivial
  | char span c => exact .pure trivial

theorem project (side : Side) (e : Expr) (shape : Option Shape) :
    Infer.Defended cx.table cx.table.Arranges (cx.project side env e shape) (cx'.project side env e shape) := by
  have hshaped : ∀ shape t, cx.table.Arranges t → Infer.Defended cx.table cx.table.Arranges
      (cx.shaped shape t e.span >>= fun _ => pure t) (cx'.shaped shape t e.span >>= fun _ => pure t) :=
    fun shape t ht => (h.shaped shape t e.span).bind fun _ _ => .pure ht
  cases side with
  | value =>
    refine (h.value henv e).bind fun t ht => ?_
    cases shape with
    | some shape => exact hshaped shape t ht
    | none => exact .pure ht
  | type =>
    refine (h.type henv e).bind fun t ht => ?_
    cases shape with
    | some shape => exact hshaped shape t ht
    | none => exact .pure ht

end

end Context.Defended

/-! ## Inference -/

section

variable {tab : SymbolTable} {home : ScopeId} (h : tab.Sheltered home)

include h

theorem Context.Defended.of_infer {infer infer' : Env → Expr → Infer Denotation}
    (hinfer : ∀ {env : Env}, env.locals.Arranged tab → ∀ e,
      Infer.Defended tab (fun d => tab.Arranges d.ty) (infer env e) (infer' env e)) :
    Context.Defended home { table := tab, infer } { table := tab, infer := infer' } where
  table := rfl
  sheltered := h
  infer := hinfer
  remember := rfl
  remember' := rfl
  unify := rfl
  unify' := rfl

/-- Inference in a sheltered table is defended, and comes out the same with checks. -/
theorem infer_defended (depth : Nat) {env : Env} (henv : env.locals.Arranged tab) (e : Expr) :
    Infer.Defended tab (fun d => tab.Arranges d.ty) (inferWithin depth tab env e) (inferChecked depth tab env e) := by
  induction depth generalizing env e with
  | zero => exact fun st _ => ⟨rfl, nofun⟩
  | succ depth ih => exact (Context.Defended.of_infer h fun henv e => ih henv e).ruleChecked henv e

theorem project_defended (depth : Nat) (side : Side) {env : Env} (henv : env.locals.Arranged tab) (e : Expr)
    (shape : Option Shape) :
    Infer.Defended tab tab.Arranges (projectWithin depth tab side env e shape)
      (projectChecked depth tab side env e shape) :=
  (Context.Defended.of_infer h fun henv e => infer_defended h depth henv e).project henv side e shape

end

end DualInference
