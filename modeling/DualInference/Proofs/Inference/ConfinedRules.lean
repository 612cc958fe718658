/-
Every rule keeps to the variables there are.

Two contexts on one table are given whose inferences are confined, and which unify types of a well-formed store alike
(`Context.Confined`). Then all rules are confined (`Context.Confined.rule`), one function after the other, in the order of
the rules.

The two contexts may differ in what they do where a bound variable is to be bound. `inferSettling` leaves that open, and
comes to what `inferWithin` comes to, whatever is done (`infer_confined`): no rule ever leads there.
-/
import DualInference.Proofs.Inference.Confinement

namespace DualInference

/-- two contexts on one table whose inferences are confined, and that unify types of a well-formed store alike -/
structure Context.Confined (cx cx' : Context) : Prop where
  table : cx'.table = cx.table
  infer : ∀ {n env}, Below n env → ∀ e, Infer.Confined cx.table n (cx.infer env e) (cx'.infer env e)
  remember : cx.remember = Infer.memoized Infer.start
  remember' : cx'.remember = Infer.memoized Infer.start
  unify : ∀ {s a b}, Store.Compared s a b →
    cx'.unify s a b = cx.unify s a b ∧ ∀ s', cx.unify s a b = some s' → s.Grows s'

/-- a view whose parts are parts of the type -/
def Ty.Sees {α : Type} [HasVars α] (look : Ty → Option α) : Prop :=
  ∀ {n t a}, Below n t → look t = some a → Below n a

theorem sees_element? : Ty.Sees Ty.element? := by
  intro n t a ht ha
  obtain ⟨w, rfl⟩ := Ty.element?_eq_some ha
  exact ht

theorem sees_pointee? : Ty.Sees Ty.pointee? := by
  intro n t a ht ha
  obtain rfl := Ty.pointee?_eq_some ha
  exact ht

theorem sees_parts? : Ty.Sees Ty.parts? := by
  intro n t a ht ha
  obtain rfl := Ty.parts?_eq_some ha
  exact below_compound.1 ht

theorem sees_aggregate? : Ty.Sees Ty.aggregate? := by
  intro n t a ht ha
  obtain ⟨kind, rfl⟩ := Ty.aggregate?_eq_some ha
  exact below_pair.2 ⟨nofun, below_compound.1 ht⟩

namespace Context.Confined

open Infer

variable {cx cx' : Context} (h : cx.Confined cx') {α : Type} [HasVars α] {n : Nat} {env : Env} (henv : Below n env)

include h

/-! ### Demands on types -/

theorem display (t : Ty) : Infer.Confined cx.table n (cx.display t) (cx'.display t) := by
  unfold Context.display
  rw [h.table]
  exact .store fun s _ _ => .pure nofun

theorem invalidType (t : Ty) (span : Span) :
    Infer.Confined cx.table n (cx.invalidType (α := α) t span) (cx'.invalidType t span) :=
  (h.display t).bind fun _ _ _ _ => .fail _ _

theorem mismatch (t u : Ty) (span : Span) :
    Infer.Confined cx.table n (cx.mismatch (α := α) t u span) (cx'.mismatch t u span) :=
  (h.display t).bind fun _ _ _ _ => (h.display u).bind fun _ _ _ _ => .fail _ _

theorem view {look : Ty → Option α} (hlook : Ty.Sees look) {t : Ty} (ht : Below n t) (span : Span) :
    Infer.Confined cx.table n (cx.view look t span) (cx'.view look t span) := by
  refine .store fun s hn hs => ?_
  cases hl : look (s.prune t) with
  | some a =>
    have hprune : Below s.size (s.prune t) := hs.covers_prune (ht.mono hn)
    exact .pure (hlook hprune hl)
  | none => exact h.invalidType t span

theorem shaped (shape : Shape) (t : Ty) (span : Span) :
    Infer.Confined cx.table n (cx.shaped shape t span) (cx'.shaped shape t span) := by
  refine .store fun s _ _ => ?_
  split
  · exact .pure nofun
  · exact h.invalidType t span

theorem same (t u : Ty) (span : Span) : Infer.Confined cx.table n (cx.same t u span) (cx'.same t u span) := by
  refine .store fun s _ _ => ?_
  split
  · exact .pure nofun
  · exact h.mismatch t u span

theorem unified {t u : Ty} (ht : Below n t) (hu : Below n u) (span : Span) :
    Infer.Confined cx.table n (cx.unified t u span) (cx'.unified t u span) := by
  refine .evolve fun st hn hs => ?_
  obtain ⟨heq, hgrows⟩ := h.unify ⟨hs, ht.mono hn, hu.mono hn⟩
  cases hunify : cx.unify st.store t u with
  | some s =>
    refine ⟨s, pure (), pure (), .of_grows (hgrows s hunify), ?_, ?_, .pure nofun⟩
    · exact Context.unified_of_some hunify
    · exact Context.unified_of_some (heq.trans hunify)
  | none =>
    refine ⟨st.store, cx.mismatch t u span, cx'.mismatch t u span, .refl _, ?_, ?_, h.mismatch t u span⟩
    · exact Context.unified_of_none hunify
    · exact Context.unified_of_none (heq.trans hunify)

/-! ### Demands on the program text -/

theorem home (origin : Origin) (span : Span) :
    Infer.Confined cx.table n (cx.home origin span) (cx'.home origin span) := by
  unfold Context.home
  rw [h.table]
  split
  · exact .pure nofun
  · exact .fail _ _

theorem meaning (henv : Below n env) (name : Ident) :
    Infer.Confined cx.table n (cx.meaning env name) (cx'.meaning env name) := by
  intro st hn hst
  unfold Context.meaning
  rw [h.table]
  cases hm : env.meaning? cx.table name.name with
  | some m => exact Infer.Confined.pure (hst.meaning?_below (henv.mono hn) hm) st (Nat.le_refl _) hst
  | none => exact Infer.Confined.fail (n := n) _ _ st hn hst

/-! ### Demands on expressions -/

section

include henv

theorem value (e : Expr) : Infer.Confined cx.table n (cx.value env e) (cx'.value env e) := by
  refine (h.infer henv e).bind fun m _ d hd => ?_
  cases d with
  | value t => exact .pure hd
  | type t => exact .fail _ _

theorem type (e : Expr) : Infer.Confined cx.table n (cx.type env e) (cx'.type env e) := by
  refine (h.infer henv e).bind fun m _ d hd => ?_
  cases d with
  | value t => exact .fail _ _
  | type t => exact .pure hd

theorem denotations (es : List Expr) :
    Infer.Confined cx.table n (cx.denotations env es) (cx'.denotations env es) := by
  induction es generalizing n with
  | nil => exact .pure nofun
  | cons e es ih =>
    refine (h.infer henv e).bind fun m hm d hd => ?_
    exact (ih (henv.mono hm)).bind fun k hk ds hds => .pure (below_cons.2 ⟨hd.mono hk, hds⟩)

theorem values (es : List Expr) : Infer.Confined cx.table n (cx.values env es) (cx'.values env es) := by
  induction es generalizing n with
  | nil => exact .pure nofun
  | cons e es ih =>
    refine (h.value henv e).bind fun m hm t ht => ?_
    exact (ih (henv.mono hm)).bind fun k hk ts hts => .pure (below_cons.2 ⟨ht.mono hk, hts⟩)

theorem types (es : List Expr) : Infer.Confined cx.table n (cx.types env es) (cx'.types env es) := by
  induction es generalizing n with
  | nil => exact .pure nofun
  | cons e es ih =>
    refine (h.type henv e).bind fun m hm t ht => ?_
    exact (ih (henv.mono hm)).bind fun k hk ts hts => .pure (below_cons.2 ⟨ht.mono hk, hts⟩)

/-! ### Aggregates -/

theorem fieldsIn (fs : List Field) : Infer.Confined cx.table n (cx.fieldsIn env fs) (cx'.fieldsIn env fs) := by
  induction fs generalizing n with
  | nil => exact .pure nofun
  | cons f fs ih =>
    refine (h.type henv f.type).bind fun m hm t ht => ?_
    refine (ih (henv.mono hm)).bind fun k hk ts hts => .pure (below_cons.2 ⟨?_, hts⟩)
    exact below_pair.2 ⟨nofun, ht.mono hk⟩

end

theorem fieldTypes {t : Ty} (ht : Below n t) (span : Span) :
    Infer.Confined cx.table n (cx.fieldTypes t span) (cx'.fieldTypes t span) := by
  refine (h.view sees_aggregate? ht span).bind fun m hm p hp => ?_
  obtain ⟨id, params⟩ := p
  dsimp only
  rw [h.table]
  split
  · rename_i origin _ d _
    refine (h.home origin span).bind fun k hk home _ => ?_
    have hparams := (below_pair.1 hp).2.mono hk
    refine (Infer.Confined.lift fun frame hframe => ?_).bind fun l _ frame hframe => h.fieldsIn ?_ d.fields
    · exact Frame.below_ofTypeVars hparams hframe
    · exact hframe
  · exact h.invalidType t span

theorem field (henv : Below n env) (base : Expr) (name : Ident) :
    Infer.Confined cx.table n (cx.field env base name) (cx'.field env base name) := by
  refine (h.value henv base).bind fun m _ t ht => (h.fieldTypes ht base.span).bind fun k _ fields hfields => ?_
  split
  · rename_i u hu
    have hbelow : Below k u := below_lookup hfields hu
    exact .pure hbelow
  · exact .fail _ _

theorem unifyFields {fieldEnv : Env} (hfield : Below n fieldEnv) (henv : Below n env) (fs : List Field)
    (args : List Expr) :
    Infer.Confined cx.table n (cx.unifyFields fieldEnv env fs args) (cx'.unifyFields fieldEnv env fs args) := by
  induction fs generalizing n args with
  | nil => exact .pure nofun
  | cons f fs ih =>
    cases args with
    | nil => exact .pure nofun
    | cons arg args =>
      refine (h.type hfield f.type).bind fun m hm formal hformal => ?_
      refine (h.value (henv.mono hm) arg).bind fun k hk actual hactual => ?_
      refine (h.unified (hformal.mono hk) hactual arg.span).bind fun l hl _ _ => ?_
      have hnl := hm.trans (hk.trans hl)
      exact ih (hfield.mono hnl) (henv.mono hnl) args

/-- Fresh variables in front of the home of a declaration. -/
theorem opened {β : Type} [HasVars β] (origin : Origin) (span : Span) (names : List Ident)
    {f g : Env → List Ty → Frame → Infer β}
    (hfg : ∀ m, n ≤ m → ∀ (home : Env) (vars : List Ty) (locals : Frame), Below m vars → Below m locals →
      Infer.Confined cx.table m (f home vars locals) (g home vars locals)) :
    Infer.Confined cx.table n
      (cx.home origin span >>= fun home => freshVars names >>= fun vars =>
        Infer.lift (Frame.ofTypeVars names vars) >>= fun locals => f home vars locals)
      (cx'.home origin span >>= fun home => freshVars names >>= fun vars =>
        Infer.lift (Frame.ofTypeVars names vars) >>= fun locals => g home vars locals) := by
  refine (h.home origin span).bind fun m hm home _ => ?_
  refine (Infer.Confined.freshVars names).bind fun k hk vars hvars => ?_
  refine (Infer.Confined.lift fun locals hlocals => ?_).bind fun l hl locals hlocals => ?_
  · exact Frame.below_ofTypeVars hvars hlocals
  · exact hfg l (hm.trans (hk.trans hl)) home vars locals (hvars.mono hl) hlocals

theorem construct (origin : Origin) (kind : AggregateKind) (d : Aggregate) (span : Span) (henv : Below n env)
    (args : List Expr) : Infer.Confined cx.table n (cx.construct origin kind d span env args)
      (cx'.construct origin kind d span env args) := by
  refine (Infer.Confined.arity _ _ _ _).bind fun m hm _ _ => ?_
  refine h.opened origin span d.typeVars fun k hk home vars locals _ hlocals => ?_
  have hfield : Below k { home with locals } := hlocals
  refine (h.unifyFields hfield (henv.mono (hm.trans hk)) d.fields args).bind fun l _ _ _ => ?_
  refine (Infer.Confined.solution span d.typeVars vars).bind fun j _ params hparams => .pure ?_
  exact below_compound.2 hparams

theorem compareFields (henv : Below n env) (fields : List (String × Ty)) (args : List Expr) :
    Infer.Confined cx.table n (cx.compareFields env fields args) (cx'.compareFields env fields args) := by
  induction fields generalizing n args with
  | nil => exact .pure nofun
  | cons f fields ih =>
    cases args with
    | nil => exact .pure nofun
    | cons arg args =>
      refine (h.value henv arg).bind fun m hm actual _ => ?_
      exact (h.same _ _ _).bind fun k hk _ _ => ih (henv.mono (hm.trans hk)) args

theorem callType (span : Span) (henv : Below n env) (callee : Expr) (args : List Expr) :
    Infer.Confined cx.table n (cx.callType span env callee args) (cx'.callType span env callee args) := by
  refine (h.infer henv callee).bind fun m hm d hd => .store fun s hs hwf => ?_
  have hprune : Below s.size (s.prune d.ty) := hwf.covers_prune (Below.mono hd hs)
  refine (h.fieldTypes hprune callee.span).bind fun k hk fields _ => ?_
  refine (Infer.Confined.arity _ _ _ _).bind fun l hl _ _ => ?_
  have hle := hk.trans hl
  refine (h.compareFields (henv.mono (hm.trans (hs.trans hle))) fields args).bind fun j hj _ _ => .pure ?_
  exact hprune.mono (hle.trans hj)

/-! ### Answers -/

theorem unifyFormals (henv : Below n env) (formals : List Formal) {key : Key} (hkey : Below n key) (args : List Expr) :
    Infer.Confined cx.table n (cx.unifyFormals env formals key args) (cx'.unifyFormals env formals key args) := by
  induction formals generalizing n key args with
  | nil => exact .pure nofun
  | cons formal formals ih =>
    cases key with
    | nil => exact .pure nofun
    | cons actual key =>
      cases args with
      | nil => exact .pure nofun
      | cons arg args =>
        obtain ⟨hactual, hkey⟩ := below_cons.1 hkey
        refine (Infer.Confined.accepted formal actual arg.span).bind fun m hm _ _ => ?_
        refine (h.type (henv.mono hm) formal.typeExpr).bind fun k hk t ht => ?_
        have hactual' : Below k actual.ty := hactual.mono (hm.trans hk)
        refine (h.unified ht hactual' arg.span).bind fun l hl _ _ => ?_
        have hnl := hm.trans (hk.trans hl)
        exact ih (henv.mono hnl) (hkey.mono hnl) args

theorem addParams {frame : Frame} (hframe : Below n frame) (formals : List Formal) (key : Key) :
    Infer.Confined cx.table n (cx.addParams frame formals key) (cx'.addParams frame formals key) := by
  induction formals generalizing n frame key with
  | nil => exact .pure hframe
  | cons formal formals ih =>
    cases key with
    | nil => cases formal <;> exact .pure hframe
    | cons actual key =>
      cases formal with
      | type t => exact ih hframe key
      | value passing name type =>
        refine (Infer.Confined.closed actual.ty (h.display actual.ty) name.span).bind fun m hm t ht => ?_
        have hentry : Below m (LocalName.param (passing.paramType t)) := by cases passing <;> exact ht
        refine (Infer.Confined.lift fun frame' hadd => ?_).bind fun k _ frame' hframe' => ih hframe' key
        exact Frame.below_add (hframe.mono hm) hentry hadd

theorem result (henv : Below n env) (d : Procedure) :
    Infer.Confined cx.table n (cx.result env d) (cx'.result env d) := by
  unfold Context.result
  split
  · exact h.type henv _
  · exact h.value henv _
  · exact .pure nofun

theorem returnType (origin : Origin) (d : Procedure) {key : Key} (hkey : Below n key) (args : List Expr) (span : Span) :
    Infer.Confined cx.table n (cx.returnType origin d key args span) (cx'.returnType origin d key args span) := by
  refine (Infer.Confined.arity _ _ _ _).bind fun m hm _ _ => ?_
  refine h.opened origin span d.typeVars fun k hk home vars locals _ hlocals => ?_
  have henv : Below k { home with locals } := hlocals
  refine (h.unifyFormals henv d.formals (hkey.mono (hm.trans hk)) args).bind fun l _ _ _ => ?_
  refine (Infer.Confined.unconditional d.conditions).bind fun j _ _ _ => ?_
  refine (Infer.Confined.solution span d.typeVars vars).bind fun i _ types htypes => ?_
  refine (Infer.Confined.lift fun solved hsolved => Frame.below_ofTypeVars htypes hsolved).bind fun i' _ solved hsolved => ?_
  refine (h.addParams below_nil d.formals key).bind fun i'' hle params hparams => ?_
  have hbody : Below i'' { home with locals := params ++ solved } := below_append.2 ⟨hparams, hsolved.mono hle⟩
  exact (h.result hbody d).bind fun _ _ t _ => Infer.Confined.closed t (h.display t) d.span

theorem callProcedure (origin : Origin) (d : Procedure) (span : Span) (henv : Below n env) (args : List Expr) :
    Infer.Confined cx.table n (cx.callProcedure origin d span env args) (cx'.callProcedure origin d span env args) := by
  refine (h.denotations henv args).bind fun m _ key hkey => ?_
  rw [h.remember, h.remember']
  exact ((h.returnType origin d hkey args span).memoized _ key span).bind fun k _ t ht => .pure ht

theorem initType {home : Env} (hhome : Below n home) (d : Variables) (group : SymbolId) (span : Span) :
    Infer.Confined cx.table n (cx.initType home d group span) (cx'.initType home d group span) := by
  unfold Context.initType
  rw [h.remember, h.remember']
  exact (h.value hhome d.init).memoized group [] span

theorem globalType (origin : Origin) (d : Variables) (group : SymbolId) (position : Nat) (span : Span) :
    Infer.Confined cx.table n (cx.globalType origin d group position span)
      (cx'.globalType origin d group position span) := by
  refine (h.home origin span).bind fun m _ home hhome => ?_
  split
  · exact h.type hhome _
  · refine (h.initType hhome d group span).bind fun k _ t ht => ?_
    split
    · exact .pure ht
    · refine (h.view sees_parts? ht d.init.span).bind fun l _ parts hparts => ?_
      exact (Infer.Confined.arity _ _ _ _).bind fun j hj _ _ => .part (hparts.mono hj) position d.init.span

/-! ### Primitive operations -/

section

include henv

theorem operand (fits : Ty → Bool) (expected : String) (e : Expr) :
    Infer.Confined cx.table n (cx.operand env fits expected e) (cx'.operand env fits expected e) := by
  refine (h.value henv e).bind fun m _ t ht => .store fun s hs _ => ?_
  split
  · exact .pure (ht.mono hs)
  · exact (h.display t).bind fun _ _ _ _ => .fail _ _

theorem operands (s : Scalar) (es : List Expr) :
    Infer.Confined cx.table n (cx.operands env s es) (cx'.operands env s es) := by
  induction es generalizing n with
  | nil => exact .pure nofun
  | cons e es ih => exact (h.operand henv _ _ e).bind fun m hm _ _ => ih (henv.mono hm)

theorem callPolymorphic (op : Operation) (span : Span) (args : List Expr) :
    Infer.Confined cx.table n (cx.callPolymorphic op span env args) (cx'.callPolymorphic op span env args) := by
  unfold Context.callPolymorphic
  split
  · exact h.type henv _
  · exact .fail _ _
  · refine (h.operand henv _ _ _).bind fun m hm _ _ => ?_
    exact (h.value (henv.mono hm) _).bind fun k _ t ht => .pure ht
  · exact .fail _ _
  · exact (h.operand henv _ _ _).bind fun m _ _ _ => .pure nofun
  · exact .fail _ _
  · refine (Infer.Confined.natLiteral _).bind fun m hm size _ => ?_
    exact (h.value (henv.mono hm) _).bind fun k _ t ht => .pure ht
  · exact .fail _ _
  · exact .fail _ _

theorem callPrimitive (op : Operation) (span : Span) (args : List Expr) :
    Infer.Confined cx.table n (cx.callPrimitive op span env args) (cx'.callPrimitive op span env args) := by
  unfold Context.callPrimitive
  split
  · refine (Infer.Confined.arity _ _ _ _).bind fun m hm _ _ => ?_
    exact (h.operands (henv.mono hm) _ args).bind fun k _ _ _ => .pure nofun
  · exact h.callPolymorphic henv op span args

/-! ### All expressions -/

theorem name (name : Ident) : Infer.Confined cx.table n (cx.name env name) (cx'.name env name) := by
  refine (h.meaning henv name).bind fun m _ meaning hmeaning => ?_
  cases meaning with
  | typeVar t =>
    refine .store fun s hs hwf => .pure ?_
    cases hd : s.deref? t with
    | none => exact Below.mono (a := t) hmeaning hs
    | some u => exact below_closed (Store.vars_deref? hd)
  | localVar t => exact .pure hmeaning
  | builtin b =>
    dsimp only
    split
    · rename_i t ht
      cases b with
      | scalar c =>
        cases ht
        have hclosed : Below m (Ty.scalar c) := below_closed rfl
        exact .pure hclosed
      | _ => cases ht
    · exact .fail _ _
  | aggregate origin kind d =>
    exact (Infer.Confined.instantiate origin kind d below_nil name.span).bind fun _ _ t ht => .pure ht
  | global origin d group position =>
    exact (h.globalType origin d group position name.span).bind fun _ _ t ht => .pure ht
  | _ => exact .fail _ _

theorem arrayElement (span : Span) (base : Expr) (indexes : List Expr) :
    Infer.Confined cx.table n (cx.arrayElement span env base indexes) (cx'.arrayElement span env base indexes) := by
  refine (h.value henv base).bind fun m hm t ht => ?_
  refine (h.view sees_element? ht base.span).bind fun k hk element helement => ?_
  split
  · refine (h.value (henv.mono (hm.trans hk)) _).bind fun l hl i _ => ?_
    exact (h.shaped _ _ _).bind fun j hj _ _ => .pure (Below.mono (a := element) helement (hl.trans hj))
  · exact .fail _ _

theorem typeParam (span : Span) (params : List Expr) :
    Infer.Confined cx.table n (cx.typeParam span env params) (cx'.typeParam span env params) := by
  unfold Context.typeParam
  split
  · exact h.type henv _
  · exact .fail _ _

theorem arrayValueType (span : Span) (params : List Expr) :
    Infer.Confined cx.table n (cx.arrayValueType span env params) (cx'.arrayValueType span env params) := by
  unfold Context.arrayValueType
  split
  · refine (h.type henv _).bind fun m _ t ht => (Infer.Confined.natLiteral _).bind fun k hk size _ => .pure ?_
    exact Below.mono (a := t) ht hk
  · exact .fail _ _

theorem index (span : Span) (base : Expr) (indexes : List Expr) :
    Infer.Confined cx.table n (cx.index span env base indexes) (cx'.index span env base indexes) := by
  unfold Context.index
  split
  · exact h.arrayElement henv span base indexes
  · refine (h.meaning henv _).bind fun m hm meaning _ => ?_
    have henv' := henv.mono hm
    split
    · exact (h.typeParam henv' span indexes).bind fun _ _ t ht => .pure ht
    · exact (h.arrayValueType henv' span indexes).bind fun _ _ t ht => .pure ht
    · exact (h.typeParam henv' span indexes).bind fun _ _ t ht => .pure ht
    · refine (h.types henv' indexes).bind fun k _ params hparams => ?_
      exact (Infer.Confined.instantiate _ _ _ hparams span).bind fun _ _ t ht => .pure ht
    · exact h.arrayElement henv' span base indexes

theorem call (span : Span) (callee : Expr) (args : List Expr) :
    Infer.Confined cx.table n (cx.call span env callee args) (cx'.call span env callee args) := by
  unfold Context.call
  split
  · exact h.callType span henv callee args
  · refine (h.meaning henv _).bind fun m hm meaning _ => ?_
    have henv' := henv.mono hm
    split
    · exact (h.callPrimitive henv' _ span args).bind fun _ _ t ht => .pure ht
    · exact h.construct _ _ _ span henv' args
    · exact h.callProcedure _ _ span henv' args
    · exact .fail _ _
    · exact h.callType span henv' callee args

theorem sameElements (t : Ty) (es : List Expr) :
    Infer.Confined cx.table n (cx.sameElements env t es) (cx'.sameElements env t es) := by
  induction es generalizing n with
  | nil => exact .pure nofun
  | cons e es ih =>
    refine (h.value henv e).bind fun m hm u _ => ?_
    exact (h.same t u e.span).bind fun k hk _ _ => ih (henv.mono (hm.trans hk))

theorem arrayLiteral (span : Span) (es : List Expr) :
    Infer.Confined cx.table n (cx.arrayLiteral span env es) (cx'.arrayLiteral span env es) := by
  cases es with
  | nil => exact .fail _ _
  | cons e es =>
    refine (h.value henv e).bind fun m hm t ht => ?_
    exact (h.sameElements (henv.mono hm) t es).bind fun k hk _ _ => .pure (Below.mono (a := t) ht hk)

/-- Every rule is confined. -/
theorem rule (e : Expr) : Infer.Confined cx.table n (cx.rule env e) (cx'.rule env e) := by
  cases e with
  | addressOf span operand => exact (h.value henv operand).bind fun _ _ t ht => .pure ht
  | index span base indexes => exact h.index henv span base indexes
  | call span callee args => exact h.call henv span callee args
  | field span base name => exact h.field henv base name
  | element span base position =>
    refine (h.value henv base).bind fun m _ t ht => (h.view sees_parts? ht base.span).bind fun k _ parts hparts => ?_
    exact (Infer.Confined.part hparts position span).bind fun _ _ u hu => .pure hu
  | pointee span base =>
    refine (h.value henv base).bind fun m _ t ht => ?_
    exact (h.view sees_pointee? ht base.span).bind fun _ _ u hu => .pure hu
  | array span elements => exact (h.arrayLiteral henv span elements).bind fun _ _ t ht => .pure ht
  | tuple span elements => exact (h.values henv elements).bind fun _ _ ts hts => .pure (below_compound.2 hts)
  | name span ident => exact h.name henv ident
  | bool span b => exact .pure nofun
  | int span i => exact .pure nofun
  | char span c => exact .pure nofun

theorem project (side : Side) (e : Expr) (shape : Option Shape) :
    Infer.Confined cx.table n (cx.project side env e shape) (cx'.project side env e shape) := by
  have hshaped : ∀ shape m t, Below m t → Infer.Confined cx.table m (cx.shaped shape t e.span >>= fun _ => pure t)
      (cx'.shaped shape t e.span >>= fun _ => pure t) := by
    intro shape m t ht
    exact (h.shaped shape t e.span).bind fun k hk _ _ => .pure (ht.mono hk)
  cases side with
  | value =>
    refine (h.value henv e).bind fun m _ t ht => ?_
    cases shape with
    | some shape => exact hshaped shape m t ht
    | none => exact .pure ht
  | type =>
    refine (h.type henv e).bind fun m _ t ht => ?_
    cases shape with
    | some shape => exact hshaped shape m t ht
    | none => exact .pure ht

end

end Context.Confined

/-! ## Inference however bound variables are treated -/

namespace Context

/-- the context of inferences where `settle` decides what becomes of a variable that is to be bound -/
def settling (settle : Store → VarId → Ty → Option Store) (table : SymbolTable) (infer : Env → Expr → Infer Denotation) :
    Context :=
  { table, infer, unify := Store.reconcile settle }

end Context

/-- what an expression denotes, where `settle` decides what becomes of a variable that is to be bound -/
def inferSettling (settle : Store → VarId → Ty → Option Store) : (depth : Nat) → SymbolTable → Env → Expr → Infer Denotation
  | 0, _, _, _ => Infer.tooDeep
  | depth + 1, table, env, e => (Context.settling settle table (inferSettling settle depth table)).rule env e

/-- the type of a value or a denoted type, where `settle` decides what becomes of a variable that is to be bound -/
def projectSettling (settle : Store → VarId → Ty → Option Store) (depth : Nat) (table : SymbolTable) (side : Side)
    (env : Env) (e : Expr) (shape : Option Shape) : Infer Ty :=
  (Context.settling settle table (inferSettling settle depth table)).project side env e shape

section

variable {settle : Store → VarId → Ty → Option Store} (hset : Store.AssignsUnbound settle)

include hset

theorem Context.Confined.settling {table : SymbolTable} {infer infer' : Env → Expr → Infer Denotation}
    (hinfer : ∀ {n env}, Below n env → ∀ e, Infer.Confined table n (infer env e) (infer' env e)) :
    Context.Confined { table, infer } (.settling settle table infer') where
  table := rfl
  infer := hinfer
  remember := rfl
  remember' := rfl
  unify hab := ⟨Store.reconcile_eq_unify hset hab.wellFormed hab.left hab.right,
    fun _ => Store.unify_grows hab.wellFormed hab.left hab.right⟩

/-- Inference is confined, and comes out the same however bound variables are treated where they would be bound. -/
theorem infer_confined (depth : Nat) (table : SymbolTable) {n : Nat} {env : Env} (henv : Below n env) (e : Expr) :
    Infer.Confined table n (inferWithin depth table env e) (inferSettling settle depth table env e) := by
  induction depth generalizing n env e with
  | zero => exact fun st _ _ => ⟨rfl, nofun⟩
  | succ depth ih => exact (Context.Confined.settling hset fun henv e => ih henv e).rule henv e

theorem project_confined (depth : Nat) (table : SymbolTable) (side : Side) {n : Nat} {env : Env} (henv : Below n env)
    (e : Expr) (shape : Option Shape) :
    Infer.Confined table n (projectWithin depth table side env e shape)
      (projectSettling settle depth table side env e shape) :=
  (Context.Confined.settling hset fun henv e => infer_confined hset depth table henv e).project henv side e shape

end

end DualInference
