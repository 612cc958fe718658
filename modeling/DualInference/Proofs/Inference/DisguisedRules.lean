/-
Every rule works in disguise.

Two contexts are given, the second on a table that is the table of the first in disguise, and the inferences of the
second follow those of the first (`Context.Mirrors`). Then its rules follow the rules of the first (`Context.Mirrors.rule`),
one function after the other, in the order of the rules. Where a rule turns to the home of a declaration, the environments
agree on the names that the declaration mentions, because the tables do (`Context.Mirrors.home`).

So inference at any depth follows inference at that depth (`infer_follows`, `project_follows`).
-/
import DualInference.Proofs.Inference.Disguise

namespace DualInference

open Disguised (disguise)

/-- the second context does in disguise what the first one does -/
structure Context.Mirrors (δ : Disguise) (cx cx' : Context) : Prop where
  table : cx.table.Agrees δ cx'.table
  infer : ∀ {env env' e}, Env.Agrees δ cx.table cx'.table e.names env env' →
    Infer.Follows δ (cx.infer env e) (cx'.infer env' (e.under δ))
  remember : cx.remember = Infer.memoized Infer.start
  remember' : cx'.remember = Infer.memoized Infer.start
  unify : cx.unify = Store.unify
  unify' : cx'.unify = Store.unify

/-! ## Views -/

/-- a view that takes disguised types apart as it does the types themselves, and visible ones into visible parts -/
def Ty.SeesUnder {β : Type} [HasVars β] (δ : Disguise) (φ : β → β) (look : Ty → Option β) : Prop :=
  ∀ t, look (t.under δ) = (look t).map φ ∧ (Visible δ t → ∀ b, look t = some b → Visible δ b)

section

variable {δ : Disguise}

theorem seesUnder_element : Ty.SeesUnder δ (Ty.under δ) Ty.element? := by
  intro t
  cases t with
  | wrap w t =>
    cases w with
    | ref => exact ⟨rfl, fun _ b hb => by cases hb⟩
    | _ => exact ⟨rfl, fun ht b hb => by cases hb; exact ht⟩
  | _ => exact ⟨rfl, fun _ b hb => by cases hb⟩

theorem seesUnder_pointee : Ty.SeesUnder δ (Ty.under δ) Ty.pointee? := by
  intro t
  cases t with
  | wrap w t =>
    cases w with
    | ref => exact ⟨rfl, fun ht b hb => by cases hb; exact ht⟩
    | _ => exact ⟨rfl, fun _ b hb => by cases hb⟩
  | _ => exact ⟨rfl, fun _ b hb => by cases hb⟩

theorem seesUnder_parts : Ty.SeesUnder δ (disguise δ) Ty.parts? := by
  intro t
  cases t with
  | compound f ts =>
    cases f with
    | tuple =>
      refine ⟨congrArg some (Ty.underList_eq_map δ ts), fun ht b hb => ?_⟩
      cases hb
      exact visible_compound.1 ht
    | aggregate kind id => exact ⟨rfl, fun _ b hb => by cases hb⟩
  | _ => exact ⟨rfl, fun _ b hb => by cases hb⟩

theorem seesUnder_aggregate : Ty.SeesUnder δ (Prod.map δ.symbol (disguise δ)) Ty.aggregate? := by
  intro t
  cases t with
  | compound f ts =>
    cases f with
    | aggregate kind id =>
      refine ⟨congrArg (fun us => some (δ.symbol id, us)) (Ty.underList_eq_map δ ts), fun ht b hb => ?_⟩
      cases hb
      exact visible_pair.2 ⟨nofun, visible_compound.1 ht⟩
    | tuple => exact ⟨rfl, fun _ b hb => by cases hb⟩
  | _ => exact ⟨rfl, fun _ b hb => by cases hb⟩

theorem Shape.fits_under (shape : Shape) (t : Ty) : shape.fits (t.under δ) = shape.fits t := by
  cases t with
  | wrap w t => cases w <;> cases shape <;> rfl
  | compound f ts =>
    cases f with
    | aggregate kind id => cases kind <;> cases shape <;> rfl
    | tuple => cases shape <;> rfl
  | _ => cases shape <;> rfl

theorem Ty.under_eq_scalar (t : Ty) (s : Scalar) : t.under δ = .scalar s ↔ t = .scalar s := by
  cases t <;> simp [Ty.under]

end

namespace Context.Mirrors

open Infer

variable {δ : Disguise} {cx cx' : Context} (h : cx.Mirrors δ cx') {α : Type} [HasVars α] [Disguised α] {env env' : Env}

include h

/-! ## Demands on types -/

theorem display (t : Ty) : Follows δ (cx.display t) (cx'.display (t.under δ)) := by
  unfold Context.display
  refine .store fun s _ => ?_
  rw [s.display_under h.table.name]
  exact .pure nofun

theorem invalidType (t : Ty) (span : Span) :
    Follows δ (cx.invalidType (α := α) t span) (cx'.invalidType (t.under δ) (δ.span span)) :=
  (h.display t).bind fun _ _ => .fail _ _

theorem mismatch (t u : Ty) (span : Span) :
    Follows δ (cx.mismatch (α := α) t u span) (cx'.mismatch (t.under δ) (u.under δ) (δ.span span)) :=
  (h.display t).bind fun _ _ => (h.display u).bind fun _ _ => .fail _ _

/-- A type is taken apart into parts that the computation goes on with. -/
theorem view {β : Type} [HasVars β] {φ : β → β} {look : Ty → Option β} (hlook : Ty.SeesUnder δ φ look) {t : Ty}
    (ht : Visible δ t) (span : Span) {f f' : β → Infer α} (hf : ∀ b, Visible δ b → Follows δ (f b) (f' (φ b))) :
    Follows δ (cx.view look t span >>= f) (cx'.view look (t.under δ) (δ.span span) >>= f') := by
  intro st hst
  obtain ⟨heq, hvisible⟩ := hlook (st.store.prune t)
  rw [← Store.prune_under] at heq
  cases hl : look (st.store.prune t) with
  | some b =>
    rw [hl] at heq
    rw [bind_of_ok (Context.view_of_some hl), bind_of_ok (Context.view_of_some heq)]
    exact hf b (hvisible (hst.store.prune ht) b hl) st hst
  | none =>
    rw [hl] at heq
    rw [bind_apply, bind_apply, Context.view_of_none hl, Context.view_of_none heq]
    obtain ⟨hsame, hend⟩ := h.invalidType (α := α) t span st hst
    exact ⟨hsame, hend⟩

theorem shaped (shape : Shape) (t : Ty) (span : Span) :
    Follows δ (cx.shaped shape t span) (cx'.shaped shape (t.under δ) (δ.span span)) := by
  refine .store fun s _ => ?_
  unfold Store.hasShape
  rw [s.prune_under, Shape.fits_under]
  split
  · exact .pure nofun
  · exact h.invalidType t span

theorem same {t u : Ty} (ht : Visible δ t) (hu : Visible δ u) (span : Span) :
    Follows δ (cx.same t u span) (cx'.same (t.under δ) (u.under δ) (δ.span span)) := by
  refine .store fun s hs => ?_
  rw [Store.equal_under hs ht hu]
  split
  · exact .pure nofun
  · exact h.mismatch t u span

theorem unified {t u : Ty} (ht : Visible δ t) (hu : Visible δ u) (span : Span) :
    Follows δ (cx.unified t u span) (cx'.unified (t.under δ) (u.under δ) (δ.span span)) := by
  intro st hst
  obtain ⟨heq, hhides⟩ := Store.unify_under hst.store ht hu
  have hunify : cx'.unify (st.under δ).store (t.under δ) (u.under δ) = (st.store.unify t u).map (·.under δ) := by
    rw [h.unify']
    exact heq
  cases hs : st.store.unify t u with
  | some s =>
    have hunify₁ : cx.unify st.store t u = some s := by rw [h.unify, hs]
    rw [hs] at hunify
    rw [Context.unified_of_some hunify₁, Context.unified_of_some hunify]
    refine ⟨rfl, fun r st' hr => ?_⟩
    cases hr
    exact ⟨⟨hhides s hs, hst.answers⟩, nofun⟩
  | none =>
    have hunify₁ : cx.unify st.store t u = none := by rw [h.unify, hs]
    rw [hs] at hunify
    rw [Context.unified_of_none hunify₁, Context.unified_of_none hunify]
    exact h.mismatch t u span st hst

/-! ## Demands on the program text -/

/-- The home of a declaration, read behind a frame, is seen in the same way by what the declaration mentions. -/
theorem home (origin : Origin) {kind : SymbolKind}
    (hsymbol : cx.table.symbol? origin.id = some ⟨origin.name, origin.home, kind⟩) (span : Span) {f f' : Env → Infer α}
    (hf : (∀ locals : Frame, Visible δ locals → Env.Agrees δ cx.table cx'.table kind.usedNames
      ⟨locals, origin.home⟩ ⟨disguise δ locals, origin.home⟩) →
      Follows δ (f { scope := origin.home }) (f' { scope := origin.home })) :
    Follows δ (cx.home origin span >>= f) (cx'.home (origin.under δ) (δ.span span) >>= f') := by
  have hname : (origin.under δ).name = origin.name := rfl
  have hscope : (origin.under δ).home = origin.home := rfl
  unfold Context.home
  rw [hscope, hname, h.table.alive]
  split
  · exact hf fun locals hlocals => h.table.env (h.table.inside hsymbol) hlocals
  · exact fun st hst => Infer.Follows.fail (α := α) _ span st hst

omit h in
/-- What a name means is the same in disguise. -/
theorem meaning {name : Ident} (henv : Env.Agrees δ cx.table cx'.table [name.name] env env') {f f' : Meaning → Infer α}
    (hf : ∀ m, env.meaning? cx.table name.name = some m → Visible δ m → Follows δ (f m) (f' (m.under δ))) :
    Follows δ (cx.meaning env name >>= f) (cx'.meaning env' (name.under δ) >>= f') := by
  obtain ⟨heq, hvisible⟩ := henv name.name (by simp)
  have hname : (name.under δ).name = name.name := rfl
  unfold Context.meaning
  rw [hname, heq]
  cases hm : env.meaning? cx.table name.name with
  | some m => exact hf m hm (hvisible m hm)
  | none => exact fun st hst => Infer.Follows.fail (α := α) _ name.span st hst

/-! ## Demands on expressions -/

theorem value {e : Expr} (henv : Env.Agrees δ cx.table cx'.table e.names env env') :
    Follows δ (cx.value env e) (cx'.value env' (e.under δ)) := by
  refine (h.infer henv).bind fun d hd => ?_
  cases d with
  | value t => exact .pure hd
  | type t =>
    have hfail := Infer.Follows.fail (δ := δ) (α := Ty) .valueExpected e.span
    rwa [← Expr.span_under] at hfail

theorem type {e : Expr} (henv : Env.Agrees δ cx.table cx'.table e.names env env') :
    Follows δ (cx.type env e) (cx'.type env' (e.under δ)) := by
  refine (h.infer henv).bind fun d hd => ?_
  cases d with
  | value t =>
    have hfail := Infer.Follows.fail (δ := δ) (α := Ty) .typeExpected e.span
    rwa [← Expr.span_under] at hfail
  | type t => exact .pure hd

theorem denotations {es : List Expr} (henv : Env.Agrees δ cx.table cx'.table (Expr.namesList es) env env') :
    Follows δ (cx.denotations env es) (cx'.denotations env' (Expr.underList δ es)) := by
  induction es with
  | nil => exact .pure nofun
  | cons e es ih =>
    refine (h.infer henv.left).bind fun d hd => ?_
    exact (ih henv.right).bind fun ds hds => .pure (visible_cons.2 ⟨hd, hds⟩)

theorem values {es : List Expr} (henv : Env.Agrees δ cx.table cx'.table (Expr.namesList es) env env') :
    Follows δ (cx.values env es) (cx'.values env' (Expr.underList δ es)) := by
  induction es with
  | nil => exact .pure nofun
  | cons e es ih =>
    refine (h.value henv.left).bind fun t ht => ?_
    exact (ih henv.right).bind fun ts hts => .pure (visible_cons.2 ⟨ht, hts⟩)

theorem types {es : List Expr} (henv : Env.Agrees δ cx.table cx'.table (Expr.namesList es) env env') :
    Follows δ (cx.types env es) (cx'.types env' (Expr.underList δ es)) := by
  induction es with
  | nil => exact .pure nofun
  | cons e es ih =>
    refine (h.type henv.left).bind fun t ht => ?_
    exact (ih henv.right).bind fun ts hts => .pure (visible_cons.2 ⟨ht, hts⟩)

/-! ## Aggregates -/

theorem fieldsIn {fs : List Field} (henv : Env.Agrees δ cx.table cx'.table (fs.flatMap (·.type.names)) env env') :
    Follows δ (cx.fieldsIn env fs) (cx'.fieldsIn env' (fs.map (·.under δ))) := by
  induction fs with
  | nil => exact .pure nofun
  | cons f fs ih =>
    rw [List.flatMap_cons] at henv
    refine (h.type henv.left).bind fun t ht => ?_
    exact (ih henv.right).bind fun ts hts => .pure (visible_cons.2 ⟨visible_pair.2 ⟨nofun, ht⟩, hts⟩)

theorem fieldTypes {t : Ty} (ht : Visible δ t) (span : Span) :
    Follows δ (cx.fieldTypes t span) (cx'.fieldTypes (t.under δ) (δ.span span)) := by
  refine h.view seesUnder_aggregate ht span fun p hp => ?_
  obtain ⟨id, params⟩ := p
  have hmeaning := h.table.meaning id
  unfold SymbolTable.meaning? at hmeaning
  dsimp only [Prod.map_apply]
  rw [hmeaning]
  cases hsymbol : cx.table.symbol? id with
  | none => exact h.invalidType t span
  | some symbol =>
    obtain ⟨name, home, kind⟩ := symbol
    cases kind with
    | aggregate kind d =>
      refine h.home ⟨id, name, home⟩ hsymbol span fun henv => ?_
      have hparams := (visible_pair.1 hp).2
      have hlift := Infer.Follows.lift (δ := δ) (x := Frame.ofTypeVars d.typeVars params) fun _ =>
        Frame.visible_ofTypeVars hparams
      rw [← Frame.ofTypeVars_under] at hlift
      exact hlift.bind fun locals hlocals => h.fieldsIn (henv locals hlocals)
    | _ => exact h.invalidType t span

theorem field {base : Expr} (henv : Env.Agrees δ cx.table cx'.table base.names env env') (name : Ident) :
    Follows δ (cx.field env base name) (cx'.field env' (base.under δ) (name.under δ)) := by
  refine (h.value henv).bind fun t ht => ?_
  rw [Expr.span_under]
  refine (h.fieldTypes ht base.span).bind fun fields hfields => ?_
  have hname : (name.under δ).name = name.name := rfl
  rw [hname, lookup_under]
  cases hl : fields.lookup name.name with
  | some u =>
    have hu : Visible δ u := visible_lookup hfields hl
    exact .pure hu
  | none => exact .fail _ _

theorem unifyFields {fieldEnv fieldEnv' : Env} {fs : List Field} {args : List Expr}
    (hfield : Env.Agrees δ cx.table cx'.table (fs.flatMap (·.type.names)) fieldEnv fieldEnv')
    (henv : Env.Agrees δ cx.table cx'.table (Expr.namesList args) env env') :
    Follows δ (cx.unifyFields fieldEnv env fs args)
      (cx'.unifyFields fieldEnv' env' (fs.map (·.under δ)) (Expr.underList δ args)) := by
  induction fs generalizing args with
  | nil => exact .pure nofun
  | cons f fs ih =>
    cases args with
    | nil => exact .pure nofun
    | cons arg args =>
      rw [List.flatMap_cons] at hfield
      refine (h.type hfield.left).bind fun formal hformal => (h.value henv.left).bind fun actual hactual => ?_
      rw [Expr.span_under]
      exact (h.unified hformal hactual arg.span).bind fun _ _ => ih hfield.right henv.right

/-- Fresh variables in front of the home of a declaration. -/
theorem opened {origin : Origin} {kind : SymbolKind}
    (hsymbol : cx.table.symbol? origin.id = some ⟨origin.name, origin.home, kind⟩) (span : Span) (names : List Ident)
    {f f' : Env → List Ty → Frame → Infer α}
    (hf : (∀ locals : Frame, Visible δ locals → Env.Agrees δ cx.table cx'.table kind.usedNames
      ⟨locals, origin.home⟩ ⟨disguise δ locals, origin.home⟩) → ∀ (vars : List Ty) (locals : Frame), Visible δ vars →
      Visible δ locals → Follows δ (f { scope := origin.home } vars locals)
        (f' { scope := origin.home } (disguise δ vars) (disguise δ locals))) :
    Follows δ
      (cx.home origin span >>= fun home => freshVars names >>= fun vars =>
        Infer.lift (Frame.ofTypeVars names vars) >>= fun locals => f home vars locals)
      (cx'.home (origin.under δ) (δ.span span) >>= fun home => freshVars (names.map (·.under δ)) >>= fun vars =>
        Infer.lift (Frame.ofTypeVars (names.map (·.under δ)) vars) >>= fun locals => f' home vars locals) := by
  refine h.home origin hsymbol span fun henv => (Infer.Follows.freshVars names).bind fun vars hvars => ?_
  have hlift := Infer.Follows.lift (δ := δ) (x := Frame.ofTypeVars names vars) fun _ => Frame.visible_ofTypeVars hvars
  rw [← Frame.ofTypeVars_under] at hlift
  exact hlift.bind fun locals hlocals => hf henv vars locals hvars hlocals

theorem construct {origin : Origin} {kind : AggregateKind} {d : Aggregate}
    (hsymbol : cx.table.symbol? origin.id = some ⟨origin.name, origin.home, .aggregate kind d⟩) (span : Span)
    {args : List Expr} (henv : Env.Agrees δ cx.table cx'.table (Expr.namesList args) env env') :
    Follows δ (cx.construct origin kind d span env args)
      (cx'.construct (origin.under δ) kind (d.under δ) (δ.span span) env' (Expr.underList δ args)) := by
  refine (Infer.Follows.arity _ (List.length_map _) (Expr.length_underList args) span).bind fun _ _ => ?_
  refine h.opened hsymbol span d.typeVars fun hhome vars locals _ hlocals => ?_
  refine (h.unifyFields (hhome locals hlocals) henv).bind fun _ _ => ?_
  refine (Infer.Follows.solution span d.typeVars vars).bind fun params hparams => ?_
  have hty : Ty.aggregate kind (δ.symbol origin.id) (disguise δ params) =
      (Ty.aggregate kind origin.id params).under δ := congrArg _ (Ty.underList_eq_map δ params).symm
  have hvisible : Visible δ (.value (.aggregate kind origin.id params) : Denotation) := visible_compound.2 hparams
  have hpure := Infer.Follows.pure hvisible
  rw [show disguise δ (.value (.aggregate kind origin.id params) : Denotation) =
    Denotation.value (.aggregate kind (δ.symbol origin.id) (disguise δ params)) from congrArg _ hty.symm] at hpure
  exact hpure

theorem compareFields {fields : List (String × Ty)} (hfields : Visible δ fields) {args : List Expr}
    (henv : Env.Agrees δ cx.table cx'.table (Expr.namesList args) env env') :
    Follows δ (cx.compareFields env fields args)
      (cx'.compareFields env' (disguise δ fields) (Expr.underList δ args)) := by
  induction fields generalizing args with
  | nil => exact .pure nofun
  | cons f fields ih =>
    cases args with
    | nil => exact .pure nofun
    | cons arg args =>
      obtain ⟨hf, hfields⟩ := visible_cons.1 hfields
      refine (h.value henv.left).bind fun actual hactual => ?_
      rw [Expr.span_under]
      exact (h.same (visible_pair.1 hf).2 hactual arg.span).bind fun _ _ => ih hfields henv.right

theorem callType (span : Span) {callee : Expr} {args : List Expr}
    (henv : Env.Agrees δ cx.table cx'.table (callee.names ++ Expr.namesList args) env env') :
    Follows δ (cx.callType span env callee args)
      (cx'.callType (δ.span span) env' (callee.under δ) (Expr.underList δ args)) := by
  refine (h.infer henv.left).bind fun d hd => .store fun s hs => ?_
  have hty : (d.under δ).ty = d.ty.under δ := by cases d <;> rfl
  have hd : Visible δ d.ty := hd
  have hprune := hs.prune hd
  simp only [disguise, hty, s.prune_under, Expr.span_under]
  refine (h.fieldTypes hprune callee.span).bind fun fields hfields => ?_
  refine (Infer.Follows.arity _ (List.length_map _) (Expr.length_underList args) span).bind fun _ _ => ?_
  exact (h.compareFields hfields henv.right).bind fun _ _ => .pure (a := Denotation.value (s.prune d.ty)) hprune

/-! ## Answers -/

theorem unifyFormals {formals : List Formal} {key : Key} (hkey : Visible δ key) {args : List Expr}
    (henv : Env.Agrees δ cx.table cx'.table (formals.flatMap (·.typeExpr.names)) env env') :
    Follows δ (cx.unifyFormals env formals key args)
      (cx'.unifyFormals env' (formals.map (·.under δ)) (disguise δ key) (Expr.underList δ args)) := by
  induction formals generalizing key args with
  | nil => exact .pure nofun
  | cons formal formals ih =>
    cases key with
    | nil => exact .pure nofun
    | cons actual key =>
      cases args with
      | nil => exact .pure nofun
      | cons arg args =>
        rw [List.flatMap_cons] at henv
        obtain ⟨hactual, hkey⟩ := visible_cons.1 hkey
        have hty : (actual.under δ).ty = actual.ty.under δ := by cases actual <;> rfl
        have hactual : Visible δ actual.ty := hactual
        simp only [Context.unifyFormals, disguise, List.map_cons, Expr.underList, Expr.span_under, hty,
          Formal.typeExpr_under]
        refine (Infer.Follows.accepted formal actual arg.span).bind fun _ _ => ?_
        refine (h.type henv.left).bind fun t ht => ?_
        exact (h.unified ht hactual arg.span).bind fun _ _ => ih hkey henv.right

theorem addParams {frame : Frame} (hframe : Visible δ frame) (formals : List Formal) (key : Key) :
    Follows δ (cx.addParams frame formals key)
      (cx'.addParams (disguise δ frame) (formals.map (·.under δ)) (disguise δ key)) := by
  induction formals generalizing frame key with
  | nil => exact .pure hframe
  | cons formal formals ih =>
    cases key with
    | nil => cases formal <;> exact .pure hframe
    | cons actual key =>
      cases formal with
      | type t => exact ih hframe key
      | value passing name type =>
        have hty : (actual.under δ).ty = actual.ty.under δ := by cases actual <;> rfl
        have hclosed := Infer.Follows.closed actual.ty (h.display actual.ty) name.span
        rw [← hty] at hclosed
        refine hclosed.bind fun t ht => ?_
        have hentry : Visible δ (LocalName.param (passing.paramType t)) := by cases passing <;> exact ht
        have hlift := Infer.Follows.lift (δ := δ) (x := frame.add name (.param (passing.paramType t))) fun _ =>
          Frame.visible_add hframe hentry
        have hparam : LocalName.under δ (.param (passing.paramType t)) = .param (passing.paramType (t.under δ)) := by
          cases passing <;> rfl
        rw [← Frame.add_under, hparam] at hlift
        exact hlift.bind fun frame' hframe' => ih hframe' key

theorem result {d : Procedure}
    (henv : Env.Agrees δ cx.table cx'.table (d.returnType.elim [] Expr.names ++ d.body.elim [] Expr.names) env env') :
    Follows δ (cx.result env d) (cx'.result env' (d.under δ)) := by
  unfold Context.result
  simp only [Procedure.under]
  cases hreturn : d.returnType with
  | some declared =>
    rw [hreturn] at henv
    exact h.type henv.left
  | none =>
    cases hbody : d.body with
    | some body =>
      rw [hbody] at henv
      exact h.value henv.right
    | none => exact .pure fun _ hv => by cases hv

theorem returnType {origin : Origin} {d : Procedure}
    (hsymbol : cx.table.symbol? origin.id = some ⟨origin.name, origin.home, .procedure d⟩) {key : Key}
    (hkey : Visible δ key) (args : List Expr) (span : Span) :
    Follows δ (cx.returnType origin d key args span)
      (cx'.returnType (origin.under δ) (d.under δ) (disguise δ key) (Expr.underList δ args) (δ.span span)) := by
  refine (Infer.Follows.arity _ (List.length_map _) (List.length_map _) span).bind fun _ _ => ?_
  refine h.opened hsymbol span d.typeVars fun hhome vars locals _ hlocals => ?_
  refine (h.unifyFormals hkey (hhome locals hlocals).left.left.left).bind fun _ _ => ?_
  refine (Infer.Follows.unconditional d.conditions).bind fun _ _ => ?_
  refine (Infer.Follows.solution span d.typeVars vars).bind fun types htypes => ?_
  have hlift := Infer.Follows.lift (δ := δ) (x := Frame.ofTypeVars d.typeVars types) fun _ =>
    Frame.visible_ofTypeVars htypes
  rw [← Frame.ofTypeVars_under] at hlift
  refine hlift.bind fun solved hsolved => ?_
  have hempty : Visible δ ([] : Frame) := nofun
  refine (h.addParams hempty d.formals key).bind fun params hparams => ?_
  have henv := hhome (params ++ solved) (visible_append.2 ⟨hparams, hsolved⟩)
  rw [show disguise δ (params ++ solved) = disguise δ params ++ disguise δ solved from List.map_append] at henv
  refine (h.result (henv.mono fun name hname => ?_)).bind fun t _ => Infer.Follows.closed t (h.display t) d.span
  simp only [SymbolKind.usedNames, Procedure.usedNames, List.mem_append] at hname ⊢
  rcases hname with hname | hname
  · exact .inl (.inr hname)
  · exact .inr hname

theorem callProcedure {origin : Origin} {d : Procedure}
    (hsymbol : cx.table.symbol? origin.id = some ⟨origin.name, origin.home, .procedure d⟩) (span : Span)
    {args : List Expr} (henv : Env.Agrees δ cx.table cx'.table (Expr.namesList args) env env') :
    Follows δ (cx.callProcedure origin d span env args)
      (cx'.callProcedure (origin.under δ) (d.under δ) (δ.span span) env' (Expr.underList δ args)) := by
  refine (h.denotations henv).bind fun key hkey => ?_
  rw [h.remember, h.remember']
  exact ((h.returnType hsymbol hkey args span).memoized origin.id key span).bind fun t ht =>
    .pure (a := Denotation.value t) ht

theorem globalType {origin : Origin} {d : Variables} {group : SymbolId} {position : Nat}
    (hsymbol : cx.table.symbol? origin.id = some ⟨origin.name, origin.home, .global d group position⟩) (span : Span) :
    Follows δ (cx.globalType origin d group position span)
      (cx'.globalType (origin.under δ) (d.under δ) (δ.symbol group) position (δ.span span)) := by
  refine h.home origin hsymbol span fun hhome => ?_
  have henv : Env.Agrees δ cx.table cx'.table d.usedNames { scope := origin.home } { scope := origin.home } :=
    hhome [] nofun
  have hannotated : (d.under δ).names[position]?.bind (·.type) =
      (d.names[position]?.bind (·.type)).map (·.under δ) := by
    simp only [Variables.under, List.getElem?_map]
    cases d.names[position]? <;> rfl
  rw [hannotated]
  cases hv : d.names[position]?.bind (·.type) with
  | some annotation =>
    obtain ⟨v, hget, htype⟩ := Option.bind_eq_some_iff.1 hv
    refine h.type (henv.mono fun name hname => ?_)
    refine List.mem_append_left _ (List.mem_flatMap.2 ⟨v, List.mem_of_getElem? hget, ?_⟩)
    rw [htype]
    exact hname
  | none =>
    have hinit : Follows δ (cx.initType { scope := origin.home } d group span)
        (cx'.initType { scope := origin.home } (d.under δ) (δ.symbol group) (δ.span span)) := by
      unfold Context.initType
      rw [h.remember, h.remember']
      exact (h.value henv.right).memoized group [] span
    have hlen : (d.under δ).names.length = d.names.length := List.length_map _
    have hspan : (d.under δ).init.span = δ.span d.init.span := Expr.span_under d.init
    refine hinit.bind fun t ht => ?_
    rw [hlen, hspan]
    split
    · exact .pure ht
    · refine h.view seesUnder_parts ht d.init.span fun parts hparts => ?_
      refine (Infer.Follows.arity _ rfl (List.length_map _) d.init.span).bind fun _ _ => ?_
      exact .part hparts position d.init.span

/-! ## Primitive operations -/

theorem operand {fits : Ty → Bool} (hfits : ∀ t : Ty, fits (t.under δ) = fits t) (expected : String) {e : Expr}
    (henv : Env.Agrees δ cx.table cx'.table e.names env env') :
    Follows δ (cx.operand env fits expected e) (cx'.operand env' fits expected (e.under δ)) := by
  refine (h.value henv).bind fun t ht => .store fun s _ => ?_
  rw [show disguise δ t = t.under δ from rfl, s.prune_under, hfits, Expr.span_under]
  split
  · exact .pure ht
  · exact (h.display t).bind fun _ _ => .fail _ _

theorem operands (s : Scalar) {es : List Expr} (henv : Env.Agrees δ cx.table cx'.table (Expr.namesList es) env env') :
    Follows δ (cx.operands env s es) (cx'.operands env' s (Expr.underList δ es)) := by
  induction es with
  | nil => exact .pure nofun
  | cons e es ih =>
    refine (h.operand (fun t => ?_) s.render henv.left).bind fun _ _ => ih henv.right
    exact decide_eq_decide.2 (Ty.under_eq_scalar t s)

theorem callPolymorphic (op : Operation) (span : Span) {args : List Expr}
    (henv : Env.Agrees δ cx.table cx'.table (Expr.namesList args) env env') :
    Follows δ (cx.callPolymorphic op span env args)
      (cx'.callPolymorphic op (δ.span span) env' (Expr.underList δ args)) := by
  have hint : ∀ t : Ty, decide (t.under δ = .int) = decide (t = .int) :=
    fun t => decide_eq_decide.2 (Ty.under_eq_scalar t .int)
  cases op with
  | default =>
    match args, henv with
    | [], _ => exact .fail _ _
    | [type], henv => exact h.type henv.left
    | _ :: _ :: _, _ => exact .wrongLength _ _ _ span
  | array =>
    match args, henv with
    | [], _ => exact .fail _ _
    | [_], _ => exact .fail _ _
    | [size, element], henv =>
      refine (h.operand hint "Int" henv.left).bind fun _ _ => ?_
      exact (h.value henv.right.left).bind fun t ht => .pure (a := Ty.array t) ht
    | _ :: _ :: _ :: _, _ => exact .wrongLength _ _ _ span
  | arraySize =>
    match args, henv with
    | [], _ => exact .fail _ _
    | [array], henv =>
      refine (h.operand (Shape.fits_under .array) "an array" henv.left).bind fun _ _ => ?_
      exact .pure (a := Ty.int) nofun
    | _ :: _ :: _, _ => exact .wrongLength _ _ _ span
  | arrayValue =>
    match args, henv with
    | [], _ => exact .fail _ _
    | [_], _ => exact .fail _ _
    | [size, element], henv =>
      refine (Infer.Follows.natLiteral size).bind fun n _ => ?_
      exact (h.value henv.right.left).bind fun t ht => .pure (a := Ty.arrayValue t n) ht
    | _ :: _ :: _ :: _, _ => exact .wrongLength _ _ _ span
  | scalar op => exact .fail _ _

theorem callPrimitive (op : Operation) (span : Span) {args : List Expr}
    (henv : Env.Agrees δ cx.table cx'.table (Expr.namesList args) env env') :
    Follows δ (cx.callPrimitive op span env args)
      (cx'.callPrimitive op (δ.span span) env' (Expr.underList δ args)) := by
  unfold Context.callPrimitive
  split
  · refine (Infer.Follows.arity _ rfl (Expr.length_underList args) span).bind fun _ _ => ?_
    exact (h.operands _ henv).bind fun _ _ => .pure (a := Ty.scalar _) nofun
  · exact h.callPolymorphic op span henv

/-! ## All expressions -/

theorem name {ident : Ident} (henv : Env.Agrees δ cx.table cx'.table [ident.name] env env') :
    Follows δ (cx.name env ident) (cx'.name env' (ident.under δ)) := by
  refine Mirrors.meaning henv fun m hm hvisible => ?_
  cases m with
  | typeVar t =>
    refine .store fun s hs => ?_
    have hderef : ((s.under δ).deref? (t.under δ)).getD (t.under δ) = ((s.deref? t).getD t).under δ := by
      rw [s.deref?_under]
      cases s.deref? t <;> rfl
    have hread : Visible δ ((s.deref? t).getD t) := by
      cases hd : s.deref? t with
      | some u => exact visible_closed (Store.vars_deref? hd)
      | none => exact hvisible
    have hpure := Infer.Follows.pure (a := Denotation.type ((s.deref? t).getD t)) hread
    rw [show disguise δ (.type ((s.deref? t).getD t) : Denotation) =
      .type (((s.under δ).deref? (t.under δ)).getD (t.under δ)) from congrArg _ hderef.symm] at hpure
    exact hpure
  | localVar t => exact .pure (a := Denotation.value t) hvisible
  | builtin b =>
    cases b with
    | scalar s => exact .pure (a := Denotation.type (.scalar s)) nofun
    | _ => exact .fail _ _
  | aggregate origin kind d =>
    have hnone : Visible δ ([] : List Ty) := nofun
    exact (Infer.Follows.instantiate origin kind d hnone ident.span).bind fun t ht =>
      .pure (a := Denotation.type t) ht
  | global origin d group position =>
    have hsymbol := Env.symbol?_of_meaning?_global hm
    exact (h.globalType hsymbol ident.span).bind fun t ht => .pure (a := Denotation.value t) ht
  | _ => exact .fail _ _

theorem arrayElement (span : Span) {base : Expr} {indexes : List Expr}
    (henv : Env.Agrees δ cx.table cx'.table (base.names ++ Expr.namesList indexes) env env') :
    Follows δ (cx.arrayElement span env base indexes)
      (cx'.arrayElement (δ.span span) env' (base.under δ) (Expr.underList δ indexes)) := by
  refine (h.value henv.left).bind fun t ht => ?_
  rw [Expr.span_under]
  refine h.view seesUnder_element ht base.span fun element helement => ?_
  match indexes, henv with
  | [], _ => exact .fail _ _
  | [index], henv =>
    refine (h.value henv.right.left).bind fun i _ => ?_
    rw [Expr.span_under]
    exact (h.shaped .int i index.span).bind fun _ _ => .pure (a := Denotation.value element) helement
  | _ :: _ :: _, _ => exact .wrongLength _ _ _ span

theorem typeParam (span : Span) {params : List Expr}
    (henv : Env.Agrees δ cx.table cx'.table (Expr.namesList params) env env') :
    Follows δ (cx.typeParam span env params) (cx'.typeParam (δ.span span) env' (Expr.underList δ params)) := by
  match params, henv with
  | [], _ => exact .fail _ _
  | [t], henv => exact h.type henv.left
  | _ :: _ :: _, _ => exact .wrongLength _ _ _ span

theorem arrayValueType (span : Span) {params : List Expr}
    (henv : Env.Agrees δ cx.table cx'.table (Expr.namesList params) env env') :
    Follows δ (cx.arrayValueType span env params)
      (cx'.arrayValueType (δ.span span) env' (Expr.underList δ params)) := by
  match params, henv with
  | [], _ => exact .fail _ _
  | [_], _ => exact .fail _ _
  | [element, size], henv =>
    refine (h.type henv.left).bind fun t ht => ?_
    exact (Infer.Follows.natLiteral size).bind fun n _ => .pure (a := Ty.arrayValue t n) ht
  | _ :: _ :: _ :: _, _ => exact .wrongLength _ _ _ span

theorem index (span : Span) {base : Expr} {indexes : List Expr}
    (henv : Env.Agrees δ cx.table cx'.table (base.names ++ Expr.namesList indexes) env env') :
    Follows δ (cx.index span env base indexes)
      (cx'.index (δ.span span) env' (base.under δ) (Expr.underList δ indexes)) := by
  have helement := h.arrayElement span henv
  cases base with
  | name span' ident =>
    refine Mirrors.meaning henv.left fun m hm _ => ?_
    cases m with
    | builtin b =>
      cases b with
      | scalar s => exact helement
      | array => exact (h.typeParam span henv.right).bind fun t ht => .pure (a := Denotation.type (.array t)) ht
      | arrayValue => exact (h.arrayValueType span henv.right).bind fun t ht => .pure (a := Denotation.type t) ht
      | ref => exact (h.typeParam span henv.right).bind fun t ht => .pure (a := Denotation.type (.ref t)) ht
    | aggregate origin kind d =>
      refine (h.types henv.right).bind fun params hparams => ?_
      exact (Infer.Follows.instantiate origin kind d hparams span).bind fun t ht => .pure (a := Denotation.type t) ht
    | _ => exact helement
  | _ => exact helement

theorem call (span : Span) {callee : Expr} {args : List Expr}
    (henv : Env.Agrees δ cx.table cx'.table (callee.names ++ Expr.namesList args) env env') :
    Follows δ (cx.call span env callee args)
      (cx'.call (δ.span span) env' (callee.under δ) (Expr.underList δ args)) := by
  have htype := h.callType span henv
  cases callee with
  | name span' ident =>
    refine Mirrors.meaning henv.left fun m hm _ => ?_
    cases m with
    | primitive op =>
      exact (h.callPrimitive op span henv.right).bind fun t ht => .pure (a := Denotation.value t) ht
    | aggregate origin kind d =>
      have hsymbol := Env.symbol?_of_meaning?_aggregate hm
      exact h.construct hsymbol span henv.right
    | procedure origin d =>
      have hsymbol := Env.symbol?_of_meaning?_procedure hm
      exact h.callProcedure hsymbol span henv.right
    | overloadable => exact .fail _ _
    | _ => exact htype
  | _ => exact htype

theorem sameElements {t : Ty} (ht : Visible δ t) {es : List Expr}
    (henv : Env.Agrees δ cx.table cx'.table (Expr.namesList es) env env') :
    Follows δ (cx.sameElements env t es) (cx'.sameElements env' (t.under δ) (Expr.underList δ es)) := by
  induction es with
  | nil => exact .pure nofun
  | cons e es ih =>
    refine (h.value henv.left).bind fun u hu => ?_
    rw [Expr.span_under]
    exact (h.same ht hu e.span).bind fun _ _ => ih henv.right

theorem arrayLiteral (span : Span) {es : List Expr}
    (henv : Env.Agrees δ cx.table cx'.table (Expr.namesList es) env env') :
    Follows δ (cx.arrayLiteral span env es) (cx'.arrayLiteral (δ.span span) env' (Expr.underList δ es)) := by
  cases es with
  | nil => exact .fail _ _
  | cons e es =>
    refine (h.value henv.left).bind fun t ht => (h.sameElements ht henv.right).bind fun _ _ => ?_
    rw [Expr.length_underList]
    exact .pure (a := Ty.arrayValue t (es.length + 1)) ht

/-- Every rule of the second context follows that rule of the first. -/
theorem rule {e : Expr} (henv : Env.Agrees δ cx.table cx'.table e.names env env') :
    Follows δ (cx.rule env e) (cx'.rule env' (e.under δ)) := by
  cases e with
  | addressOf span operand => exact (h.value (e := operand) henv).bind fun t ht => .pure (a := Denotation.value (.ref t)) ht
  | index span base indexes => exact h.index span henv
  | call span callee args => exact h.call span henv
  | field span base ident =>
    have hbase : Env.Agrees δ cx.table cx'.table base.names env env' := henv
    exact h.field hbase ident
  | element span base position =>
    refine (h.value (e := base) henv).bind fun t ht => ?_
    rw [Expr.span_under]
    refine h.view seesUnder_parts ht base.span fun parts hparts => ?_
    exact (Infer.Follows.part hparts position span).bind fun u hu => .pure (a := Denotation.value u) hu
  | pointee span base =>
    refine (h.value (e := base) henv).bind fun t ht => ?_
    rw [Expr.span_under]
    exact h.view seesUnder_pointee ht base.span fun u hu => .pure (a := Denotation.value u) hu
  | array span elements =>
    exact (h.arrayLiteral span henv).bind fun t ht => .pure (a := Denotation.value t) ht
  | tuple span elements =>
    refine (h.values henv).bind fun ts hts => ?_
    have hty : disguise δ (.value (.tuple ts) : Denotation) = .value (.tuple (disguise δ ts)) :=
      congrArg (fun us => Denotation.value (.tuple us)) (Ty.underList_eq_map δ ts)
    rw [← hty]
    have hvisible : Visible δ (Ty.tuple ts) := visible_compound.2 hts
    exact .pure hvisible
  | name span ident => exact h.name henv
  | bool span b => exact .pure (a := Denotation.value .bool) nofun
  | int span n => exact .pure (a := Denotation.value .int) nofun
  | char span c => exact .pure (a := Denotation.value .char) nofun

theorem project (side : Side) {e : Expr} (henv : Env.Agrees δ cx.table cx'.table e.names env env')
    (shape : Option Shape) :
    Follows δ (cx.project side env e shape) (cx'.project side env' (e.under δ) shape) := by
  have hshaped : ∀ (shape : Shape) (t : Ty), Visible δ t →
      Follows δ (cx.shaped shape t e.span >>= fun _ => pure t)
        (cx'.shaped shape (t.under δ) (e.under δ).span >>= fun _ => pure (t.under δ)) := by
    intro shape t ht
    rw [Expr.span_under]
    exact (h.shaped shape t e.span).bind fun _ _ => .pure ht
  cases side with
  | value =>
    refine (h.value henv).bind fun t ht => ?_
    cases shape with
    | some shape => exact hshaped shape t ht
    | none => exact .pure ht
  | type =>
    refine (h.type henv).bind fun t ht => ?_
    cases shape with
    | some shape => exact hshaped shape t ht
    | none => exact .pure ht

end Context.Mirrors

/-! ## Main result -/

section

variable {δ : Disguise} {tab tab' : SymbolTable} (htab : tab.Agrees δ tab') {env env' : Env} {e : Expr}

include htab

theorem mirrors_within (depth : Nat) : Context.Mirrors δ { table := tab, infer := inferWithin depth tab }
    { table := tab', infer := inferWithin depth tab' } := by
  induction depth with
  | zero => exact ⟨htab, fun _ => .tooDeep, rfl, rfl, rfl, rfl⟩
  | succ depth ih => exact ⟨htab, fun henv => ih.rule henv, rfl, rfl, rfl, rfl⟩

/-- Inference does in disguise what it does without. -/
theorem infer_follows (depth : Nat) (henv : Env.Agrees δ tab tab' e.names env env') :
    Infer.Follows δ (inferWithin depth tab env e) (inferWithin depth tab' env' (e.under δ)) :=
  (mirrors_within htab depth).infer henv

/-- So do projections. -/
theorem project_follows (depth : Nat) (side : Side) (henv : Env.Agrees δ tab tab' e.names env env')
    (shape : Option Shape) : Infer.Follows δ (projectWithin depth tab side env e shape)
      (projectWithin depth tab' side env' (e.under δ) shape) :=
  (mirrors_within htab depth).project side henv shape

end

end DualInference
