/-
The rules, side by side.

Two contexts on one table are given, and it is known that inference in the second goes along with inference in the first
(`Simulates`). Then every rule of the second goes along with that rule of the first (`Simulates.rule`): one comparison
for each function of which the rules consist, in the order of the rules.

Answers that may be kept are asked for by a `Demand`. How they are got at differs from context to context, so that they
go along with each other is taken as given by `Simulates.rule`; that the computations behind them do is
`Simulates.compute`.
-/
import DualInference.Proofs.Inference.Built
import DualInference.Proofs.Inference.Steps
import DualInference.Proofs.Module.Table

namespace DualInference

/-! ## Meanings -/

/-- the same declaration, or local names of types that are alike -/
inductive Meaning.Alike (tab : SymbolTable) (V : Pairing) : Meaning → Meaning → Prop
  | typeVar {t u : Ty} (h : t.Alike tab.Forms V u) : Alike tab V (.typeVar t) (.typeVar u)
  | localVar {t u : Ty} (h : t.Alike tab.Forms V u) : Alike tab V (.localVar t) (.localVar u)
  | symbol {id : SymbolId} {symbol : Symbol} (h : tab.symbol? id = some symbol) :
    Alike tab V (symbol.meaning id) (symbol.meaning id)

def Likeness.meaning (tab : SymbolTable) (lv : Level) : Likeness Meaning Meaning :=
  ⟨fun V => Meaning.Alike tab (lv.at V), fun hV h => by
    cases h with
    | typeVar h => exact .typeVar (h.mono (lv.at_mono hV))
    | localVar h => exact .localVar (h.mono (lv.at_mono hV))
    | symbol h => exact .symbol h⟩

theorem Env.meaning?_alike {tab : SymbolTable} {lv : Level} {V : Pairing} {env env' : Env}
    (h : (Likeness.env tab lv).rel V env env') (name : String) :
    Option.Rel ((Likeness.meaning tab lv).rel V) (env.meaning? tab name) (env'.meaning? tab name) := by
  unfold Env.meaning?
  rcases Ty.rel_cases (Likeness.lookup h.1 name) with ⟨hl, hl'⟩ | ⟨a, b, hl, hl', hab⟩
  · rw [hl, hl', ← h.2]
    cases hid : tab.lookup env.scope name with
    | none => exact .none
    | some id =>
      cases hsym : tab.symbol? id with
      | none =>
        simp only [Option.bind_eq_bind, Option.bind_some, hsym, Option.bind_none]
        exact .none
      | some symbol =>
        simp only [Option.bind_eq_bind, Option.bind_some, hsym]
        exact .some (.symbol hsym)
  · rw [hl, hl']
    cases hab with
    | typeVar hab => exact .some (.typeVar hab)
    | param hab => exact .some (.localVar hab)

/-! ## Demands for answers -/

/-- a demand about a symbol as it is declared; its key has a part for each argument -/
def Demand.Proper (tab : SymbolTable) (key : Key) : Demand → Prop
  | .call origin d args _ =>
    tab.symbol? origin.id = some ⟨origin.name, origin.home, .procedure d⟩ ∧ args.length = key.length
  | .initializer home d group _ =>
    (∃ name position, tab.symbol? group = some ⟨name, home, .global d group position⟩) ∧ key = []

/-! ## Comparing contexts -/

/-- Inference in the second context goes along with inference in the first. Types are compared at all levels, values only
where the setting allows it. -/
structure Setting.Simulates (S : Setting) (cx cx' : Context) : Prop where
  left : cx.table = S.table
  right : cx'.table = S.table
  leftUnify : cx.unify = Store.unify
  rightUnify : cx'.unify = Store.unify
  infer : ∀ {lv}, S.Allows lv → ∀ {V env env'}, (Likeness.env S.table lv).rel V env env' → ∀ e,
    S.Sim V (.denoted S.table lv) (cx.infer env e) (cx'.infer env' e)
  type : ∀ {lv V env env'}, (Likeness.env S.table lv).rel V env env' → ∀ e,
    S.Sim V (.ty S.table lv) (cx.type env e) (cx'.type env' e)

/-- answers in the second context go along with answers in the first -/
def Setting.Answers (S : Setting) (cx cx' : Context) : Prop :=
  ∀ {lv}, S.Allows lv → ∀ {V} {key key' : Key}, (Likeness.denoted S.table lv).list.rel V key key' → ∀ {q : Demand},
    q.Proper S.table key → q.Proper S.table key' → S.Sim V (.ty S.table .closed) (cx.answer q key) (cx'.answer q key')

namespace Setting.Simulates

open Infer Setting

variable {S : Setting} {cx cx' : Context} (h : S.Simulates cx cx') {lv : Level} (hlv : S.Allows lv) {V : Pairing}
  {env env' : Env} (henv : (Likeness.env S.table lv).rel V env env')

include h

/-! ### Demands on expressions -/

section

include henv

theorem types (es : List Expr) :
    S.Sim V ((Likeness.ty S.table lv).vector es.length) (cx.types env es) (cx'.types env' es) := by
  induction es generalizing V with
  | nil => exact .pure ⟨rfl, .nil⟩
  | cons e es ih =>
    refine (h.type henv e).bind fun V₁ hV t u htu => ?_
    refine (ih (Likeness.mono _ hV henv)).bind fun V₂ hV' ts us hts => .pure ⟨?_, .cons ?_ hts.2⟩
    · rw [List.length_cons, hts.1, List.length_cons]
    · exact (Likeness.ty S.table lv).mono hV' htu

include hlv

theorem value (e : Expr) : S.Sim V (.ty S.table lv) (cx.value env e) (cx'.value env' e) := by
  refine (h.infer hlv henv e).bind fun V₁ _ d d' hd => ?_
  cases hd with
  | value hd => exact .pure hd
  | type hd => exact .fail fun _ => ⟨.same _, rfl⟩

theorem values (es : List Expr) : S.Sim V (Likeness.ty S.table lv).list (cx.values env es) (cx'.values env' es) := by
  induction es generalizing V with
  | nil => exact .pure .nil
  | cons e es ih =>
    refine (h.value hlv henv e).bind fun V₁ hV t u htu => ?_
    refine (ih (Likeness.mono _ hV henv)).bind fun V₂ hV' ts us hts => .pure (.cons ?_ hts)
    exact (Likeness.ty S.table lv).mono hV' htu

theorem denotations (es : List Expr) :
    S.Sim V ((Likeness.denoted S.table lv).vector es.length) (cx.denotations env es) (cx'.denotations env' es) := by
  induction es generalizing V with
  | nil => exact .pure ⟨rfl, .nil⟩
  | cons e es ih =>
    refine (h.infer hlv henv e).bind fun V₁ hV d d' hd => ?_
    refine (ih (Likeness.mono _ hV henv)).bind fun V₂ hV' ds ds' hds => .pure ⟨?_, .cons ?_ hds.2⟩
    · rw [List.length_cons, hds.1, List.length_cons]
    · exact (Likeness.denoted S.table lv).mono hV' hd

end

/-! ### Aggregates -/

theorem fieldsIn (henv : (Likeness.env S.table lv).rel V env env') (fs : List Field) :
    S.Sim V (Likeness.same.pair (Likeness.ty S.table lv)).list (cx.fieldsIn env fs) (cx'.fieldsIn env' fs) := by
  induction fs generalizing V with
  | nil => exact .pure .nil
  | cons f fs ih =>
    refine (h.type henv f.type).bind fun V₁ hV t u htu => ?_
    refine (ih (Likeness.mono _ hV henv)).bind fun V₂ hV' ts us hts => .pure (.cons ⟨rfl, ?_⟩ hts)
    exact (Likeness.ty S.table lv).mono hV' htu

theorem fieldTypes {t u : Ty} (ht : (Likeness.ty S.table lv).rel V t u) (span : Span) :
    S.Sim V (Likeness.same.pair (Likeness.ty S.table lv)).list (cx.fieldTypes t span) (cx'.fieldTypes u span) := by
  refine (Sim.view h.left h.right (sees_aggregate S.table lv) ht span).bind fun V₁ hV p q hpq => ?_
  obtain ⟨id, params⟩ := p
  obtain ⟨id', params'⟩ := q
  obtain ⟨rfl, hparams⟩ : id = id' ∧ _ := hpq
  dsimp only
  rw [h.left, h.right]
  split
  · rename_i origin _ d _
    refine (Sim.home h.left h.right origin fun _ => rfl).bind fun V₂ hV' home home' hhome => ?_
    obtain ⟨rfl, rfl⟩ := hhome
    have hframe := Frame.ofTypeVars_alike d.typeVars ((Likeness.ty S.table lv).list.mono hV' hparams)
    exact (Sim.lift hframe).bind fun V₃ _ frame frame' hframe => h.fieldsIn (Env.mk_alike hframe _) d.fields
  · exact (Sim.invalidType h.left h.right ht span).mono hV

omit h in
theorem instantiate {origin : Origin} {kind : AggregateKind} {d : Aggregate}
    (hsym : S.table.symbol? origin.id = some ⟨origin.name, origin.home, .aggregate kind d⟩) {params params' : List Ty}
    (hparams : (Likeness.ty S.table lv).list.rel V params params') (span : Span) :
    S.Sim V (.ty S.table lv) (instantiate origin kind d params span) (instantiate origin kind d params' span) := by
  refine (Sim.arity _ rfl hparams.length_eq fun _ => rfl).bind fun V₁ hV₁ _ _ hlen => ?_
  exact .pure (.compound _ ⟨origin.name, origin.home, d, hsym, hlen.symm⟩ (Likeness.mono _ hV₁ hparams))

include hlv

theorem compareFields (henv : (Likeness.env S.table lv).rel V env env') {fields fields' : List (String × Ty)}
    (hfields : (Likeness.same.pair (Likeness.ty S.table lv)).list.rel V fields fields') (args : List Expr) :
    S.Sim V .same (cx.compareFields env fields args) (cx'.compareFields env' fields' args) := by
  induction args generalizing V fields fields' with
  | nil =>
    cases hfields with
    | nil => exact .pure rfl
    | cons _ _ => exact .pure rfl
  | cons arg args ih =>
    cases hfields with
    | nil => exact .pure rfl
    | @cons p q fields fields' hpq hrest =>
      refine (h.value hlv henv arg).bind fun V₁ hV t u htu => ?_
      have hfield := (Likeness.ty S.table lv).mono hV hpq.2
      refine (Sim.same h.left h.right hfield htu arg.span).bind fun V₂ hV' _ _ _ => ?_
      exact ih (Likeness.mono _ (hV.trans hV') henv) (Likeness.mono _ (hV.trans hV') hrest)

theorem unifyFields {fieldEnv fieldEnv' : Env} (hfield : (Likeness.env S.table .free).rel V fieldEnv fieldEnv')
    (henv : (Likeness.env S.table lv).rel V env env') (fs : List Field) (args : List Expr) :
    S.Sim V .same (cx.unifyFields fieldEnv env fs args) (cx'.unifyFields fieldEnv' env' fs args) := by
  induction fs generalizing V args with
  | nil => exact .pure rfl
  | cons f fs ih =>
    cases args with
    | nil => exact .pure rfl
    | cons arg args =>
      refine (h.type hfield f.type).bind fun V₁ hV t u htu => ?_
      refine (h.value hlv (Likeness.mono _ hV henv) arg).bind fun V₂ hV' a b hab => ?_
      have htu' := (Likeness.ty S.table .free).mono hV' htu
      have hab' := hab.mono (lv.at_le V₂)
      refine (Sim.unified h.left h.right h.leftUnify h.rightUnify htu' hab' fun _ => rfl).bind fun V₃ hV'' _ _ _ => ?_
      have hle := hV.trans (hV'.trans hV'')
      exact ih (Likeness.mono _ hle hfield) (Likeness.mono _ hle henv) args

theorem construct {origin : Origin} {kind : AggregateKind} {d : Aggregate}
    (hsym : S.table.symbol? origin.id = some ⟨origin.name, origin.home, .aggregate kind d⟩) (span : Span)
    (henv : (Likeness.env S.table lv).rel V env env') (args : List Expr) :
    S.Sim V (.denoted S.table lv) (cx.construct origin kind d span env args)
      (cx'.construct origin kind d span env' args) := by
  refine (Sim.arity _ rfl rfl fun _ => rfl).bind fun V₁ hV₁ _ _ _ => ?_
  refine (Sim.home h.left h.right origin fun _ => rfl).bind fun V₂ hV₂ home home' hhome => ?_
  obtain ⟨rfl, rfl⟩ := hhome
  refine (Sim.freshVars d.typeVars).bind fun V₃ hV₃ vars vars' hvars => ?_
  refine (Sim.lift (Frame.ofTypeVars_alike d.typeVars hvars.2)).bind fun V₄ hV₄ frame frame' hframe => ?_
  have hle := hV₁.trans (hV₂.trans (hV₃.trans hV₄))
  refine (h.unifyFields hlv (Env.mk_alike hframe _) (Likeness.mono _ hle henv) d.fields args).bind fun V₅ hV₅ _ _ _ => ?_
  have hvars' := ((Likeness.ty S.table .free).vector d.typeVars.length).mono (hV₄.trans hV₅) hvars
  refine (Sim.solution (fun _ => rfl) d.typeVars hvars').bind fun V₆ _ params params' hparams => ?_
  refine .pure (.value (Ty.Alike.mono (lv.none_le_at V₆) (.compound _ ?_ hparams.2)))
  exact ⟨origin.name, origin.home, d, hsym, hparams.1.symm⟩

theorem callType (span : Span) (henv : (Likeness.env S.table lv).rel V env env') (callee : Expr) (args : List Expr) :
    S.Sim V (.denoted S.table lv) (cx.callType span env callee args) (cx'.callType span env' callee args) := by
  refine (h.infer hlv henv callee).bind fun V₁ hV₁ d d' hd => ?_
  refine .store fun V₂ hV₂ s s' hs => ?_
  have hprune : (Likeness.ty S.table lv).rel V₂ (s.prune d.ty) (s'.prune d'.ty) :=
    (hs.atLevel lv).prune (hd.ty.mono (lv.at_mono hV₂))
  refine (h.fieldTypes hprune callee.span).bind fun V₃ hV₃ fields fields' hfields => ?_
  refine (Sim.arity _ hfields.length_eq rfl fun _ => rfl).bind fun V₄ hV₄ _ _ _ => ?_
  have hle := hV₁.trans (hV₂.trans (hV₃.trans hV₄))
  have hcompare := h.compareFields hlv (Likeness.mono _ hle henv) (Likeness.mono _ hV₄ hfields) args
  refine hcompare.bind fun V₅ hV₅ _ _ _ => .pure (.value ?_)
  exact (Likeness.ty S.table lv).mono (hV₃.trans (hV₄.trans hV₅)) hprune

/-! ### Answers -/

omit hlv h in
theorem accepted (formal : Formal) {actual actual' : Denotation}
    (hactual : (Likeness.denoted S.table lv).rel V actual actual') {span span' : Span} (hspan : S.InStep (span = span')) :
    S.Sim V .same (formal.accept actual span) (formal.accept actual' span') := by
  cases formal <;> cases hactual
  · exact .pure rfl
  · exact .fail fun hm => ⟨.same _, hspan hm⟩
  · exact .fail fun hm => ⟨.same _, hspan hm⟩
  · exact .pure rfl

omit hlv in
theorem unifyFormals (henv : (Likeness.env S.table .free).rel V env env') (formals : List Formal) {key key' : Key}
    (hkey : (Likeness.denoted S.table lv).list.rel V key key') {args args' : List Expr}
    (hlen : args.length = args'.length) (hargs : S.InStep (args = args')) :
    S.Sim V .same (cx.unifyFormals env formals key args) (cx'.unifyFormals env' formals key' args') := by
  induction formals generalizing V key key' args args' with
  | nil => exact .pure rfl
  | cons formal formals ih =>
    cases hkey with
    | nil => exact .pure rfl
    | @cons actual actual' key key' hactual hkey =>
      cases args with
      | nil =>
        cases args' with
        | nil => exact .pure rfl
        | cons arg' args' => cases hlen
      | cons arg args =>
        cases args' with
        | nil => cases hlen
        | cons arg' args' =>
          have hspan : S.InStep (arg.span = arg'.span) := hargs.imp fun he => by rw [(List.cons.inj he).1]
          refine (accepted formal hactual hspan).bind fun V₁ hV₁ _ _ _ => ?_
          refine (h.type (Likeness.mono _ hV₁ henv) formal.typeExpr).bind fun V₂ hV₂ t u htu => ?_
          have hactual' := ((Likeness.denoted S.table lv).mono (hV₁.trans hV₂) hactual).ty.mono (lv.at_le V₂)
          have hunified := Sim.unified h.left h.right h.leftUnify h.rightUnify htu hactual' hspan
          refine hunified.bind fun V₃ hV₃ _ _ _ => ?_
          have hle := hV₁.trans (hV₂.trans hV₃)
          exact ih (Likeness.mono _ hle henv) (Likeness.mono _ hle hkey) (Nat.succ.inj hlen)
            (hargs.imp fun he => (List.cons.inj he).2)

omit hlv in
theorem addParams {frame frame' : Frame} (hframe : (Likeness.frame S.table .closed).rel V frame frame')
    (formals : List Formal) {key key' : Key} (hkey : (Likeness.denoted S.table lv).list.rel V key key') :
    S.Sim V (.frame S.table .closed) (cx.addParams frame formals key) (cx'.addParams frame' formals key') := by
  induction formals generalizing V frame frame' key key' with
  | nil => exact .pure hframe
  | cons formal formals ih =>
    cases hkey with
    | nil => cases formal <;> exact .pure hframe
    | @cons actual actual' key key' hactual hkey =>
      cases formal with
      | value passing name t =>
        have hty : (Likeness.ty S.table lv).rel V actual.ty actual'.ty := hactual.ty
        refine (Sim.closed hty (Sim.display h.left h.right hty) fun _ => rfl).bind fun V₁ hV₁ t u htu => ?_
        have hparam : (passing.paramType t).Alike S.table.Forms .none (passing.paramType u) := by
          cases passing with
          | byValue => exact htu
          | byRef => exact .wrap .ref htu
        have hadd : (Likeness.frame S.table .closed).Outcome S.table V₁ (frame.add name (.param (passing.paramType t)))
            (frame'.add name (.param (passing.paramType u))) :=
          Frame.add_alike (Likeness.mono _ hV₁ hframe) name (.param hparam)
        refine (Sim.lift hadd).bind fun V₂ hV₂ frame₁ frame₁' hframe₁ => ?_
        exact ih hframe₁ (Likeness.mono _ (hV₁.trans hV₂) hkey)
      | type t => exact ih hframe hkey

omit hlv h in
theorem unconditional (conditions : List Expr) :
    S.Sim V .same (Context.unconditional conditions) (Context.unconditional conditions) := by
  cases conditions with
  | nil => exact .pure rfl
  | cons condition conditions => exact .fail fun _ => ⟨.same _, rfl⟩

omit hlv in
theorem result (henv : (Likeness.env S.table .closed).rel V env env') (d : Procedure) :
    S.Sim V (.ty S.table .closed) (cx.result env d) (cx'.result env' d) := by
  unfold Context.result
  split
  · exact h.type henv _
  · exact h.value S.allows_closed henv _
  · exact .pure (.scalar .void)

omit hlv in
theorem bodyEnv (origin : Origin) (d : Procedure) {key key' : Key}
    (hkey : (Likeness.denoted S.table lv).list.rel V key key') {args args' : List Expr}
    (hlen : args.length = args'.length) (hargs : S.InStep (args = args')) {span span' : Span}
    (hspan : S.InStep (span = span')) :
    S.Sim V (.env S.table .closed) (cx.bodyEnv origin d key args span) (cx'.bodyEnv origin d key' args' span') := by
  refine (Sim.arity _ rfl hkey.length_eq hspan).bind fun V₁ hV₁ _ _ _ => ?_
  refine (Sim.home h.left h.right origin hspan).bind fun V₂ hV₂ home home' hhome => ?_
  obtain ⟨rfl, rfl⟩ := hhome
  refine (Sim.freshVars d.typeVars).bind fun V₃ hV₃ vars vars' hvars => ?_
  refine (Sim.lift (Frame.ofTypeVars_alike d.typeVars hvars.2)).bind fun V₄ hV₄ frame frame' hframe => ?_
  have hkey₄ := (Likeness.denoted S.table lv).list.mono (hV₁.trans (hV₂.trans (hV₃.trans hV₄))) hkey
  refine (h.unifyFormals (Env.mk_alike hframe _) d.formals hkey₄ hlen hargs).bind fun V₅ hV₅ _ _ _ => ?_
  refine (unconditional d.conditions).bind fun V₆ hV₆ _ _ _ => ?_
  have hvars₆ := ((Likeness.ty S.table .free).vector _).mono (hV₄.trans (hV₅.trans hV₆)) hvars
  refine (Sim.solution hspan d.typeVars hvars₆).bind fun V₇ hV₇ types types' htypes => ?_
  refine (Sim.lift (Frame.ofTypeVars_alike d.typeVars htypes.2)).bind fun V₈ hV₈ solved solved' hsolved => ?_
  have hkey₈ := (Likeness.denoted S.table lv).list.mono (hV₅.trans (hV₆.trans (hV₇.trans hV₈))) hkey₄
  refine (h.addParams .nil d.formals hkey₈).bind fun V₉ hV₉ params params' hparams => ?_
  have hlocals := Frame.append_alike hparams ((Likeness.frame S.table .closed).mono hV₉ hsolved)
  exact .pure (Env.mk_alike hlocals _)

omit hlv in
theorem returnType (origin : Origin) (d : Procedure) {key key' : Key}
    (hkey : (Likeness.denoted S.table lv).list.rel V key key') {args args' : List Expr}
    (hlen : args.length = args'.length) (hargs : S.InStep (args = args')) {span span' : Span}
    (hspan : S.InStep (span = span')) :
    S.Sim V (.ty S.table .closed) (cx.returnType origin d key args span) (cx'.returnType origin d key' args' span') := by
  rw [Context.returnType_eq, Context.returnType_eq]
  refine (h.bodyEnv origin d hkey hlen hargs hspan).bind fun V₁ _ env env' henv => ?_
  refine (h.result henv d).bind fun V₂ _ t u htu => ?_
  exact Sim.closed htu (Sim.display h.left h.right htu) fun _ => rfl

omit hlv in
/-- The computations behind two demands about one symbol go along with each other. Where errors are not compared, the
arguments may be other expressions, found at other places. -/
theorem compute {q q' : Demand} {key key' : Key} (hkey : (Likeness.denoted S.table lv).list.rel V key key')
    (hq : q.Proper S.table key) (hq' : q'.Proper S.table key') (hid : q.id = q'.id) (hstep : S.InStep (q = q')) :
    S.Sim V (.ty S.table .closed) (q.compute cx key) (q'.compute cx' key') := by
  cases q with
  | call origin d args span =>
    obtain ⟨hsym, hlen⟩ := hq
    cases q' with
    | call origin' d' args' span' =>
      obtain ⟨hsym', hlen'⟩ := hq'
      obtain ⟨id, name, home⟩ := origin
      obtain ⟨id', name', home'⟩ := origin'
      obtain rfl : id = id' := hid
      rw [hsym] at hsym'
      cases hsym'
      have hargs : S.InStep (args = args') := hstep.imp fun he => by injection he
      have hspan : S.InStep (span = span') := hstep.imp fun he => by injection he
      refine h.returnType _ d hkey ?_ hargs hspan
      rw [hlen, hlen', hkey.length_eq]
    | initializer home d' group span' =>
      obtain ⟨⟨_, _, hsym'⟩, _⟩ := hq'
      rw [show group = origin.id from hid.symm, hsym] at hsym'
      cases hsym'
  | initializer home d group span =>
    obtain ⟨⟨name, position, hsym⟩, _⟩ := hq
    cases q' with
    | call origin d' args' span' =>
      have hsym' := hq'.1
      rw [show origin.id = group from hid.symm, hsym] at hsym'
      cases hsym'
    | initializer home' d' group' span' =>
      obtain ⟨⟨_, _, hsym'⟩, _⟩ := hq'
      obtain rfl : group = group' := hid
      rw [hsym] at hsym'
      cases hsym'
      exact h.value S.allows_closed (Env.mk_alike .nil home) d.init

/-! ### Primitive operations -/

section

include hlv henv

theorem operand {fits : Ty → Bool} (hfits : ∀ {V t u}, Ty.Alike S.table.Forms V t u → fits t = fits u)
    (expected : String) (e : Expr) :
    S.Sim V (.ty S.table lv) (cx.operand env fits expected e) (cx'.operand env' fits expected e) := by
  refine (h.value hlv henv e).bind fun V₁ _ t u htu => .store fun V₂ hV₂ s s' hs => ?_
  have htu₂ := (Likeness.ty S.table lv).mono hV₂ htu
  rw [hfits ((hs.atLevel lv).prune htu₂)]
  split
  · exact .pure htu₂
  · refine (Sim.display h.left h.right htu₂).bind fun V₃ _ text text' htext => .fail fun _ => ?_
    exact ⟨.typeMismatch (.inl rfl) htext, rfl⟩

theorem operands (s : Scalar) (es : List Expr) : S.Sim V .same (cx.operands env s es) (cx'.operands env' s es) := by
  induction es generalizing V with
  | nil => exact .pure rfl
  | cons e es ih =>
    refine (h.operand hlv henv ?_ s.render e).bind fun V₁ hV₁ _ _ _ => ih (Likeness.mono _ hV₁ henv)
    intro V t u htu
    exact decide_eq_decide.2 (htu.scalar_iff s)

theorem callPolymorphic (op : Operation) (span : Span) (args : List Expr) :
    S.Sim V (.ty S.table lv) (cx.callPolymorphic op span env args) (cx'.callPolymorphic op span env' args) := by
  unfold Context.callPolymorphic
  split
  · exact h.type henv _
  · exact .fail fun _ => ⟨.same _, rfl⟩
  · refine (h.operand hlv henv ?_ _ _).bind fun V₁ hV₁ _ _ _ => ?_
    · intro V t u htu
      exact decide_eq_decide.2 (htu.scalar_iff .int)
    · exact (h.value hlv (Likeness.mono _ hV₁ henv) _).bind fun V₂ _ t u htu => .pure (.wrap .array htu)
  · exact .fail fun _ => ⟨.same _, rfl⟩
  · refine (h.operand hlv henv ?_ _ _).bind fun V₁ hV₁ _ _ _ => .pure (.scalar .int)
    intro V t u htu
    exact Shape.fits_alike htu .array
  · exact .fail fun _ => ⟨.same _, rfl⟩
  · refine (Sim.natLiteral _).bind fun V₁ hV₁ n n' hn => ?_
    obtain rfl : n = n' := hn
    exact (h.value hlv (Likeness.mono _ hV₁ henv) _).bind fun V₂ _ t u htu => .pure (.wrap (.arrayValue n) htu)
  · exact .fail fun _ => ⟨.same _, rfl⟩
  · exact .fail fun _ => ⟨.same _, rfl⟩

theorem callPrimitive (op : Operation) (span : Span) (args : List Expr) :
    S.Sim V (.ty S.table lv) (cx.callPrimitive op span env args) (cx'.callPrimitive op span env' args) := by
  unfold Context.callPrimitive
  split
  · refine (Sim.arity _ rfl rfl fun _ => rfl).bind fun V₁ hV₁ _ _ _ => ?_
    exact (h.operands hlv (Likeness.mono _ hV₁ henv) _ _).bind fun V₂ _ _ _ _ => .pure (.scalar _)
  · exact h.callPolymorphic hlv henv op span args

end

/-! ### Global variables and procedures -/

omit h hlv in
theorem part {parts parts' : List Ty} (hparts : (Likeness.ty S.table lv).list.rel V parts parts') (position : Nat)
    (span : Span) : S.Sim V (.ty S.table lv) (part parts position span) (part parts' position span) := by
  unfold DualInference.part
  rw [hparts.length_eq]
  have hget : Option.Rel ((Likeness.ty S.table lv).rel V) parts[position]? parts'[position]? := by
    induction hparts generalizing position with
    | nil => exact .none
    | cons htu _ ih =>
      cases position with
      | zero => exact .some htu
      | succ position => exact ih position
  rcases Ty.rel_cases hget with ⟨hp, hp'⟩ | ⟨t, u, hp, hp', htu⟩
  · rw [hp, hp']
    exact .fail fun _ => ⟨.same _, rfl⟩
  · rw [hp, hp']
    exact .pure htu

section

variable (hanswer : S.Answers cx cx')

include hanswer

omit hlv in
theorem globalType {items : List Item} (hset : S.table.Settled items) {origin : Origin} {d : Variables}
    {group : SymbolId} {position : Nat}
    (hsym : S.table.symbol? origin.id = some ⟨origin.name, origin.home, .global d group position⟩) (span : Span) :
    S.Sim V (.ty S.table .closed) (cx.globalType origin d group position span)
      (cx'.globalType origin d group position span) := by
  obtain ⟨name', position', hgroup⟩ := hset.group hsym
  refine (Sim.home h.left h.right origin fun _ => rfl).bind fun V₁ hV₁ home home' hhome => ?_
  obtain ⟨rfl, rfl⟩ := hhome
  split
  · exact h.type (Env.mk_alike .nil _) _
  · have hproper : (Demand.initializer origin.home d group span).Proper S.table [] := ⟨⟨name', position', hgroup⟩, rfl⟩
    refine (hanswer S.allows_closed .nil hproper hproper).bind fun V₂ _ t u htu => ?_
    split
    · exact .pure htu
    · refine (Sim.view h.left h.right (sees_parts S.table .closed) htu _).bind fun V₃ _ parts parts' hparts => ?_
      refine (Sim.arity _ rfl hparts.length_eq fun _ => rfl).bind fun V₄ hV₄ _ _ _ => ?_
      exact part (Likeness.mono _ hV₄ hparts) position _

section

include hlv henv

theorem callProcedure {origin : Origin} {d : Procedure}
    (hsym : S.table.symbol? origin.id = some ⟨origin.name, origin.home, .procedure d⟩) (span : Span) (args : List Expr) :
    S.Sim V (.denoted S.table lv) (cx.callProcedure origin d span env args)
      (cx'.callProcedure origin d span env' args) := by
  refine (h.denotations hlv henv args).bind fun V₁ _ key key' hkey => ?_
  have hproper : ∀ {key : Key}, key.length = args.length → (Demand.call origin d args span).Proper S.table key :=
    fun hlen => ⟨hsym, hlen.symm⟩
  refine (hanswer hlv hkey.2 (hproper hkey.1) (hproper (hkey.2.length_eq ▸ hkey.1))).bind fun V₂ _ t u htu => ?_
  exact .pure (.value (Ty.Alike.mono (lv.none_le_at V₂) htu))

/-! ### All expressions -/

omit hlv hanswer in
theorem meaning (name : Ident) :
    S.Sim V (.meaning S.table lv) (cx.meaning env name) (cx'.meaning env' name) := by
  unfold Context.meaning
  rw [h.left, h.right]
  rcases Ty.rel_cases (Env.meaning?_alike henv name.name) with ⟨hm, hm'⟩ | ⟨a, b, hm, hm', hab⟩
  · rw [hm, hm']
    exact .fail fun _ => ⟨.same _, rfl⟩
  · rw [hm, hm']
    exact .pure hab

variable {items : List Item} (hset : S.table.Settled items)

include hset

omit hlv in
theorem name (name : Ident) : S.Sim V (.denoted S.table lv) (cx.name env name) (cx'.name env' name) := by
  refine (h.meaning henv name).bind fun V₁ hV₁ m m' hm => ?_
  cases hm with
  | @typeVar t u htu =>
    refine .store fun V₂ hV₂ s s' hs => .pure (.type ?_)
    have htu₂ := htu.mono (lv.at_mono hV₂)
    rcases Ty.rel_cases ((hs.atLevel lv).deref? htu₂) with ⟨hd, hd'⟩ | ⟨t', u', hd, hd', htu'⟩
    · rw [hd, hd']
      exact htu₂
    · rw [hd, hd']
      exact htu'.mono (lv.none_le_at V₂)
  | localVar htu => exact .pure (.value htu)
  | @symbol id symbol hsym =>
    have hdecl := hset.declared hsym
    obtain ⟨symName, home, kind⟩ := symbol
    cases kind with
    | builtin b =>
      simp only [Symbol.meaning]
      cases hb : b.scalar? with
      | some t =>
        cases b with
        | scalar s =>
          cases hb
          exact .pure (.type (.scalar s))
        | _ => cases hb
      | none => exact .fail fun _ => ⟨.same _, rfl⟩
    | aggregate kind d =>
      exact (instantiate hsym .nil name.span).bind fun V₂ _ t u htu => .pure (.type htu)
    | global d group position =>
      refine (h.globalType hanswer hset hsym name.span).bind fun V₂ _ t u htu => .pure (.value ?_)
      exact Ty.Alike.mono (lv.none_le_at V₂) htu
    | typeVar span t => exact hdecl.elim
    | localVar t => exact hdecl.elim
    | _ => exact .fail fun _ => ⟨.same _, rfl⟩

omit hanswer hset in
theorem arrayElement (span : Span) (base : Expr) (indexes : List Expr) :
    S.Sim V (.denoted S.table lv) (cx.arrayElement span env base indexes)
      (cx'.arrayElement span env' base indexes) := by
  refine (h.value hlv henv base).bind fun V₁ hV₁ t u htu => ?_
  refine (Sim.view h.left h.right (sees_element S.table lv) htu base.span).bind fun V₂ hV₂ a b hab => ?_
  split
  · refine (h.value hlv (Likeness.mono _ (hV₁.trans hV₂) henv) _).bind fun V₃ hV₃ i j hij => ?_
    refine (Sim.shaped h.left h.right .int hij _).bind fun V₄ hV₄ _ _ _ => .pure (.value ?_)
    exact (Likeness.ty S.table lv).mono (hV₃.trans hV₄) hab
  · exact .fail fun _ => ⟨.same _, rfl⟩

omit hlv hanswer hset in
theorem typeParam (span : Span) (params : List Expr) :
    S.Sim V (.ty S.table lv) (cx.typeParam span env params) (cx'.typeParam span env' params) := by
  unfold Context.typeParam
  split
  · exact h.type henv _
  · exact .fail fun _ => ⟨.same _, rfl⟩

omit hlv hanswer hset in
theorem arrayValueType (span : Span) (params : List Expr) :
    S.Sim V (.ty S.table lv) (cx.arrayValueType span env params) (cx'.arrayValueType span env' params) := by
  unfold Context.arrayValueType
  split
  · refine (h.type henv _).bind fun V₁ _ t u htu => (Sim.natLiteral _).bind fun V₂ hV₂ n n' hn => ?_
    obtain rfl : n = n' := hn
    exact .pure (.wrap (.arrayValue n) ((Likeness.ty S.table lv).mono hV₂ htu))
  · exact .fail fun _ => ⟨.same _, rfl⟩

omit hanswer in
theorem index (span : Span) (base : Expr) (indexes : List Expr) :
    S.Sim V (.denoted S.table lv) (cx.index span env base indexes) (cx'.index span env' base indexes) := by
  unfold Context.index
  split
  · exact h.arrayElement hlv henv span base indexes
  · refine (h.meaning henv _).bind fun V₁ hV₁ m m' hm => ?_
    have henv₁ := Likeness.mono _ hV₁ henv
    have helement := h.arrayElement hlv henv₁ span base indexes
    cases hm with
    | typeVar htu => exact helement
    | localVar htu => exact helement
    | @symbol id symbol hsym =>
      have hdecl := hset.declared hsym
      obtain ⟨symName, home, kind⟩ := symbol
      cases kind with
      | builtin b =>
        cases b with
        | scalar s => exact helement
        | array => exact (h.typeParam henv₁ span indexes).bind fun _ _ t u htu => .pure (.type (.wrap .array htu))
        | arrayValue => exact (h.arrayValueType henv₁ span indexes).bind fun _ _ t u htu => .pure (.type htu)
        | ref => exact (h.typeParam henv₁ span indexes).bind fun _ _ t u htu => .pure (.type (.wrap .ref htu))
      | aggregate kind d =>
        refine (h.types henv₁ indexes).bind fun V₂ _ ts us hts => ?_
        exact (instantiate hsym hts.2 span).bind fun V₃ _ t u htu => .pure (.type htu)
      | typeVar span t => exact hdecl.elim
      | localVar t => exact hdecl.elim
      | _ => exact helement

theorem call (span : Span) (callee : Expr) (args : List Expr) :
    S.Sim V (.denoted S.table lv) (cx.call span env callee args) (cx'.call span env' callee args) := by
  unfold Context.call
  split
  · exact h.callType hlv span henv callee args
  · refine (h.meaning henv _).bind fun V₁ hV₁ m m' hm => ?_
    have henv₁ := Likeness.mono _ hV₁ henv
    have htype := h.callType hlv span henv₁ callee args
    cases hm with
    | typeVar htu => exact htype
    | localVar htu => exact htype
    | @symbol id symbol hsym =>
      have hdecl := hset.declared hsym
      obtain ⟨symName, home, kind⟩ := symbol
      cases kind with
      | primitive op => exact (h.callPrimitive hlv henv₁ op span args).bind fun _ _ t u htu => .pure (.value htu)
      | aggregate kind d => exact h.construct hlv hsym span henv₁ args
      | procedure d => exact h.callProcedure hlv henv₁ hanswer hsym span args
      | overloadable n os => exact .fail fun _ => ⟨.same _, rfl⟩
      | typeVar span t => exact hdecl.elim
      | localVar t => exact hdecl.elim
      | _ => exact htype

omit hanswer hset in
theorem sameElements {t u : Ty} (htu : (Likeness.ty S.table lv).rel V t u) (es : List Expr) :
    S.Sim V .same (cx.sameElements env t es) (cx'.sameElements env' u es) := by
  induction es generalizing V with
  | nil => exact .pure rfl
  | cons e es ih =>
    refine (h.value hlv henv e).bind fun V₁ hV₁ a b hab => ?_
    have htu₁ := (Likeness.ty S.table lv).mono hV₁ htu
    refine (Sim.same h.left h.right htu₁ hab e.span).bind fun V₂ hV₂ _ _ _ => ?_
    exact ih (Likeness.mono _ (hV₁.trans hV₂) henv) ((Likeness.ty S.table lv).mono hV₂ htu₁)

omit hanswer hset in
theorem arrayLiteral (span : Span) (es : List Expr) :
    S.Sim V (.ty S.table lv) (cx.arrayLiteral span env es) (cx'.arrayLiteral span env' es) := by
  cases es with
  | nil => exact .fail fun _ => ⟨.same _, rfl⟩
  | cons e es =>
    refine (h.value hlv henv e).bind fun V₁ hV₁ t u htu => ?_
    refine (h.sameElements hlv (Likeness.mono _ hV₁ henv) htu es).bind fun V₂ hV₂ _ _ _ => ?_
    exact .pure (.wrap (.arrayValue (es.length + 1)) ((Likeness.ty S.table lv).mono hV₂ htu))

/-- Every rule of the second context goes along with that rule of the first. -/
theorem rule (e : Expr) : S.Sim V (.denoted S.table lv) (cx.rule env e) (cx'.rule env' e) := by
  cases e with
  | addressOf span operand =>
    exact (h.value hlv henv operand).bind fun _ _ t u htu => .pure (.value (.wrap .ref htu))
  | index span base indexes => exact h.index hlv henv hset span base indexes
  | call span callee args => exact h.call hlv henv hanswer hset span callee args
  | field span base name =>
    refine (h.value hlv henv base).bind fun V₁ _ t u htu => ?_
    refine (h.fieldTypes htu base.span).bind fun V₂ _ fields fields' hfields => ?_
    rcases Ty.rel_cases (Likeness.lookup hfields name.name) with ⟨hl, hl'⟩ | ⟨a, b, hl, hl', hab⟩
    · rw [hl, hl']
      exact .fail fun _ => ⟨.same _, rfl⟩
    · rw [hl, hl']
      exact .pure (.value hab)
  | element span base position =>
    refine (h.value hlv henv base).bind fun V₁ _ t u htu => ?_
    refine (Sim.view h.left h.right (sees_parts S.table lv) htu base.span).bind fun V₂ _ parts parts' hparts => ?_
    exact (part hparts position span).bind fun _ _ a b hab => .pure (.value hab)
  | pointee span base =>
    refine (h.value hlv henv base).bind fun V₁ _ t u htu => ?_
    exact (Sim.view h.left h.right (sees_pointee S.table lv) htu base.span).bind fun _ _ a b hab => .pure (.value hab)
  | array span elements =>
    exact (h.arrayLiteral hlv henv span elements).bind fun _ _ t u htu => .pure (.value htu)
  | tuple span elements =>
    exact (h.values hlv henv elements).bind fun _ _ ts us hts => .pure (.value (.compound .tuple trivial hts))
  | name span ident => exact h.name henv hanswer hset ident
  | bool span b => exact .pure (.value (.scalar .bool))
  | int span n => exact .pure (.value (.scalar .int))
  | char span c => exact .pure (.value (.scalar .char))

omit hanswer hset in
theorem project (side : Side) (e : Expr) (shape : Option Shape) :
    S.Sim V (.ty S.table lv) (cx.project side env e shape) (cx'.project side env' e shape) := by
  have hshaped : ∀ shape V₁ t u, (Likeness.ty S.table lv).rel V₁ t u →
      S.Sim V₁ (.ty S.table lv) (cx.shaped shape t e.span >>= fun _ => pure t)
        (cx'.shaped shape u e.span >>= fun _ => pure u) := by
    intro shape V₁ t u htu
    exact (Sim.shaped h.left h.right shape htu e.span).bind fun V₂ hV₂ _ _ _ =>
      .pure ((Likeness.ty S.table lv).mono hV₂ htu)
  cases side with
  | value =>
    refine (h.value hlv henv e).bind fun V₁ _ t u htu => ?_
    cases shape with
    | none => exact .pure htu
    | some shape => exact hshaped shape V₁ t u htu
  | type =>
    refine (h.type henv e).bind fun V₁ _ t u htu => ?_
    cases shape with
    | none => exact .pure htu
    | some shape => exact hshaped shape V₁ t u htu

end

end

end Setting.Simulates

end DualInference
