/-
How inferences are put together.

Every rule is made of three things: steps that do not touch the memo, inferences of other expressions, and answers that
may be remembered from the memo, which are asked for by a `Demand`. `Built` says so, for a family of contexts on one table
at once: the rules put the same pieces together whatever the contexts do with other expressions and with remembered
answers. What comes after a piece may rely on what the piece comes to, and so a demand that arises is one about a symbol
as it is declared (`Demand.Arises`).

`Built.rule` is the one pass over all rules. What holds of the pieces, and of two computations in sequence, then holds
of every inference by induction on `Built`; for relations between the states before and after, see `Infer.Robust`.
-/
import DualInference.Inference.Infer
import DualInference.Proofs.Inference.Results
import DualInference.Proofs.Store.Agreement

namespace DualInference

/-! ## Demands for answers -/

/-- what may have been answered before: what a procedure returns, or the type of an initializer -/
inductive Demand where
  | call (origin : Origin) (d : Procedure) (args : List Expr) (span : Span)
  | initializer (home : ScopeId) (d : Variables) (group : SymbolId) (span : Span)

namespace Demand

/-- the symbol under which the answer is kept -/
def id : Demand → SymbolId
  | .call origin _ _ _ => origin.id
  | .initializer _ _ group _ => group

def span : Demand → Span
  | .call _ _ _ span => span
  | .initializer _ _ _ span => span

/-- how the answer for a key is found if there is none -/
def compute (cx : Context) (key : Key) : Demand → Infer Ty
  | .call origin d args span => cx.returnType origin d key args span
  | .initializer home d _ _ => cx.value { scope := home } d.init

/-- a demand that the use of a name leads to: about a procedure as it is declared, with a part of the key for each
argument, or about the definition of a variable -/
def Arises (tab : SymbolTable) (key : Key) : Demand → Prop
  | .call origin d args _ =>
    tab.symbol? origin.id = some ⟨origin.name, origin.home, .procedure d⟩ ∧ args.length = key.length
  | .initializer home d group _ =>
    (∃ id name position, tab.symbol? id = some ⟨name, home, .global d group position⟩) ∧ key = []

end Demand

/-- the answer to a demand -/
def Context.answer (cx : Context) (q : Demand) (key : Key) : Infer Ty :=
  cx.remember q.id key q.span (q.compute cx key)

/-! ## Pieces -/

/-- contexts on one table; they differ in how other expressions are inferred and in how answers are remembered -/
structure Contexts (ι : Type) where
  table : SymbolTable
  infer : ι → Env → Expr → Infer Denotation
  remember : ι → SymbolId → Key → Span → Infer Ty → Infer Ty

/-- one of the contexts -/
def Contexts.at {ι : Type} (F : Contexts ι) (i : ι) : Context :=
  { table := F.table, infer := F.infer i, remember := F.remember i }

/-- a computation that leaves the memo alone, and the bindings of an acyclic store -/
def Infer.Steady {α : Type} (x : Infer α) : Prop :=
  ∀ st r st', x st = some (r, st') → st'.memo = st.memo ∧ st.store.Lasts st'.store

/-- computations, one for each context, that are put together in the same way -/
inductive Built {ι : Type} (F : Contexts ι) : {α : Type} → (ι → Infer α) → Prop
  | steady {α : Type} {x : Infer α} (h : x.Steady) : Built F fun _ => x
  | infer (env : Env) (e : Expr) : Built F fun i => F.infer i env e
  | sequence {α β : Type} {x : ι → Infer α} {f : ι → α → Infer β} (P : α → Prop)
    (hP : ∀ {i st a st'}, x i st = some (.ok a, st') → P a) (hx : Built F x)
    (hf : ∀ a, P a → Built F fun i => f i a) : Built F fun i => x i >>= f i
  | answer (q : Demand) (key : Key) (hq : q.Arises F.table key) (hx : Built F fun i => q.compute (F.at i) key) :
    Built F fun i => (F.at i).answer q key

/-! ## Steps that leave the memo alone -/

namespace Infer

theorem Steady.pure {α : Type} (a : α) : Steady (pure a : Infer α) := by
  intro st r st' h
  cases h
  exact ⟨rfl, .refl _⟩

theorem Steady.fail {α : Type} (cause : Cause) (span : Span) : Steady (fail cause span : Infer α) := by
  intro st r st' h
  cases h
  exact ⟨rfl, .refl _⟩

theorem Steady.store : Steady Infer.store := by
  intro st r st' h
  cases h
  exact ⟨rfl, .refl _⟩

theorem Steady.lift {α : Type} (x : Except Error α) : Steady (lift x) := by
  intro st r st' h
  cases x <;> (cases h; exact ⟨rfl, .refl _⟩)

theorem Steady.bind {α β : Type} {x : Infer α} {f : α → Infer β} (hx : x.Steady) (hf : ∀ a, (f a).Steady) :
    (x >>= f).Steady := by
  intro st r st' h
  rw [bind_apply] at h
  split at h
  · rename_i a st₁ h₁
    obtain ⟨hmemo, hlasts⟩ := hx st _ st₁ h₁
    obtain ⟨hmemo', hlasts'⟩ := hf a st₁ r st' h
    exact ⟨hmemo'.trans hmemo, hlasts.trans hlasts'⟩
  · rename_i e st₁ h₁
    cases h
    exact hx st _ _ h₁
  · cases h

theorem Steady.freshVars (names : List Ident) : Steady (freshVars names) := by
  induction names with
  | nil => exact .pure _
  | cons name names ih =>
    intro st r st' h
    rw [freshVars_cons] at h
    obtain ⟨hmemo, hlasts⟩ := Steady.bind ih (fun _ => .pure _) _ _ _ h
    exact ⟨hmemo, .trans (.fresh st.store) hlasts⟩

theorem Steady.closed (t : Ty) {name : Infer String} (hname : name.Steady) (span : Span) :
    Steady (closed t name span) := by
  refine .bind .store fun s => ?_
  split
  · exact .pure _
  · exact .bind hname fun _ => .fail _ _

theorem Steady.solution (span : Span) (names : List Ident) (ts : List Ty) : Steady (solution span names ts) := by
  induction names generalizing ts with
  | nil => exact .pure _
  | cons name names ih =>
    cases ts with
    | nil => exact .pure _
    | cons t ts => exact .bind (.closed t (.pure _) span) fun _ => .bind (ih ts) fun _ => .pure _

theorem Steady.display (cx : Context) (t : Ty) : Steady (cx.display t) :=
  .bind .store fun s => .pure (s.display cx.table.nameOf t)

theorem Steady.mismatch {α : Type} (cx : Context) (t u : Ty) (span : Span) : Steady (cx.mismatch (α := α) t u span) :=
  .bind (.display cx t) fun _ => .bind (.display cx u) fun _ => .fail _ _

theorem Steady.unified {cx : Context} (hunify : cx.unify = Store.unify) (t u : Ty) (span : Span) :
    Steady (cx.unified t u span) := by
  intro st r st' h
  cases hu : cx.unify st.store t u with
  | some s =>
    rw [Context.unified_of_some hu] at h
    cases h
    rw [hunify] at hu
    exact ⟨rfl, .unify hu⟩
  | none =>
    rw [Context.unified_of_none hu] at h
    exact Steady.mismatch cx t u span st r st' h

end Infer

namespace Built

open Infer

variable {ι : Type} {F : Contexts ι} {α : Type}

theorem pure (a : α) : Built F fun _ => (pure a : Infer α) :=
  .steady (.pure a)

theorem fail (cause : Cause) (span : Span) : Built F fun _ => (Infer.fail cause span : Infer α) :=
  .steady (.fail cause span)

theorem store : Built F fun _ => Infer.store :=
  .steady .store

theorem bind {β : Type} {x : ι → Infer α} {f : ι → α → Infer β} (hx : Built F x) (hf : ∀ a, Built F fun i => f i a) :
    Built F fun i => x i >>= f i :=
  .sequence (fun _ => True) (fun _ => trivial) hx fun a _ => hf a

theorem lift (x : Except Error α) : Built F fun _ => Infer.lift x :=
  .steady (.lift x)

/-! ## Demands -/

theorem value (env : Env) (e : Expr) : Built F fun i => (F.at i).value env e := by
  refine .bind (.infer env e) fun d => ?_
  cases d with
  | value t => exact .pure _
  | type t => exact .fail _ _

theorem type (env : Env) (e : Expr) : Built F fun i => (F.at i).type env e := by
  refine .bind (.infer env e) fun d => ?_
  cases d with
  | value t => exact .fail _ _
  | type t => exact .pure _

theorem denotations (env : Env) (es : List Expr) : Built F fun i => (F.at i).denotations env es := by
  induction es with
  | nil => exact .pure _
  | cons e es ih => exact .bind (.infer env e) fun _ => .bind ih fun _ => .pure _

theorem values (env : Env) (es : List Expr) : Built F fun i => (F.at i).values env es := by
  induction es with
  | nil => exact .pure _
  | cons e es ih => exact .bind (.value env e) fun _ => .bind ih fun _ => .pure _

theorem types (env : Env) (es : List Expr) : Built F fun i => (F.at i).types env es := by
  induction es with
  | nil => exact .pure _
  | cons e es ih => exact .bind (.type env e) fun _ => .bind ih fun _ => .pure _

theorem display (t : Ty) : Built F fun i => (F.at i).display t :=
  .bind .store fun s => .pure (s.display F.table.nameOf t)

theorem invalidType (t : Ty) (span : Span) : Built F fun i => (F.at i).invalidType (α := α) t span :=
  .bind (.display t) fun _ => .fail _ _

theorem mismatch (t u : Ty) (span : Span) : Built F fun i => (F.at i).mismatch (α := α) t u span :=
  .bind (.display t) fun _ => .bind (.display u) fun _ => .fail _ _

theorem view (look : Ty → Option α) (t : Ty) (span : Span) : Built F fun i => (F.at i).view look t span := by
  refine .bind .store fun s => ?_
  cases look (s.prune t) with
  | some a => exact .pure a
  | none => exact .invalidType t span

theorem shaped (shape : Shape) (t : Ty) (span : Span) : Built F fun i => (F.at i).shaped shape t span := by
  refine .bind .store fun s => ?_
  cases s.hasShape shape t with
  | true => exact .pure ()
  | false => exact .invalidType t span

theorem same (t u : Ty) (span : Span) : Built F fun i => (F.at i).same t u span := by
  refine .bind .store fun s => ?_
  cases s.equal t u with
  | true => exact .pure ()
  | false => exact .mismatch t u span

theorem unified (t u : Ty) (span : Span) : Built F fun i => (F.at i).unified t u span :=
  .steady (x := Context.unified { table := F.table, infer := fun _ _ => tooDeep } t u span) (.unified rfl t u span)

theorem arity (what : String) (expected found : Nat) (span : Span) :
    Built F fun _ => DualInference.arity what expected found span := by
  unfold DualInference.arity
  split
  · exact .pure ()
  · exact .fail _ _

theorem natLiteral (e : Expr) : Built F fun _ => DualInference.natLiteral e := by
  unfold DualInference.natLiteral
  split
  · exact .pure _
  · exact .fail _ _

theorem home (origin : Origin) (span : Span) : Built F fun i => (F.at i).home origin span := by
  cases h : F.table.alive origin.home <;> simp only [Context.home, Contexts.at, h]
  · exact .fail _ _
  · exact .pure _

theorem closed (t : Ty) (span : Span) : Built F fun i => Infer.closed t ((F.at i).display t) span :=
  .bind .store fun s => by
    cases s.deref? t with
    | some t' => exact .pure t'
    | none => exact .bind (.display t) fun _ => .fail _ _

theorem part (parts : List Ty) (position : Nat) (span : Span) :
    Built F fun _ => DualInference.part parts position span := by
  unfold DualInference.part
  split
  · exact .pure _
  · exact .fail _ _

/-- What comes after the look-up of a name may rely on what the name means. -/
theorem meaning (env : Env) (name : Ident) {f : ι → Meaning → Infer α}
    (hf : ∀ m, env.meaning? F.table name.name = some m → Built F fun i => f i m) :
    Built F fun i => (F.at i).meaning env name >>= f i := by
  refine .sequence _ (fun {i st m st'} h => (Context.meaning_eq_ok.1 h).1) ?_ hf
  cases h : env.meaning? F.table name.name <;> simp only [Context.meaning, Contexts.at, h]
  · exact .fail _ _
  · exact .pure _

/-! ## Aggregates -/

theorem instantiate (origin : Origin) (kind : AggregateKind) (d : Aggregate) (params : List Ty) (span : Span) :
    Built F fun _ => DualInference.instantiate origin kind d params span :=
  .bind (.arity _ _ _ _) fun _ => .pure _

theorem fieldsIn (env : Env) (fs : List Field) : Built F fun i => (F.at i).fieldsIn env fs := by
  induction fs with
  | nil => exact .pure _
  | cons f fs ih => exact .bind (.type env f.type) fun _ => .bind ih fun _ => .pure _

theorem fieldTypes (t : Ty) (span : Span) : Built F fun i => (F.at i).fieldTypes t span := by
  refine .bind (.view _ t span) fun p => ?_
  simp only [Contexts.at]
  split
  · exact .bind (.home _ span) fun _ => .bind (.lift _) fun _ => .fieldsIn _ _
  · exact .invalidType t span

theorem field (env : Env) (base : Expr) (name : Ident) : Built F fun i => (F.at i).field env base name := by
  refine .bind (.value env base) fun t => .bind (.fieldTypes t _) fun fields => ?_
  split
  · exact .pure _
  · exact .fail _ _

theorem unifyFields (fieldEnv env : Env) (fs : List Field) (args : List Expr) :
    Built F fun i => (F.at i).unifyFields fieldEnv env fs args := by
  induction fs generalizing args with
  | nil => exact .pure ()
  | cons f fs ih =>
    cases args with
    | nil => exact .pure ()
    | cons arg args =>
      refine .bind (.type fieldEnv f.type) fun _ => .bind (.value env arg) fun _ => ?_
      exact .bind (.unified _ _ _) fun _ => ih args

theorem construct (origin : Origin) (kind : AggregateKind) (d : Aggregate) (span : Span) (env : Env)
    (args : List Expr) : Built F fun i => (F.at i).construct origin kind d span env args :=
  .bind (.arity _ _ _ _) fun _ => .bind (.home origin span) fun _ => .bind (.steady (.freshVars _)) fun _ =>
    .bind (.lift _) fun _ => .bind (.unifyFields _ env _ args) fun _ => .bind (.steady (.solution _ _ _)) fun _ =>
      .pure _

theorem compareFields (env : Env) (fields : List (String × Ty)) (args : List Expr) :
    Built F fun i => (F.at i).compareFields env fields args := by
  induction fields generalizing args with
  | nil => exact .pure ()
  | cons f fields ih =>
    cases args with
    | nil => exact .pure ()
    | cons arg args => exact .bind (.value env arg) fun _ => .bind (.same _ _ _) fun _ => ih args

theorem callType (span : Span) (env : Env) (callee : Expr) (args : List Expr) :
    Built F fun i => (F.at i).callType span env callee args :=
  .bind (.infer env callee) fun _ => .bind .store fun _ => .bind (.fieldTypes _ _) fun _ =>
    .bind (.arity _ _ _ _) fun _ => .bind (.compareFields env _ args) fun _ => .pure _

/-! ## Answers kept in the memo -/

theorem accepted (formal : Formal) (actual : Denotation) (span : Span) : Built F fun _ => formal.accept actual span := by
  unfold Formal.accept
  split
  · exact .fail _ _
  · exact .fail _ _
  · exact .pure ()
  · exact .pure ()

theorem unifyFormals (env : Env) (formals : List Formal) (key : Key) (args : List Expr) :
    Built F fun i => (F.at i).unifyFormals env formals key args := by
  induction formals generalizing key args with
  | nil => exact .pure ()
  | cons formal formals ih =>
    cases key with
    | nil => exact .pure ()
    | cons actual key =>
      cases args with
      | nil => exact .pure ()
      | cons arg args =>
        exact .bind (.accepted _ _ _) fun _ => .bind (.type env _) fun _ => .bind (.unified _ _ _) fun _ => ih key args

theorem addParams (frame : Frame) (formals : List Formal) (key : Key) :
    Built F fun i => (F.at i).addParams frame formals key := by
  induction formals generalizing frame key with
  | nil => exact .pure _
  | cons formal formals ih =>
    cases key with
    | nil => cases formal <;> exact .pure _
    | cons actual key =>
      cases formal with
      | value passing name t => exact .bind (.closed _ _) fun _ => .bind (.lift _) fun _ => ih _ key
      | type t => exact ih frame key

theorem unconditional (conditions : List Expr) : Built F fun _ => Context.unconditional conditions := by
  cases conditions with
  | nil => exact .pure ()
  | cons condition conditions => exact .fail _ _

theorem result (env : Env) (d : Procedure) : Built F fun i => (F.at i).result env d := by
  unfold Context.result
  split
  · exact .type env _
  · exact .value env _
  · exact .pure _

theorem bodyEnv (origin : Origin) (d : Procedure) (key : Key) (args : List Expr) (span : Span) :
    Built F fun i => (F.at i).bodyEnv origin d key args span :=
  .bind (.arity _ _ _ _) fun _ => .bind (.home origin span) fun _ => .bind (.steady (.freshVars _)) fun _ =>
    .bind (.lift _) fun _ => .bind (.unifyFormals _ _ key args) fun _ => .bind (.unconditional _) fun _ =>
      .bind (.steady (.solution _ _ _)) fun _ => .bind (.lift _) fun _ => .bind (.addParams _ _ key) fun _ => .pure _

theorem returnType (origin : Origin) (d : Procedure) (key : Key) (args : List Expr) (span : Span) :
    Built F fun i => (F.at i).returnType origin d key args span := by
  simp only [Context.returnType_eq]
  exact .bind (.bodyEnv origin d key args span) fun env => .bind (.result env d) fun t => .closed t _

theorem callProcedure {origin : Origin} {d : Procedure}
    (hsymbol : F.table.symbol? origin.id = some ⟨origin.name, origin.home, .procedure d⟩) (span : Span) (env : Env)
    (args : List Expr) : Built F fun i => (F.at i).callProcedure origin d span env args :=
  .sequence _ Context.length_of_denotations (.denotations env args) fun key hlen =>
    .bind (.answer (.call origin d args span) key ⟨hsymbol, hlen.symm⟩ (.returnType origin d key args span)) fun _ =>
      .pure _

theorem initType {origin : Origin} {d : Variables} {group : SymbolId} {position : Nat}
    (hsymbol : F.table.symbol? origin.id = some ⟨origin.name, origin.home, .global d group position⟩) (span : Span) :
    Built F fun i => (F.at i).initType { scope := origin.home } d group span :=
  .answer (.initializer origin.home d group span) [] ⟨⟨origin.id, origin.name, position, hsymbol⟩, rfl⟩
    (.value { scope := origin.home } d.init)

theorem globalType {origin : Origin} {d : Variables} {group : SymbolId} {position : Nat}
    (hsymbol : F.table.symbol? origin.id = some ⟨origin.name, origin.home, .global d group position⟩) (span : Span) :
    Built F fun i => (F.at i).globalType origin d group position span := by
  refine .sequence _ (fun h => (Context.home_eq_ok.1 h).1.2) (.home origin span) fun home hhome => ?_
  subst hhome
  split
  · exact .type _ _
  · refine .bind (.initType hsymbol span) fun t => ?_
    split
    · exact .pure t
    · exact .bind (.view _ t _) fun parts => .bind (.arity _ _ _ _) fun _ => .part parts position _

/-! ## Primitive operations -/

theorem operand (env : Env) (fits : Ty → Bool) (expected : String) (e : Expr) :
    Built F fun i => (F.at i).operand env fits expected e := by
  refine .bind (.value env e) fun t => .bind .store fun s => ?_
  cases fits (s.prune t) with
  | true => exact .pure t
  | false => exact .bind (.display t) fun _ => .fail _ _

theorem operands (env : Env) (s : Scalar) (es : List Expr) : Built F fun i => (F.at i).operands env s es := by
  induction es with
  | nil => exact .pure ()
  | cons e es ih => exact .bind (.operand env _ _ e) fun _ => ih

theorem callSigned (sig : Signature) (span : Span) (env : Env) (args : List Expr) :
    Built F fun i => (F.at i).callSigned sig span env args :=
  .bind (.arity _ _ _ _) fun _ => .bind (.operands env _ args) fun _ => .pure _

theorem callPolymorphic (op : Operation) (span : Span) (env : Env) (args : List Expr) :
    Built F fun i => (F.at i).callPolymorphic op span env args := by
  unfold Context.callPolymorphic
  split
  · exact .type env _
  · exact .fail _ _
  · exact .bind (.operand env _ _ _) fun _ => .bind (.value env _) fun _ => .pure _
  · exact .fail _ _
  · exact .bind (.operand env _ _ _) fun _ => .pure _
  · exact .fail _ _
  · exact .bind (.natLiteral _) fun _ => .bind (.value env _) fun _ => .pure _
  · exact .fail _ _
  · exact .fail _ _

theorem callPrimitive (op : Operation) (span : Span) (env : Env) (args : List Expr) :
    Built F fun i => (F.at i).callPrimitive op span env args := by
  unfold Context.callPrimitive
  split
  · exact .callSigned _ span env args
  · exact .callPolymorphic op span env args

/-! ## All expressions -/

theorem name (env : Env) (name : Ident) : Built F fun i => (F.at i).name env name := by
  refine .meaning env name fun m hm => ?_
  split
  · exact .bind .store fun _ => .pure _
  · exact .pure _
  · split
    · exact .pure _
    · exact .fail _ _
  · exact .bind (.instantiate _ _ _ _ _) fun _ => .pure _
  · exact .bind (.globalType (Env.symbol?_of_meaning?_global hm) _) fun _ => .pure _
  all_goals exact .fail _ _

theorem arrayElement (span : Span) (env : Env) (base : Expr) (indexes : List Expr) :
    Built F fun i => (F.at i).arrayElement span env base indexes := by
  refine .bind (.value env base) fun t => .bind (.view _ t _) fun element => ?_
  split
  · exact .bind (.value env _) fun _ => .bind (.shaped _ _ _) fun _ => .pure _
  · exact .fail _ _

theorem typeParam (span : Span) (env : Env) (params : List Expr) :
    Built F fun i => (F.at i).typeParam span env params := by
  unfold Context.typeParam
  split
  · exact .type env _
  · exact .fail _ _

theorem arrayValueType (span : Span) (env : Env) (params : List Expr) :
    Built F fun i => (F.at i).arrayValueType span env params := by
  unfold Context.arrayValueType
  split
  · exact .bind (.type env _) fun _ => .bind (.natLiteral _) fun _ => .pure _
  · exact .fail _ _

theorem index (span : Span) (env : Env) (base : Expr) (indexes : List Expr) :
    Built F fun i => (F.at i).index span env base indexes := by
  unfold Context.index
  split
  · exact .arrayElement span env base indexes
  · refine .meaning env _ fun m _ => ?_
    split
    · exact .bind (.typeParam span env indexes) fun _ => .pure _
    · exact .bind (.arrayValueType span env indexes) fun _ => .pure _
    · exact .bind (.typeParam span env indexes) fun _ => .pure _
    · exact .bind (.types env indexes) fun _ => .bind (.instantiate _ _ _ _ _) fun _ => .pure _
    · exact .arrayElement span env base indexes

theorem call (span : Span) (env : Env) (callee : Expr) (args : List Expr) :
    Built F fun i => (F.at i).call span env callee args := by
  unfold Context.call
  split
  · exact .callType span env callee args
  · refine .meaning env _ fun m hm => ?_
    split
    · exact .bind (.callPrimitive _ span env args) fun _ => .pure _
    · exact .construct _ _ _ span env args
    · exact .callProcedure (Env.symbol?_of_meaning?_procedure hm) span env args
    · exact .fail _ _
    · exact .callType span env callee args

theorem sameElements (env : Env) (t : Ty) (es : List Expr) : Built F fun i => (F.at i).sameElements env t es := by
  induction es with
  | nil => exact .pure ()
  | cons e es ih => exact .bind (.value env e) fun _ => .bind (.same _ _ _) fun _ => ih

theorem arrayLiteral (span : Span) (env : Env) (es : List Expr) :
    Built F fun i => (F.at i).arrayLiteral span env es := by
  cases es with
  | nil => exact .fail _ _
  | cons e es => exact .bind (.value env e) fun t => .bind (.sameElements env t es) fun _ => .pure _

/-- Every rule is put together from the pieces. -/
theorem rule (env : Env) (e : Expr) : Built F fun i => (F.at i).rule env e := by
  cases e with
  | addressOf span operand => exact .bind (.value env operand) fun _ => .pure _
  | index span base indexes => exact .index span env base indexes
  | call span callee args => exact .call span env callee args
  | field span base name => exact .field env base name
  | element span base position =>
    exact .bind (.value env base) fun t => .bind (.view _ t _) fun parts => .bind (.part parts position span) fun _ =>
      .pure _
  | pointee span base => exact .bind (.value env base) fun t => .bind (.view _ t _) fun _ => .pure _
  | array span elements => exact .bind (.arrayLiteral span env elements) fun _ => .pure _
  | tuple span elements => exact .bind (.values env elements) fun _ => .pure _
  | name span ident => exact .name env ident
  | bool span b => exact .pure _
  | int span n => exact .pure _
  | char span c => exact .pure _

theorem project (side : Side) (env : Env) (e : Expr) (shape : Option Shape) :
    Built F fun i => (F.at i).project side env e shape := by
  cases side with
  | value =>
    refine .bind (.value env e) fun t => ?_
    cases shape with
    | some shape => exact .bind (.shaped shape t _) fun _ => .pure t
    | none => exact .pure t
  | type =>
    refine .bind (.type env e) fun t => ?_
    cases shape with
    | some shape => exact .bind (.shaped shape t _) fun _ => .pure t
    | none => exact .pure t

end Built

/-! ## From the state before to the state after -/

/-- the contexts of inferences that go at most `depth` levels deep; there is only one -/
def Contexts.within (depth : Nat) (table : SymbolTable) : Contexts Unit where
  table := table
  infer := fun _ => inferWithin depth table
  remember := fun _ => Infer.memoized Infer.start

/-- however the computation ends, the states before and after are related -/
def Infer.Along {α : Type} (R : State → State → Prop) (x : Infer α) : Prop :=
  ∀ st r st', x st = some (r, st') → R st st'

/-- a relation between states that steps without the memo keep to, and answers too if the computations behind them do -/
structure Infer.Robust (table : SymbolTable) (R : State → State → Prop) : Prop where
  trans : ∀ {st₁ st₂ st₃}, R st₁ st₂ → R st₂ st₃ → R st₁ st₃
  steady : ∀ {st st'}, st'.memo = st.memo → st.store.Lasts st'.store → R st st'
  answer : ∀ {depth} {q : Demand} {key : Key}, q.Arises table key →
    (q.compute ((Contexts.within depth table).at ()) key).Along R →
    (((Contexts.within depth table).at ()).answer q key).Along R

namespace Infer.Robust

variable {table : SymbolTable} {R : State → State → Prop} (hR : Robust table R) {depth : Nat} {α : Type}
  {x : Unit → Infer α}

include hR

/-- Such a relation is kept to by all that is put together of inferences that keep to it. -/
theorem along (hinfer : ∀ env e, (inferWithin depth table env e).Along R) (hx : Built (.within depth table) x) :
    (x ()).Along R := by
  induction hx with
  | steady h =>
    intro st r st' hrun
    obtain ⟨hmemo, hlasts⟩ := h st r st' hrun
    exact hR.steady hmemo hlasts
  | infer env e => exact hinfer env e
  | sequence P hP _ _ ihx ihf =>
    intro st r st' hrun
    dsimp only at hrun
    rw [bind_apply] at hrun
    split at hrun
    · rename_i a st₁ h₁
      exact hR.trans (ihx st _ st₁ h₁) (ihf a (hP h₁) st₁ r st' hrun)
    · rename_i e st₁ h₁
      cases hrun
      exact ihx st _ _ h₁
    · cases hrun
  | answer q key hq _ ih => exact hR.answer hq ih

/-- Inferences keep to it, however deep they may go, -/
theorem infer (depth : Nat) (env : Env) (e : Expr) : (inferWithin depth table env e).Along R := by
  induction depth generalizing env e with
  | zero =>
    intro st r st' h
    cases h
  | succ depth ih => exact hR.along ih (Built.rule env e)

/-- and so does all that is put together of inferences. -/
theorem built (hx : Built (.within depth table) x) : (x ()).Along R :=
  hR.along (hR.infer depth) hx

end Infer.Robust

/-- Inferences keep the bindings of an acyclic store, and keep it acyclic. -/
theorem Infer.robust_lasts (table : SymbolTable) : Robust table fun st st' => st.store.Lasts st'.store where
  trans := .trans
  steady _ h := h
  answer := by
    intro depth q key _ h st r st' hrun
    rcases memoized_cases hrun with ⟨_, _, _, rfl⟩ | ⟨_, _, rfl⟩ | ⟨_, st₁, hcompute, rfl⟩
    · exact .refl _
    · exact .refl _
    · have hlasts := h _ _ _ hcompute
      exact hlasts

/-! ## Inference with another way to get at answers -/

/-- what an expression denotes, going at most `depth` levels deep, where answers are got at by `remember` -/
def inferBy (remember : SymbolId → Key → Span → Infer Ty → Infer Ty) :
    (depth : Nat) → SymbolTable → Env → Expr → Infer Denotation
  | 0, _, _, _ => Infer.tooDeep
  | depth + 1, table, env, e => Context.rule { table, infer := inferBy remember depth table, remember } env e

theorem inferBy_memoized (depth : Nat) (table : SymbolTable) :
    inferBy (Infer.memoized Infer.start) depth table = inferWithin depth table := by
  induction depth with
  | zero => rfl
  | succ depth ih =>
    funext env e
    rw [inferBy, ih, inferWithin]

end DualInference
