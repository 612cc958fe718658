/-
Expressions that denote types.

Which type an expression denotes is a matter of its form (`TypeExpr`): it is a name of a type, or a generic type applied
to expressions that denote types. Nothing else ever denotes a type, and to find out changes nothing
(`inferBy_findsTypes`). Conversely inference that goes by the rules finds the type (`TypeExpr.found`).

So it does not matter to types how answers are remembered. What is true of the types of type variables carries over to
type expressions (`TypeExpr.transport`); in environments that are alike they denote types that are alike
(`TypeExpr.alike`).
-/
import DualInference.Proofs.Inference.Limit
import DualInference.Proofs.Inference.Results
import DualInference.Proofs.Inference.Rules

namespace DualInference

/-- the type that an expression denotes by its form -/
inductive TypeExpr (tab : SymbolTable) (s : Store) (env : Env) : Expr → Ty → Prop
  | typeVar {span : Span} {ident : Ident} {t : Ty} (h : env.meaning? tab ident.name = some (.typeVar t)) :
    TypeExpr tab s env (.name span ident) ((s.deref? t).getD t)
  | scalar {span : Span} {ident : Ident} {c : Scalar} (h : env.meaning? tab ident.name = some (.builtin (.scalar c))) :
    TypeExpr tab s env (.name span ident) (.scalar c)
  | bare {span : Span} {ident : Ident} {origin : Origin} {kind : AggregateKind} {d : Aggregate}
    (h : env.meaning? tab ident.name = some (.aggregate origin kind d)) (hlen : 0 = d.typeVars.length) :
    TypeExpr tab s env (.name span ident) (.aggregate kind origin.id [])
  | array {span span' : Span} {ident : Ident} {e : Expr} {t : Ty}
    (h : env.meaning? tab ident.name = some (.builtin .array)) (he : TypeExpr tab s env e t) :
    TypeExpr tab s env (.index span (.name span' ident) [e]) (.array t)
  | ref {span span' : Span} {ident : Ident} {e : Expr} {t : Ty}
    (h : env.meaning? tab ident.name = some (.builtin .ref)) (he : TypeExpr tab s env e t) :
    TypeExpr tab s env (.index span (.name span' ident) [e]) (.ref t)
  | arrayValue {span span' : Span} {ident : Ident} {e size : Expr} {t : Ty} {n : Nat}
    (h : env.meaning? tab ident.name = some (.builtin .arrayValue)) (he : TypeExpr tab s env e t)
    (hsize : size.natLiteral? = some n) :
    TypeExpr tab s env (.index span (.name span' ident) [e, size]) (.arrayValue t n)
  | applied {span span' : Span} {ident : Ident} {origin : Origin} {kind : AggregateKind} {d : Aggregate}
    {es : List Expr} {ts : List Ty} (h : env.meaning? tab ident.name = some (.aggregate origin kind d))
    (hes : List.Forall₂ (TypeExpr tab s env) es ts) (hlen : ts.length = d.typeVars.length) :
    TypeExpr tab s env (.index span (.name span' ident) es) (.aggregate kind origin.id ts)

/-! ## Only these denote types -/

namespace Infer

/-- a computation whose results are values -/
def GivesValues (x : Infer Denotation) : Prop :=
  ∀ st t st', x st ≠ some (.ok (.type t), st')

theorem GivesValues.value (t : Ty) : GivesValues (pure (.value t)) := by
  intro st u st' h
  cases h

theorem GivesValues.fail (cause : Cause) (span : Span) : GivesValues (fail cause span) := by
  intro st u st' h
  cases h

theorem GivesValues.bind {α : Type} (x : Infer α) {f : α → Infer Denotation} (hf : ∀ a, (f a).GivesValues) :
    (x >>= f).GivesValues := by
  intro st t st' h
  obtain ⟨a, st₁, _, ha⟩ := bind_eq_ok.1 h
  exact hf a st₁ t st' ha

end Infer

namespace Context

variable {cx : Context} {env : Env} {st st' : State}

theorem callType_givesValues (span : Span) (callee : Expr) (args : List Expr) :
    (cx.callType span env callee args).GivesValues :=
  .bind _ fun _ => .bind _ fun _ => .bind _ fun _ => .bind _ fun _ => .bind _ fun _ => .value _

theorem call_givesValues (span : Span) (callee : Expr) (args : List Expr) :
    (cx.call span env callee args).GivesValues := by
  unfold call
  split
  · exact callType_givesValues span callee args
  · refine .bind _ fun m => ?_
    split
    · exact .bind _ fun _ => .value _
    · exact .bind _ fun _ => .bind _ fun _ => .bind _ fun _ => .bind _ fun _ => .bind _ fun _ => .bind _ fun _ =>
        .value _
    · exact .bind _ fun _ => .bind _ fun _ => .value _
    · exact .fail _ _
    · exact callType_givesValues span callee args

theorem arrayElement_givesValues (span : Span) (base : Expr) (indexes : List Expr) :
    (cx.arrayElement span env base indexes).GivesValues := by
  refine .bind _ fun t => .bind _ fun element => ?_
  split
  · exact .bind _ fun _ => .bind _ fun _ => .value _
  · exact .fail _ _

/-- types are found without effect, by the form of expressions -/
def FindsTypes (cx : Context) : Prop :=
  ∀ {env e st t st'}, cx.infer env e st = some (.ok (.type t), st') → st' = st ∧ TypeExpr cx.table st.store env e t

theorem FindsTypes.types (h : cx.FindsTypes) {es : List Expr} {ts : List Ty}
    (hrun : cx.types env es st = some (.ok ts, st')) :
    st' = st ∧ List.Forall₂ (TypeExpr cx.table st.store env) es ts := by
  induction es generalizing ts st st' with
  | nil =>
    cases hrun
    exact ⟨rfl, .nil⟩
  | cons e es ih =>
    obtain ⟨t, st₁, ht, hrun₁⟩ := Infer.bind_eq_ok.1 hrun
    obtain ⟨ts', st₂, hts, hrun₂⟩ := Infer.bind_eq_ok.1 hrun₁
    obtain ⟨rfl, he⟩ := h (type_eq_ok.1 ht)
    obtain ⟨rfl, hes⟩ := ih hts
    cases hrun₂
    exact ⟨rfl, .cons he hes⟩

theorem typeExpr_of_name {span : Span} {ident : Ident} {t : Ty}
    (hrun : cx.name env ident st = some (.ok (.type t), st')) :
    st' = st ∧ TypeExpr cx.table st.store env (.name span ident) t := by
  obtain ⟨m, st₁, hmeaning, hrun₁⟩ := Infer.bind_eq_ok.1 hrun
  obtain ⟨hm, rfl⟩ := meaning_eq_ok.1 hmeaning
  cases m with
  | typeVar u =>
    cases hrun₁
    exact ⟨rfl, .typeVar hm⟩
  | builtin b =>
    cases b with
    | scalar c =>
      cases hrun₁
      exact ⟨rfl, .scalar hm⟩
    | _ => cases hrun₁
  | aggregate origin kind d =>
    obtain ⟨u, st₂, hu, hrun₂⟩ := Infer.bind_eq_ok.1 hrun₁
    obtain ⟨⟨hlen, rfl⟩, rfl⟩ := instantiate_eq_ok.1 hu
    cases hrun₂
    exact ⟨rfl, .bare hm hlen⟩
  | global origin d group position =>
    obtain ⟨u, st₂, _, hrun₂⟩ := Infer.bind_eq_ok.1 hrun₁
    cases hrun₂
  | _ => cases hrun₁

theorem FindsTypes.typeParam (h : cx.FindsTypes) {span : Span} {params : List Expr} {t : Ty}
    (hrun : cx.typeParam span env params st = some (.ok t, st')) :
    st' = st ∧ ∃ e, params = [e] ∧ TypeExpr cx.table st.store env e t := by
  unfold Context.typeParam at hrun
  split at hrun
  · rename_i e
    obtain ⟨rfl, he⟩ := h (type_eq_ok.1 hrun)
    exact ⟨rfl, e, rfl, he⟩
  · cases hrun

theorem FindsTypes.arrayValueType (h : cx.FindsTypes) {span : Span} {params : List Expr} {t : Ty}
    (hrun : cx.arrayValueType span env params st = some (.ok t, st')) :
    st' = st ∧ ∃ e size u n, params = [e, size] ∧ t = .arrayValue u n ∧ TypeExpr cx.table st.store env e u ∧
      size.natLiteral? = some n := by
  unfold Context.arrayValueType at hrun
  split at hrun
  · rename_i e size
    obtain ⟨u, st₁, hu, hrun₁⟩ := Infer.bind_eq_ok.1 hrun
    obtain ⟨n, st₂, hn, hrun₂⟩ := Infer.bind_eq_ok.1 hrun₁
    obtain ⟨rfl, he⟩ := h (type_eq_ok.1 hu)
    obtain ⟨hsize, rfl⟩ := natLiteral_eq_ok.1 hn
    cases hrun₂
    exact ⟨rfl, e, size, u, n, rfl, rfl, he, hsize⟩
  · cases hrun

theorem FindsTypes.index (h : cx.FindsTypes) {span : Span} {base : Expr} {indexes : List Expr} {t : Ty}
    (hrun : cx.index span env base indexes st = some (.ok (.type t), st')) :
    st' = st ∧ TypeExpr cx.table st.store env (.index span base indexes) t := by
  have helement : ∀ {st₁}, cx.arrayElement span env base indexes st₁ ≠ some (.ok (.type t), st') :=
    fun {st₁} => arrayElement_givesValues span base indexes st₁ t st'
  unfold Context.index at hrun
  cases base with
  | name span' ident =>
    obtain ⟨m, st₁, hmeaning, hrun₁⟩ := Infer.bind_eq_ok.1 hrun
    obtain ⟨hm, rfl⟩ := meaning_eq_ok.1 hmeaning
    cases m with
    | builtin b =>
      cases b with
      | array =>
        obtain ⟨u, st₂, hu, hrun₂⟩ := Infer.bind_eq_ok.1 hrun₁
        obtain ⟨rfl, e, rfl, he⟩ := h.typeParam hu
        cases hrun₂
        exact ⟨rfl, .array hm he⟩
      | ref =>
        obtain ⟨u, st₂, hu, hrun₂⟩ := Infer.bind_eq_ok.1 hrun₁
        obtain ⟨rfl, e, rfl, he⟩ := h.typeParam hu
        cases hrun₂
        exact ⟨rfl, .ref hm he⟩
      | arrayValue =>
        obtain ⟨u, st₂, hu, hrun₂⟩ := Infer.bind_eq_ok.1 hrun₁
        obtain ⟨rfl, e, size, a, n, rfl, rfl, he, hsize⟩ := h.arrayValueType hu
        cases hrun₂
        exact ⟨rfl, .arrayValue hm he hsize⟩
      | scalar c => exact absurd hrun₁ helement
    | aggregate origin kind d =>
      obtain ⟨ts, st₂, hts, hrun₂⟩ := Infer.bind_eq_ok.1 hrun₁
      obtain ⟨u, st₃, hu, hrun₃⟩ := Infer.bind_eq_ok.1 hrun₂
      obtain ⟨rfl, hes⟩ := h.types hts
      obtain ⟨⟨hlen, rfl⟩, rfl⟩ := instantiate_eq_ok.1 hu
      cases hrun₃
      exact ⟨rfl, .applied hm hes hlen⟩
    | _ => exact absurd hrun₁ helement
  | _ => exact absurd hrun helement

/-- Rules find types by the form of expressions if they are found so below. -/
theorem FindsTypes.rule (h : cx.FindsTypes) {e : Expr} {t : Ty}
    (hrun : cx.rule env e st = some (.ok (.type t), st')) : st' = st ∧ TypeExpr cx.table st.store env e t := by
  cases e with
  | name span ident => exact typeExpr_of_name hrun
  | index span base indexes => exact h.index hrun
  | call span callee args => exact absurd hrun (call_givesValues span callee args st t st')
  | addressOf span operand => exact absurd hrun (Infer.GivesValues.bind _ (fun _ => .value _) st t st')
  | field span base name =>
    refine absurd hrun (Infer.GivesValues.bind _ (fun u => .bind _ fun fields => ?_) st t st')
    split
    · exact .value _
    · exact .fail _ _
  | element span base position =>
    exact absurd hrun (Infer.GivesValues.bind _ (fun _ => .bind _ fun _ => .bind _ fun _ => .value _) st t st')
  | pointee span base => exact absurd hrun (Infer.GivesValues.bind _ (fun _ => .bind _ fun _ => .value _) st t st')
  | array span elements => exact absurd hrun (Infer.GivesValues.bind _ (fun _ => .value _) st t st')
  | tuple span elements => exact absurd hrun (Infer.GivesValues.bind _ (fun _ => .value _) st t st')
  | bool span b => cases hrun
  | int span n => cases hrun
  | char span c => cases hrun

end Context

theorem inferBy_findsTypes (remember : SymbolId → Key → Span → Infer Ty → Infer Ty) (n : Nat) (table : SymbolTable) :
    Context.FindsTypes { table, infer := inferBy remember n table, remember } := by
  induction n with
  | zero =>
    intro env e st t st' h
    cases h
  | succ n ih =>
    intro env e st t st' h
    exact ih.rule h

theorem inferFully_findsTypes {remember : SymbolId → Key → Span → Infer Ty → Infer Ty}
    (hremember : Infer.Continuous remember) (table : SymbolTable) :
    Context.FindsTypes { table, infer := inferFully remember table, remember } := by
  intro env e st t st' h
  obtain ⟨n, hn⟩ := (inferFully_reached hremember table).1 h
  exact inferBy_findsTypes remember n table hn

/-! ## All these denote types -/

/-- Induction over the expressions that denote types. Of an applied aggregate, all indexes may be assumed. -/
theorem TypeExpr.induct {tab : SymbolTable} {s : Store} {env : Env} {motive : ∀ e t, TypeExpr tab s env e t → Prop}
    (typeVar : ∀ {span ident t} (h : env.meaning? tab ident.name = some (.typeVar t)),
      motive (.name span ident) ((s.deref? t).getD t) (.typeVar h))
    (scalar : ∀ {span ident c} (h : env.meaning? tab ident.name = some (.builtin (.scalar c))),
      motive (.name span ident) (.scalar c) (.scalar h))
    (bare : ∀ {span ident origin kind d} (h : env.meaning? tab ident.name = some (.aggregate origin kind d))
      (hlen : 0 = d.typeVars.length), motive (.name span ident) (.aggregate kind origin.id []) (.bare h hlen))
    (array : ∀ {span span' ident e t} (h : env.meaning? tab ident.name = some (.builtin .array))
      (he : TypeExpr tab s env e t), motive e t he →
      motive (.index span (.name span' ident) [e]) (.array t) (.array h he))
    (ref : ∀ {span span' ident e t} (h : env.meaning? tab ident.name = some (.builtin .ref))
      (he : TypeExpr tab s env e t), motive e t he → motive (.index span (.name span' ident) [e]) (.ref t) (.ref h he))
    (arrayValue : ∀ {span span' ident e size t n} (h : env.meaning? tab ident.name = some (.builtin .arrayValue))
      (he : TypeExpr tab s env e t) (hsize : size.natLiteral? = some n), motive e t he →
      motive (.index span (.name span' ident) [e, size]) (.arrayValue t n) (.arrayValue h he hsize))
    (applied : ∀ {span span' ident origin kind d es ts}
      (h : env.meaning? tab ident.name = some (.aggregate origin kind d))
      (hes : List.Forall₂ (TypeExpr tab s env) es ts) (hlen : ts.length = d.typeVars.length),
      List.Forall₂ (fun e t => ∃ he, motive e t he) es ts →
      motive (.index span (.name span' ident) es) (.aggregate kind origin.id ts) (.applied h hes hlen))
    {e : Expr} {t : Ty} (h : TypeExpr tab s env e t) : motive e t h :=
  @TypeExpr.rec tab s env motive (fun es ts _ => List.Forall₂ (fun e t => ∃ he, motive e t he) es ts) typeVar scalar bare
    array ref arrayValue applied .nil (fun he _ ih ihs => .cons ⟨he, ih⟩ ihs) e t h

/-- Inference that goes by the rule finds the type that an expression denotes by its form. -/
theorem TypeExpr.found {cx : Context} (hrule : ∀ env e, cx.infer env e = cx.rule env e) {env : Env} {st : State}
    {e : Expr} {t : Ty} (h : TypeExpr cx.table st.store env e t) :
    cx.infer env e st = some (.ok (.type t), st) := by
  induction h using TypeExpr.induct with
  | typeVar h =>
    rw [hrule]
    exact Infer.bind_eq_ok.2 ⟨_, st, Context.meaning_eq_ok.2 ⟨h, rfl⟩, rfl⟩
  | scalar h =>
    rw [hrule]
    exact Infer.bind_eq_ok.2 ⟨_, st, Context.meaning_eq_ok.2 ⟨h, rfl⟩, rfl⟩
  | bare h hlen =>
    rw [hrule]
    refine Infer.bind_eq_ok.2 ⟨_, st, Context.meaning_eq_ok.2 ⟨h, rfl⟩, ?_⟩
    exact Infer.bind_eq_ok.2 ⟨_, st, Context.instantiate_eq_ok.2 ⟨⟨hlen, rfl⟩, rfl⟩, rfl⟩
  | @array _ _ _ e t h _ ih =>
    rw [hrule]
    refine Infer.bind_eq_ok.2 ⟨_, st, Context.meaning_eq_ok.2 ⟨h, rfl⟩, ?_⟩
    exact Infer.bind_eq_ok.2 ⟨t, st, Context.type_eq_ok.2 ih, rfl⟩
  | @ref _ _ _ e t h _ ih =>
    rw [hrule]
    refine Infer.bind_eq_ok.2 ⟨_, st, Context.meaning_eq_ok.2 ⟨h, rfl⟩, ?_⟩
    exact Infer.bind_eq_ok.2 ⟨t, st, Context.type_eq_ok.2 ih, rfl⟩
  | @arrayValue _ _ _ e size t n h _ hsize ih =>
    rw [hrule]
    refine Infer.bind_eq_ok.2 ⟨_, st, Context.meaning_eq_ok.2 ⟨h, rfl⟩, ?_⟩
    refine Infer.bind_eq_ok.2 ⟨.arrayValue t n, st, ?_, rfl⟩
    refine Infer.bind_eq_ok.2 ⟨t, st, Context.type_eq_ok.2 ih, ?_⟩
    exact Infer.bind_eq_ok.2 ⟨n, st, natLiteral_eq_ok.2 ⟨hsize, rfl⟩, rfl⟩
  | @applied _ _ _ origin kind d es ts h _ hlen ih =>
    rw [hrule]
    refine Infer.bind_eq_ok.2 ⟨_, st, Context.meaning_eq_ok.2 ⟨h, rfl⟩, ?_⟩
    have htypes := Context.types_of_infer (ih.imp fun _ _ hinfer => hinfer.choose_spec)
    refine Infer.bind_eq_ok.2 ⟨ts, st, htypes, ?_⟩
    exact Infer.bind_eq_ok.2 ⟨_, st, Context.instantiate_eq_ok.2 ⟨⟨hlen, rfl⟩, rfl⟩, rfl⟩

/-! ## In environments that are alike -/

/-- Names that do not come from the front of the environment mean the same in environments that are alike. -/
theorem Env.meaning?_declared {tab : SymbolTable} {lv : Level} {V : Pairing} {env env' : Env}
    (h : (Likeness.env tab lv).rel V env env') {name : String} {m : Meaning} (hm : env.meaning? tab name = some m)
    (htype : ∀ t, m ≠ .typeVar t) (hlocal : ∀ t, m ≠ .localVar t) :
    env'.meaning? tab name = some m ∧ ∃ id symbol, tab.symbol? id = some symbol ∧ symbol.meaning id = m := by
  rcases Ty.rel_cases (Env.meaning?_alike h name) with ⟨hm', _⟩ | ⟨a, b, ha, hb, hab⟩
  · rw [hm] at hm'
    cases hm'
  · rw [hm] at ha
    cases ha
    rw [hb]
    cases hab with
    | typeVar _ => exact absurd rfl (htype _)
    | localVar _ => exact absurd rfl (hlocal _)
    | symbol hsym => exact ⟨rfl, _, _, hsym, rfl⟩

theorem Symbol.meaning_ne_typeVar {id : SymbolId} {symbol : Symbol} (h : SymbolTable.Declared symbol) (t : Ty) :
    symbol.meaning id ≠ .typeVar t := by
  obtain ⟨name, home, k⟩ := symbol
  cases k with
  | typeVar span u => exact h.elim
  | _ => nofun

/-- What is true of the types of type variables is true of the types of type expressions, if it is true of wrapped types
and of aggregates whenever it is true of their parts. All other names have to mean the same in both environments. -/
theorem TypeExpr.transport {tab : SymbolTable} {s s' : Store} {env env' : Env} {R : Ty → Ty → Prop}
    (hdeclared : ∀ {name m}, env.meaning? tab name = some m → (∀ t, m ≠ .typeVar t) → (∀ t, m ≠ .localVar t) →
      env'.meaning? tab name = some m)
    (htypeVar : ∀ {name t}, env.meaning? tab name = some (.typeVar t) →
      ∃ u, env'.meaning? tab name = some (.typeVar u) ∧ R ((s.deref? t).getD t) ((s'.deref? u).getD u))
    (hscalar : ∀ c, R (.scalar c) (.scalar c)) (hwrap : ∀ w {t u}, R t u → R (.wrap w t) (.wrap w u))
    (haggregate : ∀ {name origin kind d ts us}, env.meaning? tab name = some (.aggregate origin kind d) →
      ts.length = d.typeVars.length → List.Forall₂ R ts us →
      R (.aggregate kind origin.id ts) (.aggregate kind origin.id us))
    {e : Expr} {t : Ty} (h : TypeExpr tab s env e t) : ∃ u, TypeExpr tab s' env' e u ∧ R t u := by
  induction h using TypeExpr.induct with
  | typeVar h =>
    obtain ⟨u, hu, htu⟩ := htypeVar h
    exact ⟨_, .typeVar hu, htu⟩
  | @scalar _ _ c h => exact ⟨_, .scalar (hdeclared h nofun nofun), hscalar c⟩
  | bare h hlen => exact ⟨_, .bare (hdeclared h nofun nofun) hlen, haggregate h hlen .nil⟩
  | array h _ ih =>
    obtain ⟨u, hu, htu⟩ := ih
    exact ⟨_, .array (hdeclared h nofun nofun) hu, hwrap .array htu⟩
  | ref h _ ih =>
    obtain ⟨u, hu, htu⟩ := ih
    exact ⟨_, .ref (hdeclared h nofun nofun) hu, hwrap .ref htu⟩
  | @arrayValue _ _ _ _ _ _ n h _ hsize ih =>
    obtain ⟨u, hu, htu⟩ := ih
    exact ⟨_, .arrayValue (hdeclared h nofun nofun) hu hsize, hwrap (.arrayValue n) htu⟩
  | @applied _ _ _ origin kind d es ts h hes hlen ih =>
    have hall : ∃ us, List.Forall₂ (TypeExpr tab s' env') es us ∧ List.Forall₂ R ts us := by
      clear hes hlen
      induction ih with
      | nil => exact ⟨[], .nil, .nil⟩
      | cons hu _ ih' =>
        obtain ⟨_, u, hu, htu⟩ := hu
        obtain ⟨us, hus, htus⟩ := ih'
        exact ⟨u :: us, .cons hu hus, .cons htu htus⟩
    obtain ⟨us, hus, htus⟩ := hall
    exact ⟨_, .applied (hdeclared h nofun nofun) hus (htus.length_eq ▸ hlen), haggregate h hlen htus⟩

/-- In environments that are alike, expressions denote types that are alike. -/
theorem TypeExpr.alike {tab : SymbolTable} {items : List Item} (hset : tab.Settled items) {lv : Level} {V : Pairing}
    {s s' : Store} (hs : Store.Paired tab.Forms (lv.at V) s s') {env env' : Env}
    (henv : (Likeness.env tab lv).rel V env env') {e : Expr} {t : Ty} (h : TypeExpr tab s env e t) :
    ∃ u, TypeExpr tab s' env' e u ∧ t.Alike tab.Forms (lv.at V) u := by
  refine h.transport (fun hm htype hlocal => (Env.meaning?_declared henv hm htype hlocal).1) ?_ .scalar
    (fun w _ _ htu => .wrap w htu) ?_
  · intro name t hm
    rcases Ty.rel_cases (Env.meaning?_alike henv name) with ⟨hm', _⟩ | ⟨a, b, ha, hb, hab⟩
    · rw [hm] at hm'
      cases hm'
    · rw [hm] at ha
      cases ha
      generalize heq : Meaning.typeVar t = m at hab
      cases hab with
      | @typeVar _ u hab =>
        cases heq
        refine ⟨u, hb, ?_⟩
        rcases Ty.rel_cases (hs.deref? hab) with ⟨hd, hd'⟩ | ⟨t', u', hd, hd', htu⟩
        · rw [hd, hd']
          exact hab
        · rw [hd, hd']
          exact htu.mono (lv.none_le_at V)
      | localVar hab => cases heq
      | symbol hsym => exact absurd heq.symm (Symbol.meaning_ne_typeVar (hset.declared hsym) t)
  · intro name origin kind d ts us hm hlen htus
    obtain ⟨_, id, symbol, hsym, hmeaning⟩ := Env.meaning?_declared henv hm nofun nofun
    obtain ⟨rfl, rfl⟩ := Symbol.meaning_eq_aggregate hmeaning
    exact .compound _ ⟨_, _, d, hsym, hlen.symm⟩ htus

end DualInference
