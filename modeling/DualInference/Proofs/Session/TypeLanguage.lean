/-
The language of types.

Types and values share their expressions; which expressions denote types can be read off their form and off what the
names in them mean (`Expr.denoted?`): a type without parameters, a type variable, or a generic type applied to as many
expressions that denote types as it takes.

Main result: `types_denoted_by_form`. In every session, inference comes to a type exactly for these expressions, and to the
type that is composed as the expression is. A type variable stands for its own type up to bindings. To find the type
changes nothing.
-/
import DualInference.Proofs.Session.Bindings

namespace DualInference

/-! ## Types by form -/

namespace Expr

mutual

/-- the type that an expression denotes by its form, if it denotes one; `leaf` is what is made of the type of a type
variable -/
def denoted? (tab : SymbolTable) (env : Env) (leaf : Ty → Ty) : Expr → Option Ty
  | .name _ ident =>
    match env.meaning? tab ident.name with
    | some (.builtin b) => b.scalar?
    | some (.typeVar t) => some (leaf t)
    | some (.aggregate origin kind d) => if d.typeVars = [] then some (.aggregate kind origin.id []) else none
    | _ => none
  | .index _ (.name _ ident) args =>
    match env.meaning? tab ident.name with
    | some (.builtin .array) =>
      match args with
      | [e] => (denoted? tab env leaf e).map .array
      | _ => none
    | some (.builtin .ref) =>
      match args with
      | [e] => (denoted? tab env leaf e).map .ref
      | _ => none
    | some (.builtin .arrayValue) =>
      match args with
      | [e, size] => do
        let t ← denoted? tab env leaf e
        let n ← size.natLiteral?
        return .arrayValue t n
      | _ => none
    | some (.aggregate origin kind d) => do
      let ts ← denotedList? tab env leaf args
      if ts.length = d.typeVars.length then some (.aggregate kind origin.id ts) else none
    | _ => none
  | _ => none

def denotedList? (tab : SymbolTable) (env : Env) (leaf : Ty → Ty) : List Expr → Option (List Ty)
  | [] => some []
  | e :: es => do
    let t ← denoted? tab env leaf e
    return t :: (← denotedList? tab env leaf es)

end

theorem denotedList?_eq_some {tab : SymbolTable} {env : Env} {leaf : Ty → Ty} {es : List Expr} {ts : List Ty} :
    denotedList? tab env leaf es = some ts ↔ List.Forall₂ (fun e t => e.denoted? tab env leaf = some t) es ts := by
  induction es generalizing ts with
  | nil =>
    rw [denotedList?, List.forall₂_nil_left_iff, Option.some.injEq]
    exact eq_comm
  | cons e es ih =>
    rw [denotedList?]
    constructor
    · intro h
      obtain ⟨t, ht, h⟩ := Option.bind_eq_some_iff.1 h
      obtain ⟨us, hus, h⟩ := Option.bind_eq_some_iff.1 h
      cases h
      exact .cons ht (ih.1 hus)
    · intro h
      cases h with
      | cons ht hts => simp only [ht, ih.2 hts, Option.bind_eq_bind, Option.bind_some, Option.pure_def]

end Expr

/-- a type in its variable-free form, if it has one -/
def Store.known (s : Store) (t : Ty) : Ty :=
  (s.deref? t).getD t

/-- The known form of a type is the type, up to bindings. -/
theorem Store.WellFormed.equal_known {s : Store} (hs : s.WellFormed) {t : Ty} (ht : s.Covers t) :
    s.equal (s.known t) t = true := by
  unfold Store.known
  cases hd : s.deref? t with
  | none => exact (Store.equal_iff hs ht ht).2 rfl
  | some u =>
    have hclosed := Store.vars_deref? hd
    have hu : s.Covers u := below_closed hclosed
    rw [Option.getD_some, Store.equal_iff hs hu ht, Store.resolve_of_deref? hs.acyclic hd]
    exact Store.resolve_closed hs.acyclic hclosed

section

variable {tab : SymbolTable} {s : Store} {env : Env}

theorem TypeExpr.denoted? {e : Expr} {t : Ty} (h : TypeExpr tab s env e t) : e.denoted? tab env s.known = some t := by
  induction h using TypeExpr.induct with
  | typeVar h => simp only [Expr.denoted?, h, Store.known]
  | scalar h => simp only [Expr.denoted?, h, Builtin.scalar?]
  | bare h hlen => simp only [Expr.denoted?, h, List.length_eq_zero_iff.1 hlen.symm, if_true]
  | array h _ ih => simp only [Expr.denoted?, h, ih, Option.map_some]
  | ref h _ ih => simp only [Expr.denoted?, h, ih, Option.map_some]
  | arrayValue h _ hsize ih =>
    simp only [Expr.denoted?, h, ih, hsize, Option.bind_eq_bind, Option.bind_some, Option.pure_def]
  | applied h _ hlen ih =>
    have hts := Expr.denotedList?_eq_some.2 (ih.imp fun _ _ he => he.choose_spec)
    unfold Expr.denoted?
    simp only [h, hts, Option.bind_eq_bind, Option.bind_some, hlen, if_true]

mutual

/-- What an expression denotes by its form is found by its form. -/
theorem TypeExpr.of_denoted? : ∀ {e : Expr} {t : Ty}, e.denoted? tab env s.known = some t → TypeExpr tab s env e t
  | .name span ident, t, h => by
    rw [Expr.denoted?] at h
    split at h
    · rename_i b hb
      cases b with
      | scalar c =>
        cases h
        exact .scalar hb
      | _ => cases h
    · rename_i u hu
      cases h
      exact .typeVar hu
    · rename_i origin kind d hd
      split at h
      · rename_i hnil
        cases h
        exact .bare hd (by rw [hnil, List.length_nil])
      · cases h
    · cases h
  | .index span (.name span' ident) args, t, h => by
    unfold Expr.denoted? at h
    split at h
    · rename_i hb
      split at h
      · obtain ⟨u, hu, rfl⟩ := Option.map_eq_some_iff.1 h
        exact .array hb (TypeExpr.of_denoted? hu)
      · cases h
    · rename_i hb
      split at h
      · obtain ⟨u, hu, rfl⟩ := Option.map_eq_some_iff.1 h
        exact .ref hb (TypeExpr.of_denoted? hu)
      · cases h
    · rename_i hb
      split at h
      · obtain ⟨u, hu, h⟩ := Option.bind_eq_some_iff.1 h
        obtain ⟨n, hn, h⟩ := Option.bind_eq_some_iff.1 h
        cases h
        exact .arrayValue hb (TypeExpr.of_denoted? hu) hn
      · cases h
    · rename_i hd
      obtain ⟨ts, hts, h⟩ := Option.bind_eq_some_iff.1 h
      split at h
      · rename_i hlen
        cases h
        exact .applied hd (TypeExpr.of_denotedList? hts) hlen
      · cases h
    · cases h

theorem TypeExpr.of_denotedList? : ∀ {es : List Expr} {ts : List Ty},
    Expr.denotedList? tab env s.known es = some ts → List.Forall₂ (TypeExpr tab s env) es ts
  | [], ts, h => by
    cases h
    exact .nil
  | e :: es, ts, h => by
    obtain ⟨t, ht, h⟩ := Option.bind_eq_some_iff.1 h
    obtain ⟨us, hus, h⟩ := Option.bind_eq_some_iff.1 h
    cases h
    exact .cons (TypeExpr.of_denoted? ht) (TypeExpr.of_denotedList? hus)

end

end

/-! ## Main result -/

/-- **Types are denoted by form.** In every session that steps lead to, and in every scope, an inference comes to a type
if and only if the expression denotes that type by its form, each type variable standing for its own type up to bindings;
and it leaves the state as it was. -/
theorem types_denoted_by_form {items : List Item} {m : Module} (hm : Module.ofItems items = .ok m) {s : Session}
    (hs : (Session.ofModule m).Leads s) (scope : ScopeId) : ∃ leaf : Ty → Ty,
      (∀ name t, Env.meaning? s.table { scope } name = some (.typeVar t) → s.state.store.equal (leaf t) t = true) ∧
      ∀ e t st', (∃ depth, inferWithin depth s.table { scope } e s.state = some (.ok (.type t), st')) ↔
        e.denoted? s.table { scope } leaf = some t ∧ st' = s.state := by
  have hconfined := (hs.keeps (Session.confined_ofModule hm)).1.state
  refine ⟨s.state.store.known, fun name t ht => ?_, fun e t st' => ⟨?_, ?_⟩⟩
  · exact hconfined.store.equal_known (hconfined.meaning?_below (Env.below_scope scope) ht)
  · rintro ⟨depth, hrun⟩
    rw [← inferBy_memoized] at hrun
    obtain ⟨hst, htype⟩ := inferBy_findsTypes (Infer.memoized Infer.start) depth s.table hrun
    exact ⟨htype.denoted?, hst⟩
  · rintro ⟨ht, rfl⟩
    have hrule : ∀ env e, (Context.fully Infer.kept s.table).infer env e = (Context.fully Infer.kept s.table).rule env e :=
      inferFully_eq Infer.continuous_memoized s.table
    have hfound := (TypeExpr.of_denoted? ht).found hrule
    obtain ⟨depth, hrun⟩ := (inferFully_reached Infer.continuous_memoized s.table).1 hfound
    rw [inferBy_memoized] at hrun
    exact ⟨depth, hrun⟩

/-- a session on the box program with a type variable `E` -/
def elementSession : Session :=
  (Session.ofModule boxModule).after 8
    [{ request := .fresh "a" }, { request := .bind { name := "E" } (.typeVar (.var "a") {}) 0 true }]

/-- `Box[E]` -/
def boxOfElement : Expr :=
  .index {} (.bare "Box") [.bare "E"]

/-- `Box[E]` denotes a box of the type of `E` by its form, and inference finds that type. -/
theorem box_of_element_denoted : ∃ leaf : Ty → Ty,
    (∀ name t, Env.meaning? elementSession.table boxModule.env name = some (.typeVar t) →
      elementSession.state.store.equal (leaf t) t = true) ∧
    inferWithin 8 elementSession.table boxModule.env boxOfElement elementSession.state =
      some (.ok (.type (.aggregate .record 30 [.var 0])), elementSession.state) ∧
    boxOfElement.denoted? elementSession.table boxModule.env leaf = some (.aggregate .record 30 [.var 0]) := by
  have hrun : inferWithin 8 elementSession.table boxModule.env boxOfElement elementSession.state =
      some (.ok (.type (.aggregate .record 30 [.var 0])), elementSession.state) := by decide +kernel
  have hs : (Session.ofModule boxModule).Leads elementSession := by
    unfold elementSession
    exact Session.leads_after 8 _ _
  obtain ⟨leaf, hleaf, hiff⟩ := types_denoted_by_form ofItems_boxProgram hs boxModule.scope
  exact ⟨leaf, hleaf, hrun, ((hiff boxOfElement _ _).1 ⟨8, hrun⟩).1⟩

end DualInference
