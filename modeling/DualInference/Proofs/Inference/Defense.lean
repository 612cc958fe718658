/-
Branches that are there for safety's sake.

Some errors are for cases that should not come up: a declaration whose home is gone, parameters given to something that is
no aggregate, an operation that has a signature where those without are looked at (`Cause.isDefensive`). And nothing looks
whether a type has as many parameters as its declaration has type variables when its fields are read. If it had fewer,
some type variables would have no type; if it had more, some parameters would be forgotten. Here this is looked at
(`Context.fieldTypesChecked`), and if it is not so, inference ends with an error that nothing else gives. If inference with
the check comes out as it does without, whatever it is allowed in depth, and never with that error, the check is passed
wherever it stands.

In a sheltered table, all that can be opened is at home in one scope, and this scope is alive (`SymbolTable.Sheltered`).
Types are arranged if every aggregate in them has as many parameters as it declares. A computation is defended if, from a
state with arranged types only, it comes to such a state again, with a result of the kind that is asked for, or with an
error that is not defensive, and if another computation, in which there are checks, does the same (`Infer.Defended`).
-/
import DualInference.Inference.Infer
import DualInference.Proofs.Inference.Parameters
import DualInference.Proofs.Inference.Results
import DualInference.Proofs.Inference.Simulation
import DualInference.Proofs.Store.Arranged

namespace DualInference

/-! ## Causes that should not come up -/

/-- what a failed check on parameters is called -/
def misfit : String :=
  "parameters that do not fit the declaration"

/-- is the cause given by a branch that is there for safety's sake, or by a failed check -/
def Cause.isDefensive : Cause → Bool
  | .scopeClosed _ => true
  | .kindMismatch _ expected => expected = "a record or struct" ∨ expected = "a polymorphic primitive"
  | .unsupported what => what = misfit
  | _ => false

/-! ## Checks where fields are read -/

/-- the symbol of an aggregate type is an aggregate, there is a parameter for each of its type variables, and each of
these is bound in the frame that its fields are read in; other types pass -/
def SymbolTable.fits (tab : SymbolTable) (s : Store) (t : Ty) : Bool :=
  match (s.prune t).aggregate? with
  | some (id, params) =>
    match (tab.symbol? id).map (Symbol.meaning id) with
    | some (.aggregate _ _ d) =>
      params.length == d.typeVars.length &&
        match Frame.ofTypeVars d.typeVars params with
        | .ok frame => d.typeVars.all fun v => (frame.lookup v.name).isSome
        | .error _ => true
    | _ => false
  | none => true

/-- go on only if the state passes the test -/
def Infer.check (test : State → Bool) (span : Span) : Infer Unit :=
  fun st => if test st then some (.ok (), st) else some (.error ⟨.unsupported misfit, span⟩, st)

namespace Context

variable (cx : Context)

/-- the fields of an aggregate type, whose parameters have to fit -/
def fieldTypesChecked (t : Ty) (span : Span) : Infer (List (String × Ty)) := do
  Infer.check (fun st => cx.table.fits st.store t) span
  cx.fieldTypes t span

/-- `base.name`, with the check -/
def fieldChecked (env : Env) (base : Expr) (name : Ident) : Infer Denotation := do
  let t ← cx.value env base
  match (← cx.fieldTypesChecked t base.span).lookup name.name with
  | some u => return .value u
  | none => Infer.fail (.undefinedName name.name) name.span

/-- a call on a type or on a value of one, with the check -/
def callTypeChecked (span : Span) (env : Env) (callee : Expr) (args : List Expr) : Infer Denotation := do
  let d ← cx.infer env callee
  let t := (← Infer.store).prune d.ty
  let fields ← cx.fieldTypesChecked t callee.span
  arity "argument(s)" fields.length args.length span
  cx.compareFields env fields args
  return .value t

/-- `callee(arg, …)`, with the check -/
def callChecked (span : Span) (env : Env) (callee : Expr) (args : List Expr) : Infer Denotation :=
  match callee.bareName? with
  | none => cx.callTypeChecked span env callee args
  | some name => do
    match ← cx.meaning env name with
    | .primitive op => return .value (← cx.callPrimitive op span env args)
    | .aggregate origin kind d => cx.construct origin kind d span env args
    | .procedure origin d => cx.callProcedure origin d span env args
    | .overloadable => Infer.fail (.unsupported "calls to overloadable procedures") span
    | _ => cx.callTypeChecked span env callee args

/-- the rule for an expression, with a check wherever fields are read -/
def ruleChecked (env : Env) : Expr → Infer Denotation
  | .call span callee args => cx.callChecked span env callee args
  | .field _ base name => cx.fieldChecked env base name
  | e => cx.rule env e

end Context

/-- what an expression denotes, going at most `depth` levels deep, with a check wherever fields are read -/
def inferChecked : (depth : Nat) → SymbolTable → Env → Expr → Infer Denotation
  | 0, _, _, _ => Infer.tooDeep
  | depth + 1, table, env, e => Context.ruleChecked { table, infer := inferChecked depth table } env e

/-- the type of a value or a denoted type, going at most `depth` levels deep, with a check wherever fields are read -/
def projectChecked (depth : Nat) (table : SymbolTable) (side : Side) (env : Env) (e : Expr) (shape : Option Shape) :
    Infer Ty :=
  Context.project { table, infer := inferChecked depth table } side env e shape

/-! ## Sheltered tables and arranged states -/

/-- every aggregate in the type has as many parameters as its symbol declares type variables -/
abbrev SymbolTable.Arranges (tab : SymbolTable) (t : Ty) : Prop :=
  t.Arranged tab.Forms

/-- What can be opened is at home in the given scope, and types are arranged. -/
def Meaning.Sheltered (tab : SymbolTable) (home : ScopeId) : Meaning → Prop
  | .typeVar t => tab.Arranges t
  | .localVar t => tab.Arranges t
  | .aggregate origin kind d =>
    origin.home = home ∧ tab.symbol? origin.id = some ⟨origin.name, origin.home, .aggregate kind d⟩
  | .procedure origin _ => origin.home = home
  | .global origin _ _ _ => origin.home = home
  | _ => True

/-- all symbols of the table are sheltered by a scope that is alive -/
structure SymbolTable.Sheltered (tab : SymbolTable) (home : ScopeId) : Prop where
  alive : tab.alive home = true
  symbols : ∀ {id symbol}, tab.symbol? id = some symbol → (symbol.meaning id).Sheltered tab home

/-- the types of all local names are arranged -/
def Frame.Arranged (tab : SymbolTable) (frame : Frame) : Prop :=
  ∀ name entry, frame.lookup name = some entry → ∀ home, entry.meaning.Sheltered tab home

/-- all types that are bound or recorded are arranged -/
structure State.Arranged (tab : SymbolTable) (st : State) : Prop where
  store : st.store.Arranged tab.Forms
  memo : ∀ {id key t}, st.memo.state? id key = some (.resolved t) → tab.Arranges t

section

variable {tab : SymbolTable}

theorem Frame.arranged_nil : Frame.Arranged tab [] :=
  nofun

theorem Frame.Arranged.add {frame frame' : Frame} (h : frame.Arranged tab) {name : Ident} {entry : LocalName}
    (hentry : ∀ home, entry.meaning.Sheltered tab home) (hadd : frame.add name entry = .ok frame') :
    frame'.Arranged tab := by
  obtain ⟨-, rfl⟩ := Frame.add_eq_ok.1 hadd
  intro name' entry' hlookup
  rw [List.lookup_cons] at hlookup
  split at hlookup
  · cases hlookup
    exact hentry
  · exact h name' entry' hlookup

theorem Frame.Arranged.ofTypeVars {names : List Ident} {ts : List Ty} (h : ∀ t ∈ ts, tab.Arranges t) {frame : Frame}
    (hframe : Frame.ofTypeVars names ts = .ok frame) : frame.Arranged tab := by
  intro name entry hlookup
  obtain ⟨j, n, t, -, ht, -, rfl⟩ := (Frame.lookup_ofTypeVars hframe name entry).1 hlookup
  exact fun _ => h t (List.mem_of_getElem? ht)

theorem Frame.Arranged.append {frame frame' : Frame} (h : frame.Arranged tab) (h' : frame'.Arranged tab) :
    Frame.Arranged tab (frame ++ frame') := by
  intro name entry hlookup
  rw [List.lookup_append] at hlookup
  cases hfirst : frame.lookup name with
  | some entry' =>
    rw [hfirst] at hlookup
    cases hlookup
    exact h name entry hfirst
  | none =>
    rw [hfirst] at hlookup
    exact h' name entry hlookup

/-- What a name means is sheltered, in front of the scope and in the table. -/
theorem SymbolTable.Sheltered.meaning? {home : ScopeId} (h : tab.Sheltered home) {env : Env}
    (henv : env.locals.Arranged tab) {name : String} {m : Meaning} (hm : env.meaning? tab name = some m) :
    m.Sheltered tab home := by
  rcases Env.meaning?_cases hm with ⟨entry, hentry, rfl⟩ | ⟨id, symbol, -, hsymbol, rfl⟩
  · exact henv name entry hentry home
  · exact h.symbols hsymbol

/-- Arranged types fit wherever their fields are read. -/
theorem SymbolTable.Arranges.fits {t : Ty} (ht : tab.Arranges t) {s : Store} (hs : s.Arranged tab.Forms) :
    tab.fits s t = true := by
  have hprune := hs.prune ht
  unfold SymbolTable.fits
  split
  · rename_i id params hview
    obtain ⟨kind, hroot⟩ := Ty.aggregate?_eq_some hview
    rw [hroot] at hprune
    obtain ⟨⟨name, home, d, hsymbol, hlen⟩, -⟩ := hprune
    rw [hsymbol]
    dsimp only [Option.map_some, Symbol.meaning]
    refine Bool.and_eq_true_iff.2 ⟨beq_iff_eq.2 hlen.symm, ?_⟩
    split
    · rename_i frame hframe
      refine List.all_eq_true.2 fun v hv => ?_
      exact Frame.lookup_ofTypeVars_isSome hlen.symm hframe (List.mem_map_of_mem hv)
    · rfl
  · rfl

theorem State.Arranged.fresh : State.Arranged tab {} := by
  refine ⟨fun v t ht => ?_, fun ht => ?_⟩
  · simp [Store.binding?] at ht
  · cases ht

end

/-! ## Defended computations -/

namespace Infer

variable {tab : SymbolTable} {α β : Type} {P : α → Prop} {Q : β → Prop}

/-- a result of the kind that is asked for, or an error that is not defensive -/
def Fine (P : α → Prop) : Except Error α → Prop
  | .ok a => P a
  | .error e => e.cause.isDefensive = false

/-- from a state with arranged types both computations do the same, and come to such a state, with a fine outcome -/
def Defended (tab : SymbolTable) (P : α → Prop) (x y : Infer α) : Prop :=
  ∀ st, st.Arranged tab → y st = x st ∧ ∀ r st', x st = some (r, st') → st'.Arranged tab ∧ Fine P r

namespace Defended

theorem pure {a : α} (h : P a) : Defended tab P (pure a) (pure a) := by
  refine fun st hst => ⟨rfl, fun r st' hrun => ?_⟩
  cases hrun
  exact ⟨hst, h⟩

theorem fail {cause : Cause} (h : cause.isDefensive = false) (span : Span) :
    Defended tab P (fail cause span) (Infer.fail cause span) := by
  refine fun st hst => ⟨rfl, fun r st' hrun => ?_⟩
  cases hrun
  exact ⟨hst, h⟩

theorem lift {x : Except Error α} (hok : ∀ a, x = .ok a → P a)
    (herror : ∀ e, x = .error e → e.cause.isDefensive = false) : Defended tab P (lift x) (Infer.lift x) := by
  cases x with
  | ok a => exact pure (hok a rfl)
  | error e => exact fail (herror e rfl) e.span

theorem bind {x y : Infer α} {f g : α → Infer β} (hxy : Defended tab P x y)
    (hfg : ∀ a, P a → Defended tab Q (f a) (g a)) : Defended tab Q (x >>= f) (y >>= g) := by
  intro st hst
  obtain ⟨heq, hend⟩ := hxy st hst
  rw [bind_apply, bind_apply, heq]
  cases hx : x st with
  | none => exact ⟨rfl, nofun⟩
  | some p =>
    obtain ⟨r, st₁⟩ := p
    obtain ⟨hst₁, hr⟩ := hend r st₁ hx
    cases r with
    | ok a => exact hfg a hr st₁ hst₁
    | error e =>
      refine ⟨rfl, fun r' st' hrun => ?_⟩
      cases hrun
      exact ⟨hst₁, hr⟩

/-- A computation that goes on with the store it finds. -/
theorem store {f g : Store → Infer β} (hfg : ∀ s : Store, s.Arranged tab.Forms → Defended tab Q (f s) (g s)) :
    Defended tab Q (Infer.store >>= f) (Infer.store >>= g) :=
  fun st hst => hfg st.store hst.store st hst

/-- A computation that goes on after the store has changed. -/
theorem evolve {x y : Infer α}
    (h : ∀ st : State, st.store.Arranged tab.Forms → ∃ s x' y', s.Arranged tab.Forms ∧
      x st = x' { st with store := s } ∧ y st = y' { st with store := s } ∧ Defended tab P x' y') :
    Defended tab P x y := by
  intro st hst
  obtain ⟨s, x', y', hs, hx, hy, hdefended⟩ := h st hst.store
  rw [hx, hy]
  exact hdefended { st with store := s } ⟨hs, hst.memo⟩

/-- A check that is passed may stand in front of the other computation. -/
theorem check {x y : Infer α} (h : Defended tab P x y) {test : State → Bool}
    (htest : ∀ st, st.Arranged tab → test st = true) (span : Span) :
    Defended tab P x (Infer.check test span >>= fun _ => y) := by
  intro st hst
  have hpass : Infer.check test span st = some (.ok (), st) := by rw [Infer.check, if_pos (htest st hst)]
  rw [bind_apply, hpass]
  exact h st hst

/-- An answer that is recorded is arranged, and so is one that is found and recorded. -/
theorem memoized {x y : Infer Ty} (h : Defended tab tab.Arranges x y) (id : SymbolId) (key : Key) (span : Span) :
    Defended tab tab.Arranges (memoized start id key span x) (Infer.memoized start id key span y) := by
  intro st hst
  cases hp : st.memo.state? id key with
  | some p =>
    unfold Infer.memoized
    rw [hp]
    cases p with
    | resolved t => exact Defended.pure (hst.memo hp) st hst
    | inProgress => exact Defended.fail rfl span st hst
  | none =>
    have hstart : State.Arranged tab { st with memo := st.memo.modify id (·.start key) } :=
      ⟨hst.store, fun ht => hst.memo (Memo.resolved_start ht)⟩
    obtain ⟨heq, hend⟩ := h { st with memo := st.memo.modify id (·.start key) } hstart
    rw [memoized_none hp, memoized_none hp, heq]
    refine ⟨rfl, fun r st' hrun => ?_⟩
    obtain ⟨⟨r₁, st₁⟩, hx, hfinish⟩ := Option.map_eq_some_iff.1 hrun
    obtain ⟨rfl, rfl⟩ := Prod.mk.inj hfinish
    obtain ⟨hst₁, hr⟩ := hend r₁ st₁ hx
    refine ⟨⟨hst₁.store, fun {id' key' t} ht => ?_⟩, hr⟩
    rcases Memo.resolved_finish ht with rfl | ht
    · exact hr
    · exact hst₁.memo ht

/-! ### Steps without a context -/

theorem freshVars (names : List Ident) :
    Defended tab (fun ts => ts.length = names.length ∧ ∀ t ∈ ts, tab.Arranges t) (freshVars names)
      (Infer.freshVars names) := by
  induction names with
  | nil => exact pure ⟨rfl, nofun⟩
  | cons name names ih =>
    refine .evolve fun st hs => ⟨st.store.fresh.2, _, _, hs.fresh, rfl, rfl, ih.bind fun ts hts => pure ?_⟩
    exact ⟨congrArg Nat.succ hts.1, List.forall_mem_cons.2 ⟨trivial, hts.2⟩⟩

theorem closed {t : Ty} (ht : tab.Arranges t) {name name' : Infer String}
    (h : Defended tab (fun _ => True) name name') (span : Span) :
    Defended tab tab.Arranges (closed t name span) (Infer.closed t name' span) := by
  refine .store fun s hs => ?_
  cases hd : s.deref? t with
  | some u => exact pure (hs.deref? ht hd)
  | none => exact h.bind fun _ _ => fail rfl _

theorem solution (span : Span) {names : List Ident} {ts : List Ty} (hlen : ts.length = names.length)
    (hts : ∀ t ∈ ts, tab.Arranges t) :
    Defended tab (fun us => us.length = names.length ∧ ∀ u ∈ us, tab.Arranges u) (solution span names ts)
      (Infer.solution span names ts) := by
  induction names generalizing ts with
  | nil => exact pure ⟨rfl, nofun⟩
  | cons name names ih =>
    cases ts with
    | nil => cases hlen
    | cons t ts =>
      obtain ⟨ht, hts⟩ := List.forall_mem_cons.1 hts
      refine (closed ht (pure trivial) span).bind fun u hu => ?_
      refine (ih (Nat.succ.inj hlen) hts).bind fun us hus => pure ⟨?_, List.forall_mem_cons.2 ⟨hu, hus.2⟩⟩
      rw [List.length_cons, List.length_cons, hus.1]

theorem arity (what : String) (expected found : Nat) (span : Span) :
    Defended tab (fun _ => found = expected) (DualInference.arity what expected found span)
      (DualInference.arity what expected found span) := by
  unfold DualInference.arity
  split
  · rename_i h
    exact pure h
  · exact fail rfl _

theorem natLiteral (e : Expr) :
    Defended tab (fun _ => True) (DualInference.natLiteral e) (DualInference.natLiteral e) := by
  unfold DualInference.natLiteral
  split
  · exact pure trivial
  · exact fail rfl _

theorem part {parts : List Ty} (h : ∀ t ∈ parts, tab.Arranges t) (position : Nat) (span : Span) :
    Defended tab tab.Arranges (DualInference.part parts position span) (DualInference.part parts position span) := by
  unfold DualInference.part
  split
  · rename_i t ht
    exact pure (h t (List.mem_of_getElem? ht))
  · exact fail rfl _

theorem instantiate {home : ScopeId} {origin : Origin} {kind : AggregateKind} {d : Aggregate}
    (h : (Meaning.aggregate origin kind d).Sheltered tab home) {params : List Ty} (hparams : ∀ t ∈ params, tab.Arranges t)
    (span : Span) : Defended tab tab.Arranges (DualInference.instantiate origin kind d params span)
      (DualInference.instantiate origin kind d params span) :=
  (arity _ _ _ _).bind fun _ hlen =>
    pure (Ty.arranged_compound.2 ⟨⟨origin.name, origin.home, d, h.2, hlen.symm⟩, hparams⟩)

theorem accepted (formal : Formal) (actual : Denotation) (span : Span) :
    Defended tab (fun _ => True) (formal.accept actual span) (formal.accept actual span) := by
  unfold Formal.accept
  split
  · exact fail rfl _
  · exact fail rfl _
  · exact pure trivial
  · exact pure trivial

theorem unconditional (conditions : List Expr) :
    Defended tab (fun _ => True) (Context.unconditional conditions) (Context.unconditional conditions) := by
  cases conditions with
  | nil => exact pure trivial
  | cons condition conditions => exact fail rfl _

theorem typeVars {names : List Ident} {ts : List Ty} (h : ∀ t ∈ ts, tab.Arranges t) :
    Defended tab (Frame.Arranged tab) (Infer.lift (Frame.ofTypeVars names ts))
      (Infer.lift (Frame.ofTypeVars names ts)) := by
  refine lift (fun frame hframe => Frame.Arranged.ofTypeVars h hframe) fun e he => ?_
  obtain ⟨name, hcause⟩ := Frame.ofTypeVars_error he
  rw [hcause]
  rfl

end Defended

end Infer

end DualInference
