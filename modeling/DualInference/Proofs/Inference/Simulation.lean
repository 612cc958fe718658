/-
Two inferences side by side.

A computation is compared with another one that starts from a related state. There are three ways to compare them:
- forward: if the first comes to a result, so does the second, and the results are alike;
- in lockstep: if both end, they end alike, in results or in errors;
- all the way: if the first ends, so does the second, and they end alike, unless the second is cut off as circular; it may
  be allowed not to follow the first where that one is cut off as circular.
Where they end alike, the states in which they end are related again, and later than those in which they began.

States are related if their stores are paired and their memos are related in a way that is left open here
(`Setting.memos`). What two computations return is related by a `Likeness`, a relation that lasts as pairs are added, so
what has been found alike stays alike while the computations go on.

There are the comparisons of the steps that rules are made of, each of them good for all ways to compare.
-/
import DualInference.Inference.Basic
import DualInference.Proofs.Store.Paired

namespace DualInference

/-! ## Likeness -/

/-- a former takes as many parts as its symbol declares type variables; a tuple takes any number -/
def SymbolTable.Forms (tab : SymbolTable) : Former → Nat → Prop
  | .aggregate kind id, n => ∃ name home d, tab.symbol? id = some ⟨name, home, .aggregate kind d⟩ ∧ d.typeVars.length = n
  | .tuple, _ => True

/-- a relation between values of two computations that lasts as pairs are added -/
structure Likeness (α β : Type) where
  rel : Pairing → α → β → Prop
  mono : ∀ {V V' a b}, V ≤ V' → rel V a b → rel V' a b

/-- are types allowed to have variables -/
inductive Level where
  | closed
  | free

/-- the pairs that types at a level may use -/
def Level.at : Level → Pairing → Pairing
  | .closed, _ => .none
  | .free, V => V

theorem Level.at_mono (lv : Level) {V V' : Pairing} (h : V ≤ V') : lv.at V ≤ lv.at V' := by
  cases lv with
  | closed => exact le_refl _
  | free => exact h

theorem Level.at_le (lv : Level) (V : Pairing) : lv.at V ≤ V := by
  cases lv with
  | closed => exact V.none_le
  | free => exact le_refl V

theorem Level.none_le_at (lv : Level) (V : Pairing) : Pairing.none ≤ lv.at V :=
  (lv.at V).none_le

theorem Store.Paired.atLevel {D : Former → Nat → Prop} {V : Pairing} {s s' : Store} (h : Paired D V s s') (lv : Level) :
    Paired D (lv.at V) s s' := by
  cases lv with
  | closed => exact .unpaired h.left h.right
  | free => exact h

namespace Likeness

/-- equal values -/
def same {α : Type} : Likeness α α :=
  ⟨fun _ => Eq, fun _ h => h⟩

/-- both are the given value -/
def exactly {α : Type} (a : α) : Likeness α α :=
  ⟨fun _ x y => x = a ∧ y = a, fun _ h => h⟩

/-- nothing but a fact -/
def fact (p : Prop) : Likeness Unit Unit :=
  ⟨fun _ _ _ => p, fun _ h => h⟩

/-- lists of like values -/
def list {α β : Type} (R : Likeness α β) : Likeness (List α) (List β) :=
  ⟨fun V => List.Forall₂ (R.rel V), fun hV h => h.imp fun _ _ => R.mono hV⟩

/-- lists of so many like values -/
def vector {α β : Type} (R : Likeness α β) (n : Nat) : Likeness (List α) (List β) :=
  ⟨fun V as bs => as.length = n ∧ List.Forall₂ (R.rel V) as bs, fun hV h => ⟨h.1, h.2.imp fun _ _ => R.mono hV⟩⟩

/-- pairs of like values -/
def pair {α β γ δ : Type} (R : Likeness α β) (S : Likeness γ δ) : Likeness (α × γ) (β × δ) :=
  ⟨fun V p q => R.rel V p.1 q.1 ∧ S.rel V p.2 q.2, fun hV h => ⟨R.mono hV h.1, S.mono hV h.2⟩⟩

/-- types that are alike -/
def ty (tab : SymbolTable) (lv : Level) : Likeness Ty Ty :=
  ⟨fun V => Ty.Alike tab.Forms (lv.at V), fun hV h => h.mono (lv.at_mono hV)⟩

end Likeness

/-- denotations on the same side, of types that are alike -/
inductive Denotation.Alike (D : Former → Nat → Prop) (V : Pairing) : Denotation → Denotation → Prop
  | value {t u : Ty} (h : t.Alike D V u) : Alike D V (.value t) (.value u)
  | type {t u : Ty} (h : t.Alike D V u) : Alike D V (.type t) (.type u)

theorem Denotation.Alike.mono {D : Former → Nat → Prop} {V V' : Pairing} (hV : V ≤ V') {d d' : Denotation}
    (h : d.Alike D V d') : d.Alike D V' d' := by
  cases h with
  | value h => exact .value (h.mono hV)
  | type h => exact .type (h.mono hV)

theorem Denotation.Alike.ty {D : Former → Nat → Prop} {V : Pairing} {d d' : Denotation} (h : d.Alike D V d') :
    d.ty.Alike D V d'.ty := by
  cases h with
  | value h => exact h
  | type h => exact h

/-- local names of the same sort, of types that are alike -/
inductive LocalName.Alike (D : Former → Nat → Prop) (V : Pairing) : LocalName → LocalName → Prop
  | typeVar {t u : Ty} (h : t.Alike D V u) : Alike D V (.typeVar t) (.typeVar u)
  | param {t u : Ty} (h : t.Alike D V u) : Alike D V (.param t) (.param u)

theorem LocalName.Alike.mono {D : Former → Nat → Prop} {V V' : Pairing} (hV : V ≤ V') {l l' : LocalName}
    (h : l.Alike D V l') : l.Alike D V' l' := by
  cases h with
  | typeVar h => exact .typeVar (h.mono hV)
  | param h => exact .param (h.mono hV)

namespace Likeness

def denoted (tab : SymbolTable) (lv : Level) : Likeness Denotation Denotation :=
  ⟨fun V => Denotation.Alike tab.Forms (lv.at V), fun hV h => h.mono (lv.at_mono hV)⟩

/-- the same names in the same order, of types that are alike -/
def frame (tab : SymbolTable) (lv : Level) : Likeness Frame Frame :=
  list (pair same ⟨fun V => LocalName.Alike tab.Forms (lv.at V), fun hV h => h.mono (lv.at_mono hV)⟩)

/-- environments with the same scope behind frames that are alike -/
def env (tab : SymbolTable) (lv : Level) : Likeness Env Env :=
  ⟨fun V env env' => (frame tab lv).rel V env.locals env'.locals ∧ env.scope = env'.scope,
    fun hV h => ⟨(frame tab lv).mono hV h.1, h.2⟩⟩

end Likeness

/-! ### Errors -/

/-- texts that differ at most in the numbers of the variables of a type -/
def TextAlike (tab : SymbolTable) (V : Pairing) (text text' : String) : Prop :=
  text = text' ∨ ∃ t u, Ty.Alike tab.Forms V t u ∧ text = t.render tab.nameOf ∧ text' = u.render tab.nameOf

theorem TextAlike.mono {tab : SymbolTable} {V V' : Pairing} (hV : V ≤ V') {text text' : String}
    (h : TextAlike tab V text text') : TextAlike tab V' text text' := by
  rcases h with h | ⟨t, u, htu, ht, hu⟩
  · exact .inl h
  · exact .inr ⟨t, u, htu.mono hV, ht, hu⟩

/-- causes that differ at most in the numbers of variables in the types they quote -/
inductive Cause.Alike (tab : SymbolTable) (V : Pairing) : Cause → Cause → Prop
  | same (c : Cause) : Alike tab V c c
  | typeMismatch {expected expected' found found' : String} (h : TextAlike tab V expected expected')
    (h' : TextAlike tab V found found') : Alike tab V (.typeMismatch expected found) (.typeMismatch expected' found')
  | invalidType {found found' : String} (h : TextAlike tab V found found') :
    Alike tab V (.invalidType found) (.invalidType found')
  | unresolvedTypeVariable {name name' : String} (h : TextAlike tab V name name') :
    Alike tab V (.unresolvedTypeVariable name) (.unresolvedTypeVariable name')

theorem Cause.Alike.mono {tab : SymbolTable} {V V' : Pairing} (hV : V ≤ V') {c c' : Cause} (h : c.Alike tab V c') :
    c.Alike tab V' c' := by
  cases h with
  | same => exact .same c
  | typeMismatch h h' => exact .typeMismatch (h.mono hV) (h'.mono hV)
  | invalidType h => exact .invalidType (h.mono hV)
  | unresolvedTypeVariable h => exact .unresolvedTypeVariable (h.mono hV)

theorem Cause.Alike.kind_eq {tab : SymbolTable} {V : Pairing} {c c' : Cause} (h : c.Alike tab V c') :
    c.kind = c'.kind := by
  cases h <;> rfl

/-- errors of like cause at the same place -/
structure Error.Alike (tab : SymbolTable) (V : Pairing) (e e' : Error) : Prop where
  cause : e.cause.Alike tab V e'.cause
  span : e.span = e'.span

def Likeness.text (tab : SymbolTable) : Likeness String String :=
  ⟨TextAlike tab, fun hV h => h.mono hV⟩

/-- like results, or errors that are alike -/
inductive Likeness.Outcome {α β : Type} (R : Likeness α β) (tab : SymbolTable) (V : Pairing) :
    Except Error α → Except Error β → Prop
  | ok {a : α} {b : β} (h : R.rel V a b) : Outcome R tab V (.ok a) (.ok b)
  | error {e e' : Error} (h : e.Alike tab V e') : Outcome R tab V (.error e) (.error e')

/-! ## Computations side by side -/

/-- how the second computation has to go along with the first -/
inductive Mode where
  | forward
  | lockstep
  /-- `excused` if the second computation need not follow the first one into a recursion error -/
  | through (excused : Prop)

/-- are errors compared -/
def Mode.compares : Mode → Bool
  | .forward => false
  | .lockstep => true
  | .through _ => true

/-- what a comparison is made against -/
structure Setting where
  table : SymbolTable
  mode : Mode
  /-- what relates the memos of two states -/
  memos : Pairing → State → State → Prop
  later : ∀ {V V₁ st st' s₁ s₁'}, memos V st st' → Store.Later V st.store st'.store V₁ s₁ s₁' →
    memos V₁ { st with store := s₁ } { st' with store := s₁' }

namespace Setting

open Infer

/-- stores are paired, and memos related -/
structure Related (S : Setting) (V : Pairing) (st st' : State) : Prop where
  stores : Store.Paired S.table.Forms V st.store st'.store
  memos : S.memos V st st'

/-- two computations that began in related states have come to alike ends, in related states again -/
structure Ended (S : Setting) {α β : Type} (R : Likeness α β) (V : Pairing) (st st' : State) (r : Except Error α)
    (r' : Except Error β) (V₁ : Pairing) (st₁ st₁' : State) : Prop where
  outcome : R.Outcome S.table V₁ r r'
  related : S.Related V₁ st₁ st₁'
  later : Store.Later V st.store st'.store V₁ st₁.store st₁'.store

/-- the outcome is a recursion error -/
def CutOff {α : Type} (r : Except Error α) : Prop :=
  ∃ e : Error, r = .error e ∧ e.isRecursive = true

/-- what came out of the second computation goes along with what came out of the first -/
def Along (S : Setting) {α β : Type} (R : Likeness α β) (V : Pairing) (st st' : State)
    (o : Option (Except Error α × State)) (o' : Option (Except Error β × State)) : Prop :=
  match S.mode with
  | .forward => ∀ a st₁, o = some (.ok a, st₁) →
    ∃ V₁ b st₁', o' = some (.ok b, st₁') ∧ S.Ended R V st st' (.ok a) (.ok b) V₁ st₁ st₁'
  | .lockstep => ∀ r st₁ r' st₁', o = some (r, st₁) → o' = some (r', st₁') → ∃ V₁, S.Ended R V st st' r r' V₁ st₁ st₁'
  | .through excused => ∀ r st₁, o = some (r, st₁) → excused ∧ CutOff r ∨
    ∃ r' st₁', o' = some (r', st₁') ∧ (CutOff r' ∨ ∃ V₁, S.Ended R V st st' r r' V₁ st₁ st₁')

/-- the second computation goes along with the first, from all related states with at least the given pairs -/
def Sim (S : Setting) {α β : Type} (V : Pairing) (R : Likeness α β) (x : Infer α) (y : Infer β) : Prop :=
  ∀ V₀ st st', V ≤ V₀ → S.Related V₀ st st' → S.Along R V₀ st st' (x st) (y st')

/-- a condition that matters only where errors are compared -/
def InStep (S : Setting) (p : Prop) : Prop :=
  S.mode.compares = true → p

theorem InStep.of_forward {S : Setting} {p : Prop} (h : S.mode = .forward) : S.InStep p := by
  intro hcompares
  rw [h] at hcompares
  cases hcompares

theorem InStep.imp {S : Setting} {p q : Prop} (hpq : p → q) (h : S.InStep p) : S.InStep q :=
  fun hm => hpq (h hm)

/-- levels at which values are compared: forward, only those without variables -/
def Allows (S : Setting) (lv : Level) : Prop :=
  S.mode.compares = true ∨ lv = .closed

theorem allows_closed (S : Setting) : S.Allows .closed :=
  .inr rfl

section

variable {S : Setting} {α β γ δ : Type} {V V' : Pairing} {R : Likeness α β} {Q : Likeness γ δ}

theorem Sim.mono (hV : V ≤ V') {x : Infer α} {y : Infer β} (h : S.Sim V R x y) : S.Sim V' R x y :=
  fun V₀ st st' hV' => h V₀ st st' (hV.trans hV')

theorem Along.forward (hm : S.mode = .forward) {st st' : State} {o : Option (Except Error α × State)}
    {o' : Option (Except Error β × State)} :
    S.Along R V st st' o o' ↔ ∀ a st₁, o = some (.ok a, st₁) →
      ∃ V₁ b st₁', o' = some (.ok b, st₁') ∧ S.Ended R V st st' (.ok a) (.ok b) V₁ st₁ st₁' := by
  simp only [Along, hm]

theorem Along.lockstep (hm : S.mode = .lockstep) {st st' : State} {o : Option (Except Error α × State)}
    {o' : Option (Except Error β × State)} :
    S.Along R V st st' o o' ↔ ∀ r st₁ r' st₁', o = some (r, st₁) → o' = some (r', st₁') →
      ∃ V₁, S.Ended R V st st' r r' V₁ st₁ st₁' := by
  simp only [Along, hm]

theorem Along.through {excused : Prop} (hm : S.mode = .through excused) {st st' : State}
    {o : Option (Except Error α × State)} {o' : Option (Except Error β × State)} :
    S.Along R V st st' o o' ↔ ∀ r st₁, o = some (r, st₁) → excused ∧ CutOff r ∨
      ∃ r' st₁', o' = some (r', st₁') ∧ (CutOff r' ∨ ∃ V₁, S.Ended R V st st' r r' V₁ st₁ st₁') := by
  simp only [Along, hm]

/-- What goes along with each other in later states does so seen from earlier ones. -/
theorem Along.of_later {st st' st₁ st₁' : State} {V₁ : Pairing} {o : Option (Except Error α × State)}
    {o' : Option (Except Error β × State)} (hl : Store.Later V st.store st'.store V₁ st₁.store st₁'.store)
    (h : S.Along R V₁ st₁ st₁' o o') : S.Along R V st st' o o' := by
  cases hm : S.mode with
  | forward =>
    rw [Along.forward hm] at h ⊢
    intro a st₂ ho
    obtain ⟨V₂, b, st₂', ho', hend⟩ := h a st₂ ho
    exact ⟨V₂, b, st₂', ho', hend.outcome, hend.related, hl.trans hend.later⟩
  | lockstep =>
    rw [Along.lockstep hm] at h ⊢
    intro r st₂ r' st₂' ho ho'
    obtain ⟨V₂, hend⟩ := h r st₂ r' st₂' ho ho'
    exact ⟨V₂, hend.outcome, hend.related, hl.trans hend.later⟩
  | through excused =>
    rw [Along.through hm] at h ⊢
    intro r st₂ ho
    refine (h r st₂ ho).imp_right ?_
    rintro ⟨r', st₂', ho', hcut | ⟨V₂, hend⟩⟩
    · exact ⟨r', st₂', ho', .inl hcut⟩
    · exact ⟨r', st₂', ho', .inr ⟨V₂, hend.outcome, hend.related, hl.trans hend.later⟩⟩

/-- Computations that both end go along with each other in all ways if they end alike. Where errors are not compared,
it is enough to know of results. -/
theorem Along.of_ended {st st' : State} {r : Except Error α} {r' : Except Error β} {V₁ : Pairing} {st₁ st₁' : State}
    (h : (S.mode.compares = true ∨ ∃ a, r = .ok a) → S.Ended R V st st' r r' V₁ st₁ st₁') :
    S.Along R V st st' (some (r, st₁)) (some (r', st₁')) := by
  cases hm : S.mode with
  | forward =>
    rw [Along.forward hm]
    intro a st₂ ho
    cases ho
    have hend := h (.inr ⟨a, rfl⟩)
    cases hend.outcome with
    | ok hab => exact ⟨V₁, _, st₁', rfl, hend⟩
  | lockstep =>
    rw [Along.lockstep hm]
    intro r₂ st₂ r₂' st₂' ho ho'
    cases ho
    cases ho'
    exact ⟨V₁, h (.inl (by rw [hm]; rfl))⟩
  | through excused =>
    rw [Along.through hm]
    intro r₂ st₂ ho
    cases ho
    exact .inr ⟨r', st₁', rfl, .inr ⟨V₁, h (.inl (by rw [hm]; rfl))⟩⟩

theorem Sim.pure {a : α} {b : β} (h : R.rel V a b) : S.Sim V R (pure a) (pure b) := by
  intro V₀ st st' hV hrel
  exact Along.of_ended fun _ => ⟨.ok (R.mono hV h), hrel, .refl _ _ _⟩

theorem Sim.fail {c c' : Cause} {span span' : Span} (h : S.InStep (c.Alike S.table V c' ∧ span = span')) :
    S.Sim V R (fail c span) (fail c' span') := by
  intro V₀ st st' hV hrel
  have hend : (S.mode.compares = true ∨ ∃ a : α, Except.error (⟨c, span⟩ : Error) = .ok a) →
      S.Ended R V₀ st st' (.error ⟨c, span⟩) (.error ⟨c', span'⟩) V₀ st st' := by
    rintro (hm | ⟨a, ha⟩)
    · obtain ⟨hc, hs⟩ := h hm
      exact ⟨.error ⟨hc.mono hV, hs⟩, hrel, .refl _ _ _⟩
    · cases ha
  exact .of_ended hend

theorem Sim.bind {x : Infer α} {y : Infer β} {f : α → Infer γ} {g : β → Infer δ} (hxy : S.Sim V R x y)
    (hfg : ∀ V₁, V ≤ V₁ → ∀ a b, R.rel V₁ a b → S.Sim V₁ Q (f a) (g b)) : S.Sim V Q (x >>= f) (y >>= g) := by
  intro V₀ st st' hV hrel
  have hxy' := hxy V₀ st st' hV hrel
  rw [bind_apply, bind_apply]
  -- where both come to results, the continuations start from where the first computations ended
  have hrest : ∀ {a b V₁ st₁ st₁'}, S.Ended R V₀ st st' (.ok a) (.ok b) V₁ st₁ st₁' →
      S.Along Q V₀ st st' (f a st₁) (g b st₁') := by
    intro a b V₁ st₁ st₁' hend
    cases hend.outcome with
    | ok hab =>
      exact .of_later hend.later
        (hfg V₁ (hV.trans hend.later.le) a b hab V₁ st₁ st₁' (le_refl _) hend.related)
  cases hm : S.mode with
  | forward =>
    rw [Along.forward hm] at hxy'
    cases hx : x st with
    | none =>
      rw [Along.forward hm]
      nofun
    | some p =>
      obtain ⟨r, st₁⟩ := p
      cases r with
      | error e =>
        rw [Along.forward hm]
        nofun
      | ok a =>
        obtain ⟨V₁, b, st₁', hy, hend⟩ := hxy' a st₁ hx
        rw [hy]
        exact hrest hend
  | lockstep =>
    rw [Along.lockstep hm] at hxy'
    cases hx : x st with
    | none =>
      rw [Along.lockstep hm]
      nofun
    | some p =>
      obtain ⟨r, st₁⟩ := p
      cases hy : y st' with
      | none =>
        rw [Along.lockstep hm]
        intro _ _ _ _ _ ho'
        cases ho'
      | some p' =>
        obtain ⟨r', st₁'⟩ := p'
        obtain ⟨V₁, hend⟩ := hxy' r st₁ r' st₁' hx hy
        have hend' := hend
        cases hend.outcome with
        | ok hab => exact hrest hend'
        | error he => exact .of_ended fun _ => ⟨.error he, hend'.related, hend'.later⟩
  | through excused =>
    rw [Along.through hm] at hxy'
    cases hx : x st with
    | none =>
      rw [Along.through hm]
      nofun
    | some p =>
      obtain ⟨r, st₁⟩ := p
      rcases hxy' r st₁ hx with ⟨hexcused, e, rfl, he⟩ | ⟨r', st₁', hy, ⟨e, rfl, he⟩ | ⟨V₁, hend⟩⟩
      · -- the first is cut off, and with it all that would follow
        rw [Along.through hm]
        intro r₂ st₂ ho
        cases ho
        exact .inl ⟨hexcused, e, rfl, he⟩
      · rw [hy, Along.through hm]
        exact fun _ _ _ => .inr ⟨.error e, st₁', rfl, .inl ⟨e, rfl, he⟩⟩
      · rw [hy]
        have hend' := hend
        cases hend.outcome with
        | ok hab => exact hrest hend'
        | error he => exact .of_ended fun _ => ⟨.error he, hend'.related, hend'.later⟩

/-- A computation that goes on with the store it finds. -/
theorem Sim.store {f : Store → Infer γ} {g : Store → Infer δ}
    (hfg : ∀ V₁, V ≤ V₁ → ∀ s s', Store.Paired S.table.Forms V₁ s s' → S.Sim V₁ Q (f s) (g s')) :
    S.Sim V Q (Infer.store >>= f) (Infer.store >>= g) := by
  intro V₀ st st' hV hrel
  exact hfg V₀ hV st.store st'.store hrel.stores V₀ st st' (le_refl _) hrel

end

end Setting

end DualInference
