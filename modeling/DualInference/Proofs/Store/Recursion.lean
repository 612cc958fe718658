/-
The algorithms on types come to an end.

In an acyclic store every algorithm on types returns after finitely many calls of itself, and with what it is said to
come to. Deep enough is deep enough: from some limit on the result is there and stays (`Returns`), so the limits of the
calls that a call makes need not be known.

None of the recursions follows the structure of a type. What carries them is that something holds of all types if it
holds of a type whenever it holds of its parts and of what a variable is bound to (`Acyclic.descent`), or whenever it
holds of the parts of the pruned type (`Acyclic.pruned_induction`). Unification changes the store on its way, and what
has been pruned before may be bound now. But then there are fewer unbound variables (`Grows.unbound_lt`), and this
happens finitely often; as long as the store stays, unification goes down to parts of pruned types like the others.

Main result: `type_algorithms_return`.
-/
import DualInference.Proofs.Store.InPlace
import DualInference.Proofs.Store.ResolvedForm
import DualInference.Ty.Recursion

namespace DualInference

/-! ## Deep enough -/

section

variable {α β : Type} {a : α} {b : β}

/-- from some limit on the result is there -/
def Returns (f : Nat → Option α) (a : α) : Prop :=
  ∃ n, ∀ m, n ≤ m → f m = some a

theorem Returns.const (a : α) : Returns (fun _ => some a) a :=
  ⟨0, fun _ _ => rfl⟩

/-- A call takes one level. -/
theorem Returns.succ {f : Nat → Option α} (h : Returns (fun n => f (n + 1)) a) : Returns f a := by
  obtain ⟨n, hn⟩ := h
  refine ⟨n + 1, fun m hm => ?_⟩
  obtain ⟨k, rfl⟩ := Nat.exists_eq_add_of_le' (Nat.le_of_add_left_le hm)
  exact hn k (Nat.le_of_succ_le_succ hm)

theorem Returns.bind {f : Nat → Option α} {g : Nat → α → Option β} (hf : Returns f a) (hg : Returns (fun n => g n a) b) :
    Returns (fun n => f n >>= g n) b := by
  obtain ⟨n, hn⟩ := hf
  obtain ⟨m, hm⟩ := hg
  refine ⟨max n m, fun k hk => ?_⟩
  calc f k >>= g k = some a >>= g k := by rw [hn k (le_of_max_le_left hk)]
    _ = some b := hm k (le_of_max_le_right hk)

theorem Returns.map {f : Nat → Option α} (hf : Returns f a) (g : α → β) : Returns (fun n => (f n).map g) (g a) := by
  obtain ⟨n, hn⟩ := hf
  exact ⟨n, fun m hm => congrArg (Option.map g) (hn m hm)⟩

theorem returns_anyM {f : Nat → α → Option Bool} {p : α → Bool} : ∀ {as : List α},
    (∀ a ∈ as, Returns (fun n => f n a) (p a)) → Returns (fun n => as.anyM (f n)) (as.any p)
  | [], _ => .const false
  | a :: as, h => by
    refine (h a List.mem_cons_self).bind ?_
    rw [List.any_cons]
    cases p a with
    | true => exact .const true
    | false => exact returns_anyM fun b hb => h b (List.mem_cons_of_mem _ hb)

theorem returns_allM {f : Nat → α → Option Bool} {p : α → Bool} : ∀ {as : List α},
    (∀ a ∈ as, Returns (fun n => f n a) (p a)) → Returns (fun n => as.allM (f n)) (as.all p)
  | [], _ => .const true
  | a :: as, h => by
    refine (h a List.mem_cons_self).bind ?_
    rw [List.all_cons]
    cases p a with
    | true => exact returns_allM fun b hb => h b (List.mem_cons_of_mem _ hb)
    | false => exact .const false

theorem returns_mapM {f : Nat → α → Option β} {g : α → β} : ∀ {as : List α},
    (∀ a ∈ as, Returns (fun n => f n a) (g a)) → Returns (fun n => as.mapM (f n)) (as.map g)
  | [], _ => .const []
  | a :: as, h => by
    simp only [List.mapM_cons]
    refine (h a List.mem_cons_self).bind ?_
    exact (returns_mapM fun b hb => h b (List.mem_cons_of_mem _ hb)).bind (.const _)

end

/-- the types that a type is made of -/
def Ty.arguments : Ty → List Ty
  | .scalar _ => []
  | .wrap _ t => [t]
  | .compound _ ts => ts
  | .var _ => []

namespace Store

variable {s : Store}

/-! ## Going down -/

section

variable {P : Ty → Prop}

mutual

theorem descent_of_vars (scalar : ∀ c, P (.scalar c)) (wrap : ∀ w t, P t → P (.wrap w t))
    (compound : ∀ f ts, (∀ t ∈ ts, P t) → P (.compound f ts)) : ∀ {t : Ty}, (∀ v ∈ t.vars, P (.var v)) → P t
  | .scalar c, _ => scalar c
  | .wrap w t, h => wrap w t (descent_of_vars scalar wrap compound (t := t) h)
  | .compound f ts, h => compound f ts (descent_of_varsList scalar wrap compound h)
  | .var v, h => h v (by simp [Ty.vars])

theorem descent_of_varsList (scalar : ∀ c, P (.scalar c)) (wrap : ∀ w t, P t → P (.wrap w t))
    (compound : ∀ f ts, (∀ t ∈ ts, P t) → P (.compound f ts)) :
    ∀ {ts : List Ty}, (∀ v ∈ Ty.varsList ts, P (.var v)) → ∀ t ∈ ts, P t
  | [], _ => fun _ ht => absurd ht List.not_mem_nil
  | _ :: _, h => List.forall_mem_cons.2
      ⟨descent_of_vars scalar wrap compound fun v hv => h v (List.mem_append_left _ hv),
        descent_of_varsList scalar wrap compound fun v hv => h v (List.mem_append_right _ hv)⟩

end

/-- Going down from a type to its parts, and from a variable to what it is bound to, comes to an end. -/
theorem Acyclic.descent (hs : s.Acyclic) (scalar : ∀ c, P (.scalar c)) (wrap : ∀ w t, P t → P (.wrap w t))
    (compound : ∀ f ts, (∀ t ∈ ts, P t) → P (.compound f ts))
    (bound : ∀ v u, s.binding? v = some u → P u → P (.var v)) (unbound : ∀ v, s.binding? v = none → P (.var v))
    (t : Ty) : P t := by
  induction t using hs.induction with
  | h t ih =>
    refine descent_of_vars scalar wrap compound fun v hv => ?_
    cases hb : s.binding? v with
    | some u => exact bound v u hb (ih v hv u hb)
    | none => exact unbound v hb

/-- Going down from a type to the parts of the pruned type comes to an end. -/
theorem Acyclic.pruned_induction (hs : s.Acyclic) (h : ∀ t, (∀ u ∈ (s.prune t).arguments, P u) → P t) (t : Ty) : P t := by
  refine h t ?_
  induction t using hs.descent with
  | scalar c =>
    rw [prune_scalar]
    exact fun _ hu => absurd hu List.not_mem_nil
  | wrap w t ih =>
    rw [prune_wrap]
    intro u hu
    obtain rfl := List.mem_singleton.1 hu
    exact h u ih
  | compound f ts ih =>
    rw [prune_compound]
    exact fun u hu => h u (ih u hu)
  | bound v u hv ih =>
    rw [prune_var hs, hv]
    exact ih
  | unbound v hv =>
    rw [prune_var hs, hv]
    exact fun _ hu => absurd hu List.not_mem_nil

end

/-! ## Readings -/

theorem prunedWithin_returns (hs : s.Acyclic) (t : Ty) : Returns (fun n => s.prunedWithin n t) (s.prune t) := by
  induction t using hs.descent with
  | scalar c =>
    rw [prune_scalar]
    exact .succ (.const _)
  | wrap w t =>
    rw [prune_wrap]
    exact .succ (.const _)
  | compound f ts =>
    rw [prune_compound]
    exact .succ (.const _)
  | bound v u hv ih =>
    refine .succ ?_
    simp only [prunedWithin, prune_var hs, hv]
    exact ih
  | unbound v hv =>
    refine .succ ?_
    simp only [prunedWithin, prune_var hs, hv]
    exact .const _

theorem occurs_prune (hs : s.Acyclic) (v : VarId) (t : Ty) : s.occurs v (s.prune t) = s.occurs v t := by
  rw [Bool.eq_iff_iff, occurs_iff_mem_resolve hs, occurs_iff_mem_resolve hs, resolve_prune hs]

theorem occurs_wrap (hs : s.Acyclic) (v : VarId) (w : Wrapper) (t : Ty) : s.occurs v (.wrap w t) = s.occurs v t := by
  rw [Bool.eq_iff_iff, occurs_iff_mem_resolve hs, occurs_iff_mem_resolve hs, resolve_wrap hs, Ty.vars]

theorem occurs_compound (hs : s.Acyclic) (v : VarId) (f : Former) (ts : List Ty) :
    s.occurs v (.compound f ts) = ts.any fun t => s.occurs v t := by
  rw [Bool.eq_iff_iff, List.any_eq_true, occurs_iff_mem_resolve hs, resolve_compound hs, Ty.vars,
    Ty.varsList_eq_flatMap, List.mem_flatMap]
  simp only [List.mem_map, exists_exists_and_eq_and, occurs_iff_mem_resolve hs]

theorem occursWithin_returns (hs : s.Acyclic) (v : VarId) (t : Ty) :
    Returns (fun n => s.occursWithin v n t) (s.occurs v t) := by
  induction t using hs.pruned_induction with
  | h t ih =>
    refine .succ ((prunedWithin_returns hs t).bind ?_)
    rw [← occurs_prune hs]
    cases hp : s.prune t with
    | scalar c =>
      rw [occurs_eq_any hs]
      exact .const false
    | wrap w u =>
      rw [occurs_wrap hs]
      exact ih u (by simp [hp, Ty.arguments])
    | compound f ts =>
      rw [occurs_compound hs]
      exact returns_anyM fun u hu => ih u (by simpa [hp, Ty.arguments] using hu)
    | var w =>
      rw [occurs_var hs, binding?_of_prune hs hp]
      exact .const _

theorem collect_returns {f : Nat → Ty → Option (Option Ty)} {g : VarId → Option Ty} : ∀ {ts : List Ty},
    (∀ t ∈ ts, Returns (fun n => f n t) (t.subst? g)) → Returns (fun n => collect (f n) ts) (Ty.substList? g ts)
  | [], _ => .const _
  | t :: ts, h => by
    refine (h t List.mem_cons_self).bind ?_
    rw [Ty.substList?]
    cases t.subst? g with
    | none => exact .const none
    | some u => exact (collect_returns fun t' ht' => h t' (List.mem_cons_of_mem _ ht')).bind (.const _)

theorem derefWithin_returns (hs : s.Acyclic) (t : Ty) : Returns (fun n => s.derefWithin n t) (s.deref? t) := by
  induction t using hs.descent with
  | scalar c =>
    rw [deref?_eq hs]
    exact .succ (.const _)
  | wrap w t ih =>
    rw [deref?_eq hs] at ih ⊢
    exact .succ (ih.map _)
  | compound f ts ih =>
    rw [deref?_eq hs]
    refine .succ (Returns.map (collect_returns fun t ht => ?_) _)
    rw [← deref?_eq hs]
    exact ih t ht
  | bound v u hv ih =>
    refine .succ ?_
    simp only [derefWithin, deref?_var hs, hv]
    exact ih
  | unbound v hv =>
    refine .succ ?_
    simp only [derefWithin, deref?_var hs, hv]
    exact .const none

theorem renderList_eq_map (name : SymbolId → String) (ts : List Ty) : Ty.renderList name ts = ts.map (Ty.render name) := by
  induction ts with
  | nil => rfl
  | cons t ts ih => rw [Ty.renderList, ih, List.map_cons]

theorem displayWithin_returns (hs : s.Acyclic) (name : SymbolId → String) (t : Ty) :
    Returns (fun n => s.displayWithin name n t) (s.display name t) := by
  induction t using hs.descent with
  | scalar c =>
    rw [display, resolve_scalar hs]
    exact .succ (.const _)
  | wrap w t ih =>
    rw [display, resolve_wrap hs]
    exact .succ (ih.map w.render)
  | compound f ts ih =>
    rw [display, resolve_compound hs, Ty.render, renderList_eq_map, List.map_map]
    exact .succ ((returns_mapM ih).map (f.render name))
  | bound v u hv ih =>
    rw [display] at ih ⊢
    refine .succ ?_
    simp only [displayWithin, resolve_var hs, hv]
    exact ih
  | unbound v hv =>
    refine .succ ?_
    simp only [displayWithin, display, resolve_var hs, hv]
    exact .const _

/-! ## Equality -/

theorem all_zip_eq {f : Ty → Ty} : ∀ {ts us : List Ty}, ts.length = us.length →
    ((ts.zip us).all fun p => decide (f p.1 = f p.2)) = decide (ts.map f = us.map f)
  | [], [], _ => rfl
  | [], _ :: _, h => by cases h
  | _ :: _, [], h => by cases h
  | t :: ts, u :: us, h => by
    rw [List.zip_cons_cons, List.all_cons, all_zip_eq (Nat.succ.inj h), List.map_cons, List.map_cons]
    simp only [List.cons.injEq, Bool.decide_and]

theorem equalWithin_returns (hs : s.Acyclic) (a b : Ty) :
    Returns (fun n => s.equalWithin n a b) (decide (s.resolve a = s.resolve b)) := by
  induction a using hs.pruned_induction generalizing b with
  | h a ih =>
    refine .succ ((prunedWithin_returns hs a).bind ((prunedWithin_returns hs b).bind ?_))
    rw [← resolve_prune hs a, ← resolve_prune hs b]
    have hunbound : ∀ {t v}, s.prune t = .var v → s.resolve (.var v) = .var v := by
      intro t v hp
      rw [resolve_var hs, binding?_of_prune hs hp]
    -- where the heads differ the resolved types do, as neither is a bound variable
    cases ha : s.prune a with
    | scalar p =>
      cases hb : s.prune b with
      | scalar q => simpa [resolve_scalar hs] using Returns.const _
      | wrap q u => simpa [resolve_scalar hs, resolve_wrap hs] using Returns.const _
      | compound q us => simpa [resolve_scalar hs, resolve_compound hs] using Returns.const _
      | var w => simpa [resolve_scalar hs, hunbound hb] using Returns.const _
    | wrap p t =>
      cases hb : s.prune b with
      | scalar q => simpa [resolve_scalar hs, resolve_wrap hs] using Returns.const _
      | wrap q u =>
        simp only [resolve_wrap hs, Ty.wrap.injEq]
        by_cases hpq : p = q
        · simpa [hpq] using ih t (by simp [ha, Ty.arguments]) u
        · simpa [hpq] using Returns.const _
      | compound q us => simpa [resolve_wrap hs, resolve_compound hs] using Returns.const _
      | var w => simpa [resolve_wrap hs, hunbound hb] using Returns.const _
    | compound p ts =>
      cases hb : s.prune b with
      | scalar q => simpa [resolve_scalar hs, resolve_compound hs] using Returns.const _
      | wrap q u => simpa [resolve_wrap hs, resolve_compound hs] using Returns.const _
      | compound q us =>
        simp only [resolve_compound hs, Ty.compound.injEq]
        by_cases hpq : p = q ∧ ts.length = us.length
        · have hall : decide (p = q ∧ ts.map s.resolve = us.map s.resolve) =
              (ts.zip us).all fun p => decide (s.resolve p.1 = s.resolve p.2) := by
            rw [all_zip_eq hpq.2]
            simp [hpq.1]
          simp only [hall, if_pos hpq]
          refine returns_allM fun p hp => ih p.1 ?_ p.2
          simpa [ha, Ty.arguments] using (List.of_mem_zip hp).1
        · have hne : ¬(p = q ∧ ts.map s.resolve = us.map s.resolve) := by
            rintro ⟨hp, hmap⟩
            exact hpq ⟨hp, by simpa using congrArg List.length hmap⟩
          simp only [decide_eq_false hne, if_neg hpq]
          exact .const false
      | var w => simpa [resolve_compound hs, hunbound hb] using Returns.const _
    | var v =>
      cases hb : s.prune b with
      | var w => simpa [hunbound ha, hunbound hb] using Returns.const _
      | scalar q => simpa [resolve_scalar hs, hunbound ha] using Returns.const _
      | wrap q u => simpa [resolve_wrap hs, hunbound ha] using Returns.const _
      | compound q us => simpa [resolve_compound hs, hunbound ha] using Returns.const _

/-! ## Fewer unbound variables -/

/-- the number of unbound variables -/
def unbound (s : Store) : Nat :=
  ((Finset.range s.size).filter fun v => s.binding? v = none).card

/-- A proper binding leaves one unbound variable less. -/
theorem Binds.unbound_lt {s' : Store} (h : s.Binds s') : s'.unbound < s.unbound := by
  obtain ⟨v, t, hp, rfl⟩ := h
  refine Finset.card_lt_card (Finset.ssubset_iff_of_subset ?_ |>.2 ⟨v, ?_, ?_⟩)
  · intro w hw
    rw [Finset.mem_filter, size_bind, binding?_bind s hp.lt] at hw
    rw [Finset.mem_filter]
    refine ⟨hw.1, ?_⟩
    by_cases hwv : w = v
    · exact hwv ▸ hp.unbound
    · rw [if_neg hwv] at hw
      exact hw.2
  · exact Finset.mem_filter.2 ⟨Finset.mem_range.2 hp.lt, hp.unbound⟩
  · simp [binding?_bind s hp.lt]

/-- A store that grows is the same store, or has fewer unbound variables. -/
theorem Grows.unbound_lt {s' : Store} (h : s.Grows s') : s' = s ∨ s'.unbound < s.unbound := by
  induction h with
  | refl => exact .inl rfl
  | tail _ hb ih =>
    rcases ih with rfl | hlt
    · exact .inr hb.unbound_lt
    · exact .inr (hb.unbound_lt.trans hlt)

/-! ## Unification -/

/-- unification of two lists pair by pair -/
def unifyList : Store → List Ty → List Ty → Option Store
  | s, t :: ts, u :: us => (s.unify t u).bind fun s' => unifyList s' ts us
  | s, _, _ => some s

variable {a b : Ty}

/-- However deep, unification goes through two types side by side. -/
theorem reconcileWithin_eq_alongside (settle : Store → VarId → Ty → Option Store) (n : Nat) :
    ∃ meet, reconcileWithin settle n = alongside meet := by
  cases n with
  | zero => exact ⟨_, rfl⟩
  | succ n => exact ⟨_, rfl⟩

theorem unify_wrap (p q : Wrapper) (t u : Ty) :
    s.unify (.wrap p t) (.wrap q u) = if p = q then s.unify t u else none := by
  obtain ⟨meet, hmeet⟩ := reconcileWithin_eq_alongside assign (2 * s.size)
  rw [unify, unify, reconcile, reconcile, hmeet, alongside]

theorem alongsideList_eq_unifyList {meet : Store → Ty → Ty → Option Store} {n : Nat}
    (hmeet : reconcileWithin assign n = alongside meet) : ∀ {ts us : List Ty} {s : Store}, s.WellFormed →
    2 * s.size ≤ n → (∀ t ∈ ts, s.Covers t) → (∀ u ∈ us, s.Covers u) → alongsideList meet s ts us = s.unifyList ts us
  | [], _, _, _, _, _, _ => rfl
  | _ :: _, [], _, _, _, _, _ => rfl
  | t :: ts, u :: us, s, hs, hn, hts, hus => by
    have ht := hts t List.mem_cons_self
    have hu := hus u List.mem_cons_self
    rw [alongsideList, unifyList, ← hmeet, reconcileWithin_eq lawful_assign hs ht hu hn]
    rw [← unify]
    cases hfirst : s.unify t u with
    | none => rfl
    | some s' =>
      have hgrows := unify_grows hs ht hu hfirst
      exact alongsideList_eq_unifyList hmeet (hgrows.wellFormed hs) (hgrows.size_eq ▸ hn)
        (fun t' ht' => hgrows.covers (hts t' (List.mem_cons_of_mem _ ht')))
        fun u' hu' => hgrows.covers (hus u' (List.mem_cons_of_mem _ hu'))

theorem unify_compound (hs : s.WellFormed) {p q : Former} {ts us : List Ty} (ha : s.Covers (.compound p ts))
    (hb : s.Covers (.compound q us)) :
    s.unify (.compound p ts) (.compound q us) =
      if p = q ∧ ts.length = us.length then s.unifyList ts us else none := by
  obtain ⟨meet, hmeet⟩ := reconcileWithin_eq_alongside assign (2 * s.size)
  rw [unify, reconcile, hmeet, alongside, alongsideList_eq_unifyList hmeet hs (Nat.le_refl _) (fun t => ha.part)
    fun u => hb.part]

theorem prune_of_ne_var {t : Ty} (h : ∀ v, t ≠ .var v) : s.prune t = t := by
  cases t with
  | scalar c => exact prune_scalar c
  | wrap w t => exact prune_wrap w t
  | compound f ts => exact prune_compound f ts
  | var v => exact absurd rfl (h v)

/-- Unification prunes both sides first. -/
theorem unify_pruned (hs : s.WellFormed) (ha : s.Covers a) (hb : s.Covers b) :
    s.unify a b = match s.prune a, s.prune b with
      | .var v, .var w => if v = w then some s else s.assign v (.var w)
      | .var v, t => s.assign v t
      | t, .var w => s.assign w t
      | t, u => s.unify t u := by
  by_cases hm : Meets a b
  · -- one more pruning changes nothing, and is made first thing
    have hmore := reconcileWithin_eq lawful_assign hs ha hb (Nat.le_succ (2 * s.size))
    rw [unify, ← hmore, reconcileWithin]
    rcases hm with ⟨v, rfl⟩ | ⟨w, rfl⟩
    · rw [alongside]
      rfl
    · cases a <;> (simp only [alongside]; rfl)
  · have hva : ∀ v, a ≠ .var v := fun v h => hm (.inl ⟨v, h⟩)
    have hvb : ∀ v, b ≠ .var v := fun v h => hm (.inr ⟨v, h⟩)
    rw [prune_of_ne_var hva, prune_of_ne_var hvb]
    split
    · exact absurd rfl (hva _)
    · exact absurd rfl (hva _)
    · exact absurd rfl (hvb _)
    · rfl

namespace Attempt

variable {x : Attempt}

/-- where the attempt gets to with the two types is where unification does, and the trail is in order -/
def Comes (call : Nat → Option (Bool × Attempt)) (x : Attempt) (expected : Option Store) : Prop :=
  ∃ r, Returns call r ∧ outcome r = expected ∧ ∀ s, x.Since s → r.2.Since s

theorem Comes.succ {call : Nat → Option (Bool × Attempt)} {expected : Option Store}
    (h : Comes (fun n => call (n + 1)) x expected) : Comes call x expected := by
  obtain ⟨r, hr, h⟩ := h
  exact ⟨r, hr.succ, h⟩

theorem Comes.bind {α : Type} {f : Nat → Option α} {a : α} {call : Nat → α → Option (Bool × Attempt)}
    {expected : Option Store} (hf : Returns f a) (h : Comes (fun n => call n a) x expected) :
    Comes (fun n => f n >>= call n) x expected := by
  obtain ⟨r, hr, h⟩ := h
  exact ⟨r, hf.bind hr, h⟩

theorem Comes.failed : Comes (fun _ => some (false, x)) x none :=
  ⟨(false, x), .const _, rfl, fun _ h => h⟩

theorem Comes.same : Comes (fun _ => some (true, x)) x (some x.store) :=
  ⟨(true, x), .const _, rfl, fun _ h => h⟩

theorem assignWithin_comes (hs : x.store.Acyclic) {v : VarId} (hunbound : x.store.binding? v = none) (t : Ty) :
    Comes (fun n => x.assignWithin n v t) x (x.store.assign v t) := by
  refine ⟨x.assign v t, ?_, ?_, fun s h => (h.assign hunbound t).2⟩
  · rw [Attempt.assign]
    refine (occursWithin_returns hs v t).bind ?_
    cases x.store.occurs v t <;> exact .const _
  · rw [Attempt.assign, Store.assign]
    cases x.store.occurs v t <;> rfl

/-- If each pair comes to what unification comes to, in every store that may follow, then so do the lists. -/
theorem inTurn_comes {call : Nat → Ty → Ty → Attempt → Option (Bool × Attempt)} : ∀ {ts us : List Ty} {x : Attempt},
    x.store.WellFormed → (∀ t ∈ ts, x.store.Covers t) → (∀ u ∈ us, x.store.Covers u) →
    (∀ x' : Attempt, x.store.Grows x'.store → ∀ t ∈ ts, ∀ u ∈ us, Comes (fun n => call n t u x') x' (x'.store.unify t u)) →
    Comes (fun n => inTurn (call n) ts us x) x (x.store.unifyList ts us)
  | [], us, x, _, _, _, _ => by
    cases us <;> exact .same
  | _ :: _, [], x, _, _, _, _ => .same
  | t :: ts, u :: us, x, hs, hts, hus, hcall => by
    have ht := hts t List.mem_cons_self
    have hu := hus u List.mem_cons_self
    obtain ⟨⟨done, x'⟩, hfirst, houtcome, hsince⟩ :=
      hcall x (.refl x.store) t List.mem_cons_self u List.mem_cons_self
    rw [unifyList, ← houtcome]
    cases done with
    | false => exact ⟨(false, x'), hfirst.bind (.const _), rfl, hsince⟩
    | true =>
      have hgrows : x.store.Grows x'.store := unify_grows hs ht hu houtcome.symm
      obtain ⟨r, hrest, hcomes, hsince'⟩ := inTurn_comes (x := x') (hgrows.wellFormed hs)
        (fun t' ht' => hgrows.covers (hts t' (List.mem_cons_of_mem _ ht')))
        (fun u' hu' => hgrows.covers (hus u' (List.mem_cons_of_mem _ hu')))
        fun x'' hx'' t' ht' u' hu' => hcall x'' (hgrows.trans hx'') t' (List.mem_cons_of_mem _ ht') u'
          (List.mem_cons_of_mem _ hu')
      exact ⟨r, hfirst.bind hrest, hcomes, fun s h => hsince' s (hsince s h)⟩

/-- One round of unification comes to what it is said to come to if the rounds for the parts do, in every store that may
follow. -/
theorem unifyWithin_step (hs : x.store.WellFormed) (ha : x.store.Covers a) (hb : x.store.Covers b)
    (hparts : ∀ x' : Attempt, x.store.Grows x'.store → ∀ t ∈ (x.store.prune a).arguments, ∀ u, x.store.Covers t →
      x.store.Covers u → Comes (fun n => unifyWithin n t u x') x' (x'.store.unify t u)) :
    Comes (fun n => unifyWithin n a b x) x (x.store.unify a b) := by
  have hca := hs.covers_prune ha
  have hcb := hs.covers_prune hb
  have hassign : ∀ {t v u}, x.store.prune t = .var v →
      Comes (fun n => x.assignWithin n v u) x (x.store.assign v u) :=
    fun hp => assignWithin_comes hs.acyclic (binding?_of_prune hs.acyclic hp) _
  obtain ⟨meet, hmeet⟩ := reconcileWithin_eq_alongside Store.assign (2 * x.store.size)
  have hunify : ∀ a b, x.store.unify a b = Store.alongside meet x.store a b := fun a b => by
    rw [unify, reconcile, hmeet]
  refine .succ (.bind (prunedWithin_returns hs.acyclic a) (.bind (prunedWithin_returns hs.acyclic b) ?_))
  rw [unify_pruned hs ha hb]
  cases hpa : x.store.prune a with
  | var v =>
    cases hpb : x.store.prune b with
    | var w =>
      dsimp only
      by_cases hvw : v = w
      · simp only [if_pos hvw]
        exact .same
      · simp only [if_neg hvw]
        exact hassign hpa
    | _ => exact hassign hpa
  | scalar p =>
    cases hpb : x.store.prune b with
    | var w => exact hassign hpb
    | scalar q =>
      simp only [hunify, Store.alongside]
      by_cases hpq : p = q
      · simp only [if_pos hpq, decide_eq_true hpq]
        exact .same
      · simp only [if_neg hpq, decide_eq_false hpq]
        exact .failed
    | _ =>
      simp only [hunify, Store.alongside]
      exact .failed
  | wrap p t =>
    cases hpb : x.store.prune b with
    | var w => exact hassign hpb
    | wrap q u =>
      rw [hpa] at hca
      rw [hpb] at hcb
      simp only [unify_wrap]
      by_cases hpq : p = q
      · simp only [if_pos hpq]
        exact hparts x (.refl x.store) t (by simp [hpa, Ty.arguments]) u hca hcb
      · simp only [if_neg hpq]
        exact .failed
    | _ =>
      simp only [hunify, Store.alongside]
      exact .failed
  | compound p ts =>
    cases hpb : x.store.prune b with
    | var w => exact hassign hpb
    | compound q us =>
      rw [hpa] at hca
      rw [hpb] at hcb
      simp only [unify_compound hs hca hcb]
      by_cases hpq : p = q ∧ ts.length = us.length
      · simp only [if_pos hpq]
        refine inTurn_comes hs (fun t => hca.part) (fun u => hcb.part) fun x' hx' t ht u hu => ?_
        exact hparts x' hx' t (by simpa [hpa, Ty.arguments] using ht) u (hca.part ht) (hcb.part hu)
      · simp only [if_neg hpq]
        exact .failed
    | _ =>
      simp only [hunify, Store.alongside]
      exact .failed

/-- Unification comes to an end, and to what it is said to come to. While the store stays, it goes down to parts of pruned
types; once the store has changed, fewer variables are unbound. -/
theorem unifyWithin_comes (hs : x.store.WellFormed) (ha : x.store.Covers a) (hb : x.store.Covers b) :
    Comes (fun n => unifyWithin n a b x) x (x.store.unify a b) := by
  induction hm : x.store.unbound using Nat.strongRecOn generalizing x a b with
  | _ m later =>
    obtain ⟨s, trail⟩ := x
    dsimp only at hs ha hb hm
    induction a using hs.acyclic.pruned_induction generalizing b trail with
    | h a ih =>
      refine unifyWithin_step hs ha hb ?_
      rintro ⟨s', trail'⟩ hgrows t ht u hct hcu
      rcases hgrows.unbound_lt with rfl | hlt
      · exact ih t ht trail' hct hcu
      · exact later _ (hm ▸ hlt) (hgrows.wellFormed hs) (hgrows.covers hct) (hgrows.covers hcu) rfl

end Attempt

theorem unifyInPlaceWithin_returns (hs : s.WellFormed) (ha : s.Covers a) (hb : s.Covers b) :
    Returns (fun n => s.unifyInPlaceWithin n a b) (s.unifyInPlace a b) := by
  obtain ⟨r, hr, houtcome, hsince⟩ := Attempt.unifyWithin_comes (x := { store := s }) hs ha hb
  refine hr.bind ?_
  rw [unifyInPlace_eq hs.acyclic, ← houtcome]
  obtain ⟨done, x⟩ := r
  cases done with
  | true => exact .const _
  | false =>
    have hundo : x.undo = s := (hsince s (.start hs.acyclic)).undo
    simp only [hundo]
    exact .const _

/-- **The algorithms on types come to an end.** In every well-formed store and for all its types, calls may be nested deep
enough for pruning, the occurs check, dereferencing, comparison, display and unification to return, and what they return
is what they are said to come to. -/
theorem type_algorithms_return (hs : s.WellFormed) (ha : s.Covers a) (hb : s.Covers b) (v : VarId)
    (name : SymbolId → String) :
    ∃ depth, ∀ n, depth ≤ n →
      s.prunedWithin n a = some (s.prune a) ∧
      s.occursWithin v n a = some (s.occurs v a) ∧
      s.derefWithin n a = some (s.deref? a) ∧
      s.equalWithin n a b = some (s.equal a b) ∧
      s.displayWithin name n a = some (s.display name a) ∧
      s.unifyInPlaceWithin n a b = some (s.unifyInPlace a b) := by
  have hac := hs.acyclic
  obtain ⟨n₁, h₁⟩ := prunedWithin_returns hac a
  obtain ⟨n₂, h₂⟩ := occursWithin_returns hac v a
  obtain ⟨n₃, h₃⟩ := derefWithin_returns hac a
  obtain ⟨n₄, h₄⟩ := equalWithin_returns hac a b
  obtain ⟨n₅, h₅⟩ := displayWithin_returns hac name a
  obtain ⟨n₆, h₆⟩ := unifyInPlaceWithin_returns hs ha hb
  have hequal : decide (s.resolve a = s.resolve b) = s.equal a b := by
    rw [Bool.eq_iff_iff, decide_eq_true_iff, equal_iff hs ha hb]
  refine ⟨n₁ + n₂ + n₃ + n₄ + n₅ + n₆, fun n hn => ⟨h₁ n (by omega), h₂ n (by omega), h₃ n (by omega), ?_,
    h₅ n (by omega), h₆ n (by omega)⟩⟩
  rw [← hequal]
  exact h₄ n (by omega)

/-- The last variable is a pair of the third, and to unify it with a pair binds the first. -/
theorem chainedStore_returns : ∃ depth, ∀ n, depth ≤ n →
    chainedStore.prunedWithin n (.var 3) = some (.tuple [.var 2, .ref (.var 2)]) ∧
    chainedStore.derefWithin n (.var 3) = some (some (.tuple [.int, .ref .int])) ∧
    chainedStore.unifyInPlaceWithin n (.var 3) (.tuple [.int, .ref (.var 0)]) = some (true, chainedStore.bind 0 .int) := by
  obtain ⟨depth, h⟩ := type_algorithms_return chainedStore_wellFormed (a := .var 3) (b := .tuple [.int, .ref (.var 0)])
    (by decide) (by decide) 0 (fun _ => "")
  refine ⟨depth, fun n hn => ?_⟩
  obtain ⟨hpruned, -, hderef, -, -, hunify⟩ := h n hn
  exact ⟨hpruned.trans (by decide), hderef.trans (by decide), hunify.trans (by decide)⟩

/-- a variable bound to references to itself -/
def loopStore : Store :=
  (fresh {}).2.bind 0 (.ref (.var 0))

/-- In a cycle no limit is enough. -/
theorem loopStore_never_returns (n : Nat) : loopStore.derefWithin n (.var 0) = none := by
  have hboth : loopStore.derefWithin n (.var 0) = none ∧ loopStore.derefWithin n (.ref (.var 0)) = none := by
    induction n with
    | zero => exact ⟨rfl, rfl⟩
    | succ n ih =>
      refine ⟨ih.2, ?_⟩
      rw [derefWithin, ih.1]
      rfl
  exact hboth.1

end Store

end DualInference
