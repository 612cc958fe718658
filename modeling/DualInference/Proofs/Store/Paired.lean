/-
Two stores side by side.

Two stores are paired if paired variables have bindings that are alike (`Paired`). Then every reading of types that are
alike comes out alike: pruned and resolved types are alike, a dereferenced type is the same in both, and a variable
occurs in the one exactly if its partner occurs in the other. Unification and comparison take the same course in both.

`Later` says what may happen to two stores meanwhile: variables are added, and those of them that are paired are new on
both sides; a variable without a partner keeps its binding. So what a pair of inferences does not share it leaves alone.
-/
import DualInference.Proofs.Store.Unify
import DualInference.Proofs.Ty.Alike

namespace DualInference

namespace Store

/-- paired variables have bindings that are alike -/
structure Paired (D : Former → Nat → Prop) (V : Pairing) (s s' : Store) : Prop where
  left : s.WellFormed
  right : s'.WellFormed
  left_lt : ∀ {v w}, V.pairs v w → v < s.size
  right_lt : ∀ {v w}, V.pairs v w → w < s'.size
  binding : ∀ {v w}, V.pairs v w → Option.Rel (Ty.Alike D V) (s.binding? v) (s'.binding? w)

/-- from two stores to two later ones -/
structure Later (V : Pairing) (s s' : Store) (V₁ : Pairing) (s₁ s₁' : Store) : Prop where
  le : V ≤ V₁
  new : ∀ {v w}, V₁.pairs v w → V.pairs v w ∨ s.size ≤ v ∧ s'.size ≤ w
  left_size : s.size ≤ s₁.size
  right_size : s'.size ≤ s₁'.size
  left_keeps : ∀ {v}, v < s.size → (∀ w, ¬V.pairs v w) → s₁.binding? v = s.binding? v
  right_keeps : ∀ {w}, w < s'.size → (∀ v, ¬V.pairs v w) → s₁'.binding? w = s'.binding? w

theorem Later.refl (V : Pairing) (s s' : Store) : Later V s s' V s s' where
  le := le_refl V
  new h := .inl h
  left_size := Nat.le_refl _
  right_size := Nat.le_refl _
  left_keeps _ _ := rfl
  right_keeps _ _ := rfl

theorem Later.trans {V V₁ V₂ : Pairing} {s s' s₁ s₁' s₂ s₂' : Store} (h : Later V s s' V₁ s₁ s₁')
    (h' : Later V₁ s₁ s₁' V₂ s₂ s₂') : Later V s s' V₂ s₂ s₂' where
  le := h.le.trans h'.le
  new {v w} hp := by
    rcases h'.new hp with hp | ⟨hv, hw⟩
    · exact h.new hp
    · exact .inr ⟨h.left_size.trans hv, h.right_size.trans hw⟩
  left_size := h.left_size.trans h'.left_size
  right_size := h.right_size.trans h'.right_size
  left_keeps {v} hv hV := by
    have hV₁ : ∀ w, ¬V₁.pairs v w := by
      intro w hp
      rcases h.new hp with hp | ⟨hle, _⟩
      · exact hV w hp
      · omega
    rw [h'.left_keeps (hv.trans_le h.left_size) hV₁, h.left_keeps hv hV]
  right_keeps {w} hw hV := by
    have hV₁ : ∀ v, ¬V₁.pairs v w := by
      intro v hp
      rcases h.new hp with hp | ⟨_, hle⟩
      · exact hV v hp
      · omega
    rw [h'.right_keeps (hw.trans_le h.right_size) hV₁, h.right_keeps hw hV]

/-- a later store in which nothing happened to the variables of the earlier one -/
structure Extends (s s₁ : Store) : Prop where
  size : s.size ≤ s₁.size
  binding : ∀ {v}, v < s.size → s₁.binding? v = s.binding? v

theorem Extends.refl (s : Store) : s.Extends s :=
  ⟨Nat.le_refl _, fun _ => rfl⟩

/-- Without pairs, nothing happens to the variables that were there. -/
theorem Later.extends_left {s s' s₁ s₁' : Store} {V₁ : Pairing} (h : Later .none s s' V₁ s₁ s₁') : s.Extends s₁ :=
  ⟨h.left_size, fun hv => h.left_keeps hv fun _ hp => hp⟩

theorem Later.extends_right {s s' s₁ s₁' : Store} {V₁ : Pairing} (h : Later .none s s' V₁ s₁ s₁') : s'.Extends s₁' :=
  ⟨h.right_size, fun hv => h.right_keeps hv fun _ hp => hp⟩

theorem Later.of_extends {s s' s₁ s₁' : Store} (V : Pairing) (h : s.Extends s₁) (h' : s'.Extends s₁') :
    Later V s s' V s₁ s₁' where
  le := le_refl V
  new hp := .inl hp
  left_size := h.size
  right_size := h'.size
  left_keeps hv _ := h.binding hv
  right_keeps hw _ := h'.binding hw

section

variable {D : Former → Nat → Prop} {V : Pairing} {s s' : Store}

theorem Paired.unpaired (hs : s.WellFormed) (hs' : s'.WellFormed) : Paired D .none s s' :=
  ⟨hs, hs', fun h => h.elim, fun h => h.elim, fun h => h.elim⟩

theorem Paired.of_extends {s₁ s₁' : Store} (h : Paired D V s s') (he : s.Extends s₁) (he' : s'.Extends s₁')
    (hs₁ : s₁.WellFormed) (hs₁' : s₁'.WellFormed) : Paired D V s₁ s₁' where
  left := hs₁
  right := hs₁'
  left_lt hp := (h.left_lt hp).trans_le he.size
  right_lt hp := (h.right_lt hp).trans_le he'.size
  binding hp := by
    rw [he.binding (h.left_lt hp), he'.binding (h.right_lt hp)]
    exact h.binding hp

theorem Paired.covers_left (h : Paired D V s s') {t u : Ty} (ht : t.Alike D V u) : s.Covers t := by
  intro v hv
  obtain ⟨w, _, hp⟩ := ht.pairs_vars v hv
  exact h.left_lt hp

theorem Paired.covers_right (h : Paired D V s s') {t u : Ty} (ht : t.Alike D V u) : s'.Covers u := by
  intro w hw
  obtain ⟨v, _, hp⟩ := ht.flip.pairs_vars w hw
  exact h.right_lt hp

/-! ## Readings -/

/-- Walks that go along with each other read types that are alike in related ways. -/
theorem Paired.read {α β : Type} {Q : α → β → Prop} {walk : (VarId → α) → Ty → α} {walk' : (VarId → β) → Ty → β}
    {leaf : VarId → Option α → α} {leaf' : VarId → Option β → β} (h : Paired D V s s') (hlocal : Local walk)
    (hlocal' : Local walk')
    (hwalk : ∀ f g, (∀ v w, V.pairs v w → Q (f v) (g w)) → ∀ t u, t.Alike D V u → Q (walk f t) (walk' g u))
    (hleaf : ∀ v w, V.pairs v w → ∀ a b, Option.Rel Q a b → Q (leaf v a) (leaf' w b)) {t u : Ty}
    (htu : t.Alike D V u) : Q (s.read walk leaf t) (s'.read walk' leaf' u) := by
  have hfollow : ∀ n t u, t.Alike D V u → Q (s.follow walk leaf n t) (s'.follow walk' leaf' n u) := by
    intro n
    induction n with
    | zero =>
      intro t u htu
      exact hwalk _ _ (fun v w hp => hleaf v w hp _ _ .none) t u htu
    | succ n ih =>
      intro t u htu
      refine hwalk _ _ (fun v w hp => hleaf v w hp _ _ ?_) t u htu
      exact Ty.rel_map ih (h.binding hp)
  rw [← follow_eq_read h.left.acyclic hlocal (Nat.le_max_left s.size s'.size),
    ← follow_eq_read h.right.acyclic hlocal' (Nat.le_max_right s.size s'.size)]
  exact hfollow _ t u htu

/-- A variable reads as its binding, or else as itself. -/
theorem getD_alike {v w : VarId} (hp : V.pairs v w) {a b : Option Ty} (h : Option.Rel (Ty.Alike D V) a b) :
    (a.getD (.var v)).Alike D V (b.getD (.var w)) := by
  cases h with
  | some h => exact h
  | none => exact .var hp

theorem Paired.prune (h : Paired D V s s') {t u : Ty} (htu : t.Alike D V u) : (s.prune t).Alike D V (s'.prune u) :=
  h.read local_atRoot local_atRoot (fun _ _ hfg _ _ => Ty.Alike.atRoot hfg) (fun _ _ hp _ _ => getD_alike hp) htu

theorem Paired.resolve (h : Paired D V s s') {t u : Ty} (htu : t.Alike D V u) :
    (s.resolve t).Alike D V (s'.resolve u) :=
  h.read local_subst local_subst (fun _ _ hfg _ _ => Ty.Alike.subst hfg) (fun _ _ hp _ _ => getD_alike hp) htu

theorem Paired.deref? (h : Paired D V s s') {t u : Ty} (htu : t.Alike D V u) :
    Option.Rel (Ty.Alike D .none) (s.deref? t) (s'.deref? u) := by
  refine h.read (Q := Option.Rel (Ty.Alike D .none)) local_subst? local_subst? (fun _ _ hfg _ _ => Ty.Alike.subst? hfg)
    (fun v w hp a b hab => ?_) htu
  cases hab with
  | some h => exact h
  | none => exact .none

theorem Paired.occurs (h : Paired D V s s') {v w : VarId} (hp : V.pairs v w) {t u : Ty} (htu : t.Alike D V u) :
    s.occurs v t = s'.occurs w u := by
  refine h.read (Q := Eq) local_anyVar local_anyVar (fun _ _ hfg _ _ => Ty.Alike.anyVar hfg)
    (fun x y hxy a b hab => ?_) htu
  cases hab with
  | some h => exact h
  | none =>
    have hiff : x = v ↔ y = w :=
      ⟨fun hx => V.right_unique (hx ▸ hxy) hp, fun hy => V.left_unique (hy ▸ hxy) hp⟩
    simp only [Option.getD_none, Bool.beq_eq_decide_eq, hiff]

/-! ## Making and binding variables -/

/-- A new variable in each of two paired stores makes a new pair. -/
theorem Paired.fresh (h : Paired D V s s') :
    ∃ V₁ : Pairing, V₁.pairs s.size s'.size ∧ Paired D V₁ s.fresh.2 s'.fresh.2 ∧
      Later V s s' V₁ s.fresh.2 s'.fresh.2 := by
  have hv : ∀ w, ¬V.pairs s.size w := fun w hp => Nat.lt_irrefl _ (h.left_lt hp)
  have hw : ∀ v, ¬V.pairs v s'.size := fun v hp => Nat.lt_irrefl _ (h.right_lt hp)
  have hle : V ≤ V.insert s.size s'.size hv hw := fun _ _ => .inl
  refine ⟨V.insert s.size s'.size hv hw, .inr ⟨rfl, rfl⟩, ?_, ?_⟩
  · refine ⟨h.left.fresh, h.right.fresh, ?_, ?_, ?_⟩
    · rintro v w (hp | ⟨rfl, rfl⟩)
      · exact (h.left_lt hp).trans (by simp)
      · simp
    · rintro v w (hp | ⟨rfl, rfl⟩)
      · exact (h.right_lt hp).trans (by simp)
      · simp
    · rintro v w (hp | ⟨rfl, rfl⟩)
      · rw [binding?_fresh, binding?_fresh]
        rcases Ty.rel_cases (h.binding hp) with ⟨hb, hb'⟩ | ⟨t, u, hb, hb', htu⟩
        · rw [hb, hb']
          exact .none
        · rw [hb, hb']
          exact .some (htu.mono hle)
      · rw [binding?_fresh, binding?_fresh, binding?_of_size_le (Nat.le_refl _), binding?_of_size_le (Nat.le_refl _)]
        exact .none
  · refine ⟨hle, ?_, by simp, by simp, fun _ _ => binding?_fresh s _, fun _ _ => binding?_fresh s' _⟩
    rintro v w (hp | ⟨rfl, rfl⟩)
    · exact .inl hp
    · exact .inr ⟨Nat.le_refl _, Nat.le_refl _⟩

/-- Partners that are both bound properly to types that are alike stay partners. -/
theorem Paired.bind (h : Paired D V s s') {v w : VarId} (hp : V.pairs v w) {t u : Ty} (htu : t.Alike D V u)
    (hv : s.Proper v t) (hw : s'.Proper w u) : Paired D V (s.bind v t) (s'.bind w u) := by
  refine ⟨h.left.bind hv, h.right.bind hw, fun hxy => by simpa using h.left_lt hxy,
    fun hxy => by simpa using h.right_lt hxy, fun {x y} hxy => ?_⟩
  rw [binding?_bind s hv.lt, binding?_bind s' hw.lt]
  by_cases hx : x = v
  · have hy : y = w := V.right_unique (hx ▸ hxy) hp
    rw [if_pos hx, if_pos hy]
    exact .some htu
  · have hy : y ≠ w := fun hy => hx (V.left_unique (hy ▸ hxy) hp)
    rw [if_neg hx, if_neg hy]
    exact h.binding hxy

theorem Later.bind {v w : VarId} (hp : V.pairs v w) (hv : v < s.size) (hw : w < s'.size) (t u : Ty) :
    Later V s s' V (s.bind v t) (s'.bind w u) where
  le := le_refl V
  new h := .inl h
  left_size := (size_bind s v t).ge
  right_size := (size_bind s' w u).ge
  left_keeps {x} _ hx := by
    rw [binding?_bind s hv, if_neg]
    rintro rfl
    exact hx w hp
  right_keeps {y} _ hy := by
    rw [binding?_bind s' hw, if_neg]
    rintro rfl
    exact hy v hp

/-! ## Comparison -/

section Comparison

variable {I : Store → Store → Prop} {meet meet' : Store → Ty → Ty → Option Store}

mutual

/-- Comparisons go along with each other if they do wherever variables meet. -/
theorem alongside_alike
    (hmeet : ∀ s s' a a' b b', I s s' → Ty.Alike D V a a' → Ty.Alike D V b b' →
      Option.Rel I (meet s a b) (meet' s' a' b')) :
    ∀ {a b a' b' : Ty} {s s' : Store}, I s s' → a.Alike D V a' → b.Alike D V b' →
      Option.Rel I (alongside meet s a b) (alongside meet' s' a' b')
  | .var v, b, a', b', s, s', hI, ha, hb => by
    have ha' := ha
    cases ha with
    | var hp =>
      simp only [alongside]
      exact hmeet _ _ _ _ _ _ hI ha' hb
  | .scalar p, b, a', b', s, s', hI, ha, hb => by
    have hb' := hb
    cases ha
    cases hb with
    | var hp =>
      simp only [alongside]
      exact hmeet _ _ _ _ _ _ hI (.scalar p) hb'
    | scalar q =>
      simp only [alongside]
      split
      · exact .some hI
      · exact .none
    | _ =>
      simp only [alongside]
      exact .none
  | .wrap p t, b, a', b', s, s', hI, ha, hb => by
    have ha' := ha
    have hb' := hb
    cases ha with
    | wrap _ ht =>
      cases hb with
      | var hp =>
        simp only [alongside]
        exact hmeet _ _ _ _ _ _ hI ha' hb'
      | wrap w h =>
        simp only [alongside]
        split
        · exact alongside_alike hmeet hI ht h
        · exact .none
      | _ =>
        simp only [alongside]
        exact .none
  | .compound p ts, b, a', b', s, s', hI, ha, hb => by
    have ha' := ha
    have hb' := hb
    cases ha with
    | compound _ _ hts =>
      cases hb with
      | var hp =>
        simp only [alongside]
        exact hmeet _ _ _ _ _ _ hI ha' hb'
      | compound f hlen hus =>
        simp only [alongside, hts.length_eq, hus.length_eq]
        split
        · exact alongsideList_alike hmeet hI hts hus
        · exact .none
      | _ =>
        simp only [alongside]
        exact .none

theorem alongsideList_alike
    (hmeet : ∀ s s' a a' b b', I s s' → Ty.Alike D V a a' → Ty.Alike D V b b' →
      Option.Rel I (meet s a b) (meet' s' a' b')) :
    ∀ {as bs as' bs' : List Ty} {s s' : Store}, I s s' → List.Forall₂ (Ty.Alike D V) as as' →
      List.Forall₂ (Ty.Alike D V) bs bs' →
      Option.Rel I (alongsideList meet s as bs) (alongsideList meet' s' as' bs')
  | [], bs, as', bs', s, s', hI, ha, hb => by
    cases ha
    simp only [alongsideList]
    exact .some hI
  | a :: as, [], as', bs', s, s', hI, ha, hb => by
    cases ha
    cases hb
    simp only [alongsideList]
    exact .some hI
  | a :: as, b :: bs, as', bs', s, s', hI, ha, hb => by
    cases ha with
    | cons ha has =>
      cases hb with
      | cons hb hbs =>
        simp only [alongsideList]
        rcases Ty.rel_cases (alongside_alike hmeet hI ha hb) with ⟨h, h'⟩ | ⟨s₁, s₁', h, h', hI₁⟩
        · rw [h, h']
          exact .none
        · rw [h, h']
          exact alongsideList_alike hmeet hI₁ has hbs

end

/-- what is done where an unbound variable meets another type goes along with what is done where its partner does -/
def SettlesAlike (D : Former → Nat → Prop) (V : Pairing) (I : Store → Store → Prop)
    (settle : Store → VarId → Ty → Option Store) : Prop :=
  ∀ {s s' v w t u}, I s s' → V.pairs v w → s.binding? v = none → s'.binding? w = none → Ty.Alike D V t u →
    Option.Rel I (settle s v t) (settle s' w u)

/-- Comparisons in paired stores go along with each other. -/
theorem reconcileWithin_alike {settle : Store → VarId → Ty → Option Store} (hI : ∀ {s s'}, I s s' → Paired D V s s')
    (hset : SettlesAlike D V I settle) (n : Nat) {s s' : Store} {a a' b b' : Ty} (h : I s s') (ha : a.Alike D V a')
    (hb : b.Alike D V b') : Option.Rel I (reconcileWithin settle n s a b) (reconcileWithin settle n s' a' b') := by
  induction n generalizing s s' a a' b b' with
  | zero => exact alongside_alike (fun _ _ _ _ _ _ _ _ _ => .none) h ha hb
  | succ n ih =>
    refine alongside_alike (fun s s' a a' b b' h ha hb => ?_) h ha hb
    have hpa := (hI h).prune ha
    have hpb := (hI h).prune hb
    have hfree : ∀ {t v}, s.prune t = .var v → s.binding? v = none := binding?_of_prune (hI h).left.acyclic
    have hfree' : ∀ {t w}, s'.prune t = .var w → s'.binding? w = none := binding?_of_prune (hI h).right.acyclic
    generalize ht : s.prune a = t at hpa
    generalize ht' : s'.prune a' = t' at hpa
    generalize hu : s.prune b = u at hpb
    generalize hu' : s'.prune b' = u' at hpb
    have hpa' := hpa
    have hpb' := hpb
    cases hpa with
    | @var v w hp =>
      cases hpb with
      | @var x y hq =>
        have hiff : v = x ↔ w = y := ⟨fun e => V.right_unique (e ▸ hp) hq, fun e => V.left_unique (e ▸ hp) hq⟩
        dsimp only
        by_cases hvx : v = x
        · rw [if_pos hvx, if_pos (hiff.1 hvx)]
          exact .some h
        · rw [if_neg hvx, if_neg (mt hiff.2 hvx)]
          exact hset h hp (hfree ht) (hfree' ht') hpb'
      | _ => exact hset h hp (hfree ht) (hfree' ht') hpb'
    | _ =>
      cases hpb with
      | var hq => exact hset h hq (hfree hu) (hfree' hu') hpa'
      | _ => exact ih h hpa' hpb'

end Comparison

theorem Paired.equal (h : Paired D V s s') {a a' b b' : Ty} (ha : a.Alike D V a') (hb : b.Alike D V b') :
    s.equal a b = s'.equal a' b' := by
  have hset : SettlesAlike D V (Paired D V) fun _ _ _ => none := fun _ _ _ _ _ => .none
  have hrel := reconcileWithin_alike id hset (2 * max s.size s'.size) h ha hb
  rw [reconcileWithin_eq lawful_none h.left (h.covers_left ha) (h.covers_left hb) (by omega),
    reconcileWithin_eq lawful_none h.right (h.covers_right ha) (h.covers_right hb) (by omega)] at hrel
  unfold Store.equal
  rcases Ty.rel_cases hrel with ⟨h₁, h₂⟩ | ⟨_, _, h₁, h₂, _⟩
  · rw [h₁, h₂]
  · rw [h₁, h₂]
    rfl

/-- Unification succeeds in both stores or in neither, and leaves them paired. -/
theorem Paired.unify (h : Paired D V s s') {a a' b b' : Ty} (ha : a.Alike D V a') (hb : b.Alike D V b') :
    Option.Rel (fun s₁ s₁' => Paired D V s₁ s₁' ∧ Later V s s' V s₁ s₁') (s.unify a b) (s'.unify a' b') := by
  have hset : SettlesAlike D V (fun s₁ s₁' => Paired D V s₁ s₁' ∧ Later V s s' V s₁ s₁') assign := by
    rintro s₁ s₁' v w t u ⟨h₁, hl⟩ hp hv hw htu
    have hocc := h₁.occurs hp htu
    unfold assign
    by_cases ho : s₁.occurs v t = true
    · rw [if_pos ho, if_pos (hocc ▸ ho)]
      exact .none
    · have hpv : s₁.Proper v t := ⟨h₁.left_lt hp, hv, h₁.covers_left htu, Bool.eq_false_iff.2 ho⟩
      have hpw : s₁'.Proper w u := ⟨h₁.right_lt hp, hw, h₁.covers_right htu, hocc ▸ Bool.eq_false_iff.2 ho⟩
      rw [if_neg ho, if_neg (hocc ▸ ho)]
      exact .some ⟨h₁.bind hp htu hpv hpw, hl.trans (.bind hp hpv.lt hpw.lt t u)⟩
  have hrel := reconcileWithin_alike And.left hset (2 * max s.size s'.size) ⟨h, .refl V s s'⟩ ha hb
  rwa [reconcileWithin_eq lawful_assign h.left (h.covers_left ha) (h.covers_left hb) (by omega),
    reconcileWithin_eq lawful_assign h.right (h.covers_right ha) (h.covers_right hb) (by omega)] at hrel

end

end Store

end DualInference
