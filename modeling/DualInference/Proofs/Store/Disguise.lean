/-
What types and stores look like in disguise.

Inference cannot tell by which numbers symbols go nor at which places of a text a program stands, and there may be
variables that it never comes upon. A `Disguise` gives symbols other numbers and spans other places, and says which
variables are hidden and what is in them.

Types are disguised by their symbols; variables keep their numbers. Whatever is read from a disguised type in a disguised
store is what is read from the type itself, in disguise (`Store.read_under`), and comparisons take the same course
(`Store.reconcile_under`). As long as no visible variable is bound to a type with a hidden one in it (`Store.Hides`), types
without hidden variables lead to such types only, and no hidden variable is ever bound.
-/
import DualInference.Proofs.Inference.Confinement

namespace DualInference

/-- other numbers for symbols, other places for spans, and variables that are out of sight, with what is in them -/
structure Disguise where
  symbol : SymbolId → SymbolId
  injective : Function.Injective symbol
  span : Span → Span
  hidden : VarId → Prop
  contents : VarId → Option Ty

/-- what can be disguised -/
class Disguised (α : Type) where
  disguise : Disguise → α → α

/-- no hidden variable is mentioned -/
def Visible {α : Type} [HasVars α] (δ : Disguise) (a : α) : Prop :=
  ∀ v ∈ HasVars.vars a, ¬δ.hidden v

section

variable {α β : Type} [HasVars α] [HasVars β] {δ : Disguise}

theorem visible_list {l : List α} : Visible δ l ↔ ∀ a ∈ l, Visible δ a :=
  List.forall_mem_flatMap

theorem visible_cons {a : α} {l : List α} : Visible δ (a :: l) ↔ Visible δ a ∧ Visible δ l := by
  simp only [visible_list, List.forall_mem_cons]

theorem visible_append {l l' : List α} : Visible δ (l ++ l') ↔ Visible δ l ∧ Visible δ l' := by
  simp only [visible_list, List.forall_mem_append]

theorem visible_pair {a : α} {b : β} : Visible δ (a, b) ↔ Visible δ a ∧ Visible δ b :=
  List.forall_mem_append

theorem visible_closed {t : Ty} (h : t.vars = []) : Visible δ t := by
  intro v hv
  change v ∈ t.vars at hv
  rw [h] at hv
  cases hv

theorem visible_compound {f : Former} {ts : List Ty} : Visible δ (Ty.compound f ts) ↔ Visible δ ts := by
  have hvars : HasVars.vars (Ty.compound f ts) = HasVars.vars ts := Ty.varsList_eq_flatMap ts
  rw [Visible, Visible, hvars]

theorem visible_var {v : VarId} : Visible δ (Ty.var v) ↔ ¬δ.hidden v :=
  List.forall_mem_singleton

theorem visible_lookup {l : List (String × α)} (h : Visible δ l) {name : String} {a : α} (ha : l.lookup name = some a) :
    Visible δ a := by
  obtain ⟨l₁, l₂, rfl, _⟩ := List.lookup_eq_some_iff.1 ha
  exact (visible_pair.1 (visible_list.1 h (name, a) (by simp))).2

end

/-! ## Types -/

def Former.under (δ : Disguise) : Former → Former
  | .aggregate kind id => .aggregate kind (δ.symbol id)
  | .tuple => .tuple

theorem Former.under_inj {δ : Disguise} {f g : Former} : f.under δ = g.under δ ↔ f = g := by
  cases f <;> cases g <;> simp [Former.under, δ.injective.eq_iff]

namespace Ty

variable (δ : Disguise)

mutual

/-- the type with other numbers for its symbols -/
def under : Ty → Ty
  | .scalar s => .scalar s
  | .wrap w t => .wrap w (under t)
  | .compound f ts => .compound (f.under δ) (underList ts)
  | .var v => .var v

def underList : List Ty → List Ty
  | [] => []
  | t :: ts => under t :: underList ts

end

theorem underList_eq_map (ts : List Ty) : underList δ ts = ts.map (under δ) := by
  induction ts with
  | nil => rfl
  | cons t ts ih => rw [underList, ih, List.map_cons]

mutual

theorem vars_under : ∀ t : Ty, (under δ t).vars = t.vars
  | .scalar _ => rfl
  | .wrap _ t => by rw [under, vars, vars, vars_under t]
  | .compound _ ts => by rw [under, vars, vars, varsList_under ts]
  | .var _ => rfl

theorem varsList_under : ∀ ts : List Ty, varsList (underList δ ts) = varsList ts
  | [] => rfl
  | t :: ts => by rw [underList, varsList, varsList, vars_under t, varsList_under ts]

end

mutual

theorem size_under : ∀ t : Ty, (under δ t).size = t.size
  | .scalar _ => rfl
  | .wrap _ t => by rw [under, size, size, size_under t]
  | .compound _ ts => by rw [under, size, size, sizeList_under ts]
  | .var _ => rfl

theorem sizeList_under : ∀ ts : List Ty, sizeList (underList δ ts) = sizeList ts
  | [] => rfl
  | t :: ts => by rw [underList, sizeList, sizeList, size_under t, sizeList_under ts]

end

mutual

/-- Different types stay different. -/
theorem under_injective : ∀ t u : Ty, under δ t = under δ u → t = u
  | .scalar _, u, h => by cases u <;> cases h; rfl
  | .wrap w t, u, h => by
    cases u with
    | wrap w' u =>
      obtain ⟨rfl, ht⟩ := Ty.wrap.inj h
      rw [under_injective t u ht]
    | _ => cases h
  | .compound f ts, u, h => by
    cases u with
    | compound g us =>
      obtain ⟨hf, hts⟩ := Ty.compound.inj h
      rw [Former.under_inj.1 hf, underList_injective ts us hts]
    | _ => cases h
  | .var _, u, h => by cases u <;> cases h; rfl

theorem underList_injective : ∀ ts us : List Ty, underList δ ts = underList δ us → ts = us
  | [], us, h => by cases us <;> cases h; rfl
  | t :: ts, us, h => by
    cases us with
    | cons u us =>
      obtain ⟨ht, hts⟩ := List.cons.inj h
      rw [under_injective t u ht, underList_injective ts us hts]
    | nil => cases h

end

/-! ### Walks -/

section

variable {δ}

theorem atRoot_under {f g : VarId → Ty} (h : ∀ v, g v = under δ (f v)) (t : Ty) :
    atRoot g (under δ t) = under δ (atRoot f t) := by
  cases t with
  | var v => exact h v
  | _ => rfl

mutual

theorem subst_under {f g : VarId → Ty} (h : ∀ v, g v = under δ (f v)) :
    ∀ t : Ty, subst g (under δ t) = under δ (subst f t)
  | .scalar _ => rfl
  | .wrap _ t => by rw [under, subst, subst, under, subst_under h t]
  | .compound _ ts => by rw [under, subst, subst, under, substList_under h ts]
  | .var v => h v

theorem substList_under {f g : VarId → Ty} (h : ∀ v, g v = under δ (f v)) :
    ∀ ts : List Ty, substList g (underList δ ts) = underList δ (substList f ts)
  | [] => rfl
  | t :: ts => by rw [underList, substList, substList, underList, subst_under h t, substList_under h ts]

end

mutual

theorem subst?_under {f g : VarId → Option Ty} (h : ∀ v, g v = (f v).map (under δ)) :
    ∀ t : Ty, subst? g (under δ t) = (subst? f t).map (under δ)
  | .scalar _ => rfl
  | .wrap w t => by
    rw [under, subst?, subst?, subst?_under h t, Option.map_map, Option.map_map]
    rfl
  | .compound p ts => by
    rw [under, subst?, subst?, substList?_under h ts, Option.map_map, Option.map_map]
    rfl
  | .var v => h v

theorem substList?_under {f g : VarId → Option Ty} (h : ∀ v, g v = (f v).map (under δ)) :
    ∀ ts : List Ty, substList? g (underList δ ts) = (substList? f ts).map (underList δ)
  | [] => rfl
  | t :: ts => by
    rw [underList, substList?, substList?, subst?_under h t, substList?_under h ts]
    cases subst? f t with
    | none => rfl
    | some u => cases substList? f ts <;> rfl

end

theorem anyVar_under {p q : VarId → Bool} (h : ∀ v, q v = p v) (t : Ty) : anyVar q (under δ t) = anyVar p t := by
  rw [anyVar_eq_any, anyVar_eq_any, vars_under, funext h]

mutual

/-- The text of a type depends on the names of its symbols and not on their numbers. -/
theorem render_under {name name' : SymbolId → String} (h : ∀ id, name' (δ.symbol id) = name id) :
    ∀ t : Ty, (under δ t).render name' = t.render name
  | .scalar _ => rfl
  | .wrap _ t => by rw [under, render, render, render_under h t]
  | .compound f ts => by
    rw [under, render, render, renderList_under h ts]
    cases f with
    | aggregate kind id => simp only [Former.under, Former.render, h]
    | tuple => rfl
  | .var _ => rfl

theorem renderList_under {name name' : SymbolId → String} (h : ∀ id, name' (δ.symbol id) = name id) :
    ∀ ts : List Ty, renderList name' (underList δ ts) = renderList name ts
  | [] => rfl
  | t :: ts => by rw [underList, renderList, renderList, render_under h t, renderList_under h ts]

end

end

end Ty

instance : Disguised Ty := ⟨Ty.under⟩

/-! ## Stores -/

namespace Store

/-- the store with all bindings disguised -/
def under (δ : Disguise) (s : Store) : Store :=
  ⟨s.cells.map (·.map (Ty.under δ))⟩

/-- hidden variables hold their contents, and no binding of another one leads to them -/
structure Hides (δ : Disguise) (s : Store) : Prop where
  lt : ∀ {v}, δ.hidden v → v < s.size
  kept : ∀ {v}, δ.hidden v → s.binding? v = δ.contents v
  apart : ∀ {v t}, ¬δ.hidden v → s.binding? v = some t → Visible δ t

variable {δ : Disguise} {s : Store}

@[simp] theorem size_under (s : Store) : (s.under δ).size = s.size := by
  simp [under, size]

theorem binding?_under (s : Store) (v : VarId) : (s.under δ).binding? v = (s.binding? v).map (Ty.under δ) := by
  simp only [under, binding?, Array.getElem?_map]
  cases s.cells[v]? with
  | none => rfl
  | some cell => rfl

theorem fresh_under (s : Store) : (s.under δ).fresh = (s.fresh.1, s.fresh.2.under δ) := by
  simp [fresh, under, size]

theorem bind_under (s : Store) (v : VarId) (t : Ty) : (s.bind v t).under δ = (s.under δ).bind v (t.under δ) := by
  simp [bind, under, Array.map_setIfInBounds]

theorem Hides.fresh (h : s.Hides δ) : s.fresh.2.Hides δ where
  lt hv := by
    rw [size_fresh]
    exact (h.lt hv).trans (Nat.lt_succ_self _)
  kept hv := by
    rw [binding?_fresh]
    exact h.kept hv
  apart hv ht := by
    rw [binding?_fresh] at ht
    exact h.apart hv ht

theorem Hides.bind (h : s.Hides δ) {v : VarId} (hv : ¬δ.hidden v) {t : Ty} (ht : Visible δ t) : (s.bind v t).Hides δ := by
  by_cases hlt : v < s.size
  · refine ⟨fun hw => (size_bind s v t).symm ▸ h.lt hw, fun {w} hw => ?_, fun {w u} hw hu => ?_⟩
    · have hne : w ≠ v := fun heq => hv (heq ▸ hw)
      rw [binding?_bind s hlt, if_neg hne]
      exact h.kept hw
    · rw [binding?_bind s hlt] at hu
      split at hu
      · cases hu
        exact ht
      · exact h.apart hw hu
  · have hsame : s.bind v t = s := by
      simp [Store.bind, Array.setIfInBounds, show ¬v < s.cells.size from hlt]
    rwa [hsame]

/-! ### Readings -/

theorem follow_under {α β : Type} {φ : α → β} {walk : (VarId → α) → Ty → α} {walk' : (VarId → β) → Ty → β}
    {leaf : VarId → Option α → α} {leaf' : VarId → Option β → β}
    (hwalk : ∀ f g, (∀ v, g v = φ (f v)) → ∀ t, walk' g (t.under δ) = φ (walk f t))
    (hleaf : ∀ v a, leaf' v (a.map φ) = φ (leaf v a)) (n : Nat) (t : Ty) :
    (s.under δ).follow walk' leaf' n (t.under δ) = φ (s.follow walk leaf n t) := by
  induction n generalizing t with
  | zero => exact hwalk _ _ (fun v => hleaf v none) t
  | succ n ih =>
    refine hwalk _ _ (fun v => ?_) t
    rw [binding?_under, Option.map_map, ← hleaf, Option.map_map]
    exact congrArg (leaf' v) (congrArg (Option.map · (s.binding? v)) (funext ih))

/-- A reading that goes along with disguises of types goes along with disguises of stores. -/
theorem read_under {α β : Type} {φ : α → β} {walk : (VarId → α) → Ty → α} {walk' : (VarId → β) → Ty → β}
    {leaf : VarId → Option α → α} {leaf' : VarId → Option β → β}
    (hwalk : ∀ f g, (∀ v, g v = φ (f v)) → ∀ t, walk' g (t.under δ) = φ (walk f t))
    (hleaf : ∀ v a, leaf' v (a.map φ) = φ (leaf v a)) (t : Ty) :
    (s.under δ).read walk' leaf' (t.under δ) = φ (s.read walk leaf t) := by
  unfold read
  rw [size_under]
  exact follow_under hwalk hleaf s.size t

theorem prune_under (s : Store) (t : Ty) : (s.under δ).prune (t.under δ) = (s.prune t).under δ :=
  read_under (fun _ _ => Ty.atRoot_under) (fun _ a => by cases a <;> rfl) t

theorem resolve_under (s : Store) (t : Ty) : (s.under δ).resolve (t.under δ) = (s.resolve t).under δ :=
  read_under (fun _ _ => Ty.subst_under) (fun _ a => by cases a <;> rfl) t

theorem deref?_under (s : Store) (t : Ty) : (s.under δ).deref? (t.under δ) = (s.deref? t).map (Ty.under δ) :=
  read_under (fun _ _ => Ty.subst?_under) (fun _ a => by cases a <;> rfl) t

theorem occurs_under (s : Store) (v : VarId) (t : Ty) : (s.under δ).occurs v (t.under δ) = s.occurs v t :=
  read_under (φ := id) (fun _ _ => Ty.anyVar_under) (fun _ a => by cases a <;> rfl) t

theorem display_under (s : Store) {name name' : SymbolId → String} (h : ∀ id, name' (δ.symbol id) = name id) (t : Ty) :
    (s.under δ).display name' (t.under δ) = s.display name t := by
  rw [display, resolve_under, Ty.render_under h, display]

/-- Where only visible variables stand, pruning meets no others. -/
theorem Hides.prune (h : s.Hides δ) {t : Ty} (ht : Visible δ t) : Visible δ (s.prune t) := by
  have hfollow : ∀ n t, Visible δ t → Visible δ (s.follow Ty.atRoot (fun v u? => u?.getD (.var v)) n t) := by
    intro n
    induction n with
    | zero =>
      intro t ht
      cases t <;> exact ht
    | succ n ih =>
      intro t ht
      cases t with
      | var v =>
        rw [follow, Ty.atRoot]
        cases hb : s.binding? v with
        | none => exact ht
        | some u => exact ih u (h.apart (visible_var.1 ht) hb)
      | _ => exact ht
  exact hfollow _ t ht

/-! ### Side by side -/

/-- two comparisons, the second one in disguise, that come to the same and bind no hidden variable -/
def SameUnder (δ : Disguise) (r r' : Option Store) : Prop :=
  r' = r.map (under δ) ∧ ∀ s', r = some s' → s'.Hides δ

theorem sameUnder_none : SameUnder δ none none :=
  ⟨rfl, fun _ h => by cases h⟩

theorem sameUnder_some (h : s.Hides δ) : SameUnder δ (some s) (some (s.under δ)) := by
  refine ⟨rfl, fun s' hs' => ?_⟩
  cases hs'
  exact h

/-- what is done where variables meet is done in the same way in disguise -/
def MeetsUnder (δ : Disguise) (meet : Store → Ty → Ty → Option Store) : Prop :=
  ∀ {s a b}, s.Hides δ → Visible δ a → Visible δ b →
    SameUnder δ (meet s a b) (meet (s.under δ) (a.under δ) (b.under δ))

section

variable {meet : Store → Ty → Ty → Option Store}

mutual

theorem alongside_under (hmeet : MeetsUnder δ meet) : ∀ (a b : Ty) {s : Store}, s.Hides δ → Visible δ a →
    Visible δ b → SameUnder δ (alongside meet s a b) (alongside meet (s.under δ) (a.under δ) (b.under δ))
  | .var v, b, s, hs, ha, hb => by
    simp only [Ty.under, alongside]
    exact hmeet hs ha hb
  | .scalar p, .var w, s, hs, ha, hb => by
    simp only [Ty.under, alongside]
    exact hmeet hs ha hb
  | .wrap p t, .var w, s, hs, ha, hb => by
    simp only [Ty.under, alongside]
    exact hmeet hs ha hb
  | .compound p ts, .var w, s, hs, ha, hb => by
    simp only [Ty.under, alongside]
    exact hmeet hs ha hb
  | .scalar p, .scalar q, s, hs, _, _ => by
    simp only [Ty.under, alongside]
    split
    · exact sameUnder_some hs
    · exact sameUnder_none
  | .wrap p t, .wrap q u, s, hs, ha, hb => by
    simp only [Ty.under, alongside]
    split
    · exact alongside_under hmeet t u hs ha hb
    · exact sameUnder_none
  | .compound p ts, .compound q us, s, hs, ha, hb => by
    simp only [Ty.under, alongside, Former.under_inj, Ty.underList_eq_map, List.length_map]
    split
    · rw [← Ty.underList_eq_map, ← Ty.underList_eq_map]
      exact alongsideList_under hmeet ts us hs (visible_compound.1 ha) (visible_compound.1 hb)
    · exact sameUnder_none
  | .scalar _, .wrap _ _, _, _, _, _ => by simpa only [Ty.under, alongside] using sameUnder_none
  | .scalar _, .compound _ _, _, _, _, _ => by simpa only [Ty.under, alongside] using sameUnder_none
  | .wrap _ _, .scalar _, _, _, _, _ => by simpa only [Ty.under, alongside] using sameUnder_none
  | .wrap _ _, .compound _ _, _, _, _, _ => by simpa only [Ty.under, alongside] using sameUnder_none
  | .compound _ _, .scalar _, _, _, _, _ => by simpa only [Ty.under, alongside] using sameUnder_none
  | .compound _ _, .wrap _ _, _, _, _, _ => by simpa only [Ty.under, alongside] using sameUnder_none

theorem alongsideList_under (hmeet : MeetsUnder δ meet) : ∀ (ts us : List Ty) {s : Store}, s.Hides δ → Visible δ ts →
    Visible δ us → SameUnder δ (alongsideList meet s ts us)
      (alongsideList meet (s.under δ) (Ty.underList δ ts) (Ty.underList δ us))
  | [], us, s, hs, _, _ => by
    cases us <;> exact sameUnder_some hs
  | t :: ts, [], s, hs, _, _ => sameUnder_some hs
  | t :: ts, u :: us, s, hs, hts, hus => by
    obtain ⟨ht, hts⟩ := visible_cons.1 hts
    obtain ⟨hu, hus⟩ := visible_cons.1 hus
    obtain ⟨heq, hhides⟩ := alongside_under hmeet t u hs ht hu
    simp only [Ty.underList, alongsideList, heq]
    cases hs₁ : alongside meet s t u with
    | none => exact sameUnder_none
    | some s₁ => exact alongsideList_under hmeet ts us (hhides s₁ hs₁) hts hus

end

end

/-- what is done where an unbound variable meets another type is done in the same way in disguise -/
def SettlesUnder (δ : Disguise) (settle : Store → VarId → Ty → Option Store) : Prop :=
  ∀ {s v t}, s.Hides δ → ¬δ.hidden v → Visible δ t → SameUnder δ (settle s v t) (settle (s.under δ) v (t.under δ))

theorem reconcileWithin_under {settle : Store → VarId → Ty → Option Store} (hsettle : SettlesUnder δ settle) (n : Nat)
    {a b : Ty} (hs : s.Hides δ) (ha : Visible δ a) (hb : Visible δ b) :
    SameUnder δ (reconcileWithin settle n s a b) (reconcileWithin settle n (s.under δ) (a.under δ) (b.under δ)) := by
  induction n generalizing s a b with
  | zero => exact alongside_under (fun _ _ _ => sameUnder_none) a b hs ha hb
  | succ n ih =>
    refine alongside_under (fun {s a b} hs ha hb => ?_) a b hs ha hb
    have hpa := hs.prune ha
    have hpb := hs.prune hb
    simp only [prune_under]
    generalize s.prune a = t at hpa
    generalize s.prune b = u at hpb
    cases t with
    | var v =>
      cases u with
      | var w =>
        simp only [Ty.under]
        split
        · exact sameUnder_some hs
        · exact hsettle hs (visible_var.1 hpa) hpb
      | _ => exact hsettle hs (visible_var.1 hpa) hpb
    | _ =>
      cases u with
      | var w => exact hsettle hs (visible_var.1 hpb) hpa
      | _ => exact ih hs hpa hpb

theorem reconcile_under {settle : Store → VarId → Ty → Option Store} (hsettle : SettlesUnder δ settle) {a b : Ty}
    (hs : s.Hides δ) (ha : Visible δ a) (hb : Visible δ b) :
    SameUnder δ (s.reconcile settle a b) ((s.under δ).reconcile settle (a.under δ) (b.under δ)) := by
  unfold reconcile
  rw [size_under]
  exact reconcileWithin_under hsettle _ hs ha hb

theorem equal_under (hs : s.Hides δ) {a b : Ty} (ha : Visible δ a) (hb : Visible δ b) :
    (s.under δ).equal (a.under δ) (b.under δ) = s.equal a b := by
  unfold equal
  rw [(reconcile_under (fun _ _ _ => sameUnder_none) hs ha hb).1, Option.isSome_map]

/-- Unification is the same in disguise, and binds no hidden variable. -/
theorem unify_under (hs : s.Hides δ) {a b : Ty} (ha : Visible δ a) (hb : Visible δ b) :
    SameUnder δ (s.unify a b) ((s.under δ).unify (a.under δ) (b.under δ)) := by
  refine reconcile_under (fun {s v t} hs hv ht => ?_) hs ha hb
  unfold assign
  rw [occurs_under]
  split
  · exact sameUnder_none
  · rw [← bind_under]
    exact sameUnder_some (hs.bind hv ht)

end Store

end DualInference
