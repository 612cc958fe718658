/-
What can be seen of a type is its resolved form.

The resolved form of a type has every bound variable replaced by what its binding comes to, and unbound variables left
where they stand (`Resolves`). Every type of an acyclic store has one resolved form (`resolves_iff`), and two types are
equal up to bindings if it is the same for both. So equality is an equivalence, and it comes to identity where there are
no variables (`equal_resolved_forms`).

Whatever else is asked of a type can be read off its resolved form, although each reading follows bindings in its own
way:
- the text follows them as it is written (`display_eq_write`);
- shapes and element types follow them at the root only (`fits_resolve`, `element?_resolve`);
- dereferencing follows them everywhere and may find one missing (`deref?_eq_some_iff`).

So types that are equal up to bindings cannot be told apart (`Indistinguishable`).
-/
import DualInference.Proofs.Store.Dereference
import DualInference.Ty.Shape
import DualInference.Ty.Text

namespace DualInference

/-! ## Texts -/

namespace Ty

mutual

/-- To put types for variables and then write them is to write the texts of those types for the variables. -/
theorem render_subst (name : SymbolId → String) (f : VarId → Ty) :
    ∀ t : Ty, (t.subst f).render name = t.write name fun v => (f v).render name
  | .scalar _ => rfl
  | .wrap _ t => by rw [subst, render, write, render_subst name f t]
  | .compound _ ts => by rw [subst, render, write, renderList_substList name f ts]
  | .var _ => rfl

theorem renderList_substList (name : SymbolId → String) (f : VarId → Ty) :
    ∀ ts : List Ty, renderList name (substList f ts) = writeList name (fun v => (f v).render name) ts
  | [] => rfl
  | t :: ts => by rw [substList, renderList, writeList, render_subst name f t, renderList_substList name f ts]

end

end Ty

namespace Store

variable {s : Store}

/-! ## Resolved forms -/

mutual

/-- the second type is the resolved form of the first -/
inductive Resolves (s : Store) : Ty → Ty → Prop
  | scalar (c : Scalar) : Resolves s (.scalar c) (.scalar c)
  | wrap (w : Wrapper) {t u : Ty} (h : Resolves s t u) : Resolves s (.wrap w t) (.wrap w u)
  | compound (f : Former) {ts us : List Ty} (h : ResolvesAll s ts us) : Resolves s (.compound f ts) (.compound f us)
  | bound {v : VarId} {t u : Ty} (hv : s.binding? v = some t) (h : Resolves s t u) : Resolves s (.var v) u
  | unbound {v : VarId} (hv : s.binding? v = none) : Resolves s (.var v) (.var v)

/-- the types of the second list are the resolved forms of those of the first -/
inductive ResolvesAll (s : Store) : List Ty → List Ty → Prop
  | nil : ResolvesAll s [] []
  | cons {t u : Ty} {ts us : List Ty} (h : Resolves s t u) (hrest : ResolvesAll s ts us) :
    ResolvesAll s (t :: ts) (u :: us)

end

mutual

theorem Resolves.resolve_eq (hs : s.Acyclic) : ∀ {t u : Ty}, s.Resolves t u → s.resolve t = u
  | _, _, .scalar c => resolve_scalar hs c
  | _, _, .wrap w h => by rw [resolve_wrap hs, h.resolve_eq hs]
  | _, _, .compound f h => by rw [resolve_compound hs, h.resolve_eq hs]
  | _, _, .bound hv h => by
    rw [resolve_var hs, hv]
    exact h.resolve_eq hs
  | _, _, .unbound hv => by rw [resolve_var hs, hv]

theorem ResolvesAll.resolve_eq (hs : s.Acyclic) : ∀ {ts us : List Ty}, s.ResolvesAll ts us → ts.map s.resolve = us
  | _, _, .nil => rfl
  | _, _, .cons h hrest => by rw [List.map_cons, h.resolve_eq hs, hrest.resolve_eq hs]

end

mutual

/-- If the bindings of its variables resolve, a type resolves. -/
theorem resolves_of_bindings (hs : s.Acyclic) : ∀ {t : Ty},
    (∀ v ∈ t.vars, ∀ u, s.binding? v = some u → s.Resolves u (s.resolve u)) → s.Resolves t (s.resolve t)
  | .scalar c, _ => by
    rw [resolve_scalar hs]
    exact .scalar c
  | .wrap w t, h => by
    rw [resolve_wrap hs]
    exact .wrap w (resolves_of_bindings hs (t := t) h)
  | .compound f ts, h => by
    rw [resolve_compound hs]
    exact .compound f (resolvesAll_of_bindings hs h)
  | .var v, h => by
    rw [resolve_var hs]
    cases hb : s.binding? v with
    | some u => exact .bound hb (h v (by simp [Ty.vars]) u hb)
    | none => exact .unbound hb

theorem resolvesAll_of_bindings (hs : s.Acyclic) : ∀ {ts : List Ty},
    (∀ v ∈ Ty.varsList ts, ∀ u, s.binding? v = some u → s.Resolves u (s.resolve u)) →
    s.ResolvesAll ts (ts.map s.resolve)
  | [], _ => .nil
  | _ :: _, h => .cons (resolves_of_bindings hs fun v hv => h v (List.mem_append_left _ hv))
      (resolvesAll_of_bindings hs fun v hv => h v (List.mem_append_right _ hv))

end

/-- Every type of an acyclic store has one resolved form. -/
theorem resolves_iff (hs : s.Acyclic) {t u : Ty} : s.Resolves t u ↔ s.resolve t = u := by
  refine ⟨fun h => h.resolve_eq hs, ?_⟩
  rintro rfl
  induction t using hs.induction with
  | h t ih => exact resolves_of_bindings hs ih

/-! ## The text -/

/-- The text of a type, written while bindings are followed, is that of the resolved type. -/
theorem display_eq_write (s : Store) (name : SymbolId → String) (t : Ty) : s.display name t = s.write name t := by
  have hfollow : ∀ n t, (s.follow Ty.subst (fun v u? => u?.getD (.var v)) n t).render name =
      s.follow (Ty.write name) (fun v text? => text?.getD ("?" ++ toString v)) n t := by
    intro n
    induction n with
    | zero => exact fun t => Ty.render_subst name _ t
    | succ n ih =>
      intro t
      rw [follow, follow, Ty.render_subst]
      congr 1
      funext v
      cases s.binding? v with
      | none => rfl
      | some u => exact ih u
  exact hfollow s.size t

/-! ## Views of the root -/

/-- The root of a type, bindings followed, is that of the resolved type: the same variable, or a type of the same head
with resolved parts. -/
theorem fits_resolve (hs : s.Acyclic) (shape : Shape) (t : Ty) : shape.fits (s.resolve t) = s.hasShape shape t := by
  rw [hasShape, ← resolve_prune hs t]
  cases hp : s.prune t with
  | scalar c => rw [resolve_scalar hs]
  | wrap w u =>
    rw [resolve_wrap hs]
    cases w <;> cases shape <;> rfl
  | compound f ts =>
    rw [resolve_compound hs]
    cases f with
    | aggregate kind id => cases kind <;> cases shape <;> rfl
    | tuple => cases shape <;> rfl
  | var v => rw [resolve_var hs, binding?_of_prune hs hp]

/-- The element type of a resolved type is the resolved element type. -/
theorem element?_resolve (hs : s.Acyclic) (t : Ty) : (s.resolve t).element? = (s.prune t).element?.map s.resolve := by
  rw [← resolve_prune hs t]
  cases hp : s.prune t with
  | scalar c =>
    rw [resolve_scalar hs]
    rfl
  | wrap w u =>
    rw [resolve_wrap hs]
    cases w <;> rfl
  | compound f ts =>
    rw [resolve_compound hs]
    rfl
  | var v =>
    rw [resolve_var hs, binding?_of_prune hs hp]
    rfl

/-! ## Equality -/

/-- whatever is asked of the two types, the answer is the same, up to bindings -/
structure Indistinguishable (s : Store) (a b : Ty) : Prop where
  text (name : SymbolId → String) : s.display name a = s.display name b
  shape (shape : Shape) : s.hasShape shape a = s.hasShape shape b
  element : Option.Rel (fun t u => s.equal t u = true) (s.prune a).element? (s.prune b).element?
  deref? : s.deref? a = s.deref? b

/-- An element type of a type of the store is a type of the store. -/
theorem WellFormed.covers_element (hs : s.WellFormed) {t u : Ty} (ht : s.Covers t)
    (hu : (s.prune t).element? = some u) : s.Covers u := by
  obtain ⟨w, hw⟩ := Ty.element?_eq_some hu
  have hcovers := hs.covers_prune ht
  rw [hw] at hcovers
  exact hcovers

/-- Types with one resolved form cannot be told apart. -/
theorem indistinguishable_of_resolve_eq (hs : s.WellFormed) {a b : Ty} (ha : s.Covers a) (hb : s.Covers b)
    (h : s.resolve a = s.resolve b) : s.Indistinguishable a b where
  text name := by rw [display, h, display]
  shape shape := by rw [← fits_resolve hs.acyclic, h, fits_resolve hs.acyclic]
  element := by
    have helement := element?_resolve hs.acyclic a
    rw [h, element?_resolve hs.acyclic b] at helement
    cases ha' : (s.prune a).element? with
    | none =>
      rw [ha', Option.map_none, Option.map_eq_none_iff] at helement
      rw [helement]
      exact .none
    | some t =>
      rw [ha', Option.map_some, Option.map_eq_some_iff] at helement
      obtain ⟨u, hb', hu⟩ := helement
      rw [hb']
      exact .some ((equal_iff hs (hs.covers_element ha ha') (hs.covers_element hb hb')).2 hu.symm)
  deref? := by
    refine Option.ext fun u => ?_
    rw [deref?_eq_some_iff hs.acyclic, deref?_eq_some_iff hs.acyclic, h]

/-- **Equality of resolved forms.** Every type of a well-formed store has one resolved form, and two types are equal up
to bindings if and only if they have the same one. So this equality is an equivalence, which on types without variables
is identity. Types that are equal cannot be told apart by their text, which is that of bindings followed as it is
written, nor by their shape, their element type or what they dereference to. -/
theorem equal_resolved_forms (hs : s.WellFormed) :
    (∀ t, ∃! u, s.Resolves t u) ∧
    (∀ a b, s.Covers a → s.Covers b → (s.equal a b = true ↔ ∃ u, s.Resolves a u ∧ s.Resolves b u)) ∧
    (Equivalence fun a b : {t // s.Covers t} => s.equal a b = true) ∧
    (∀ a b : Ty, a.vars = [] → b.vars = [] → (s.equal a b = true ↔ a = b)) ∧
    (∀ name t, s.display name t = s.write name t) ∧
    ∀ a b, s.Covers a → s.Covers b → s.equal a b = true → s.Indistinguishable a b := by
  have hac := hs.acyclic
  refine ⟨fun t => ?_, fun a b ha hb => ?_, ?_, fun a b ha hb => ?_, s.display_eq_write, fun a b ha hb h => ?_⟩
  · simp only [resolves_iff hac]
    exact existsUnique_eq'
  · simp only [resolves_iff hac, equal_iff hs ha hb]
    exact ⟨fun h => ⟨s.resolve b, h, rfl⟩, fun ⟨u, ha, hb⟩ => ha.trans hb.symm⟩
  · simp only [fun a b : {t // s.Covers t} => equal_iff hs a.2 b.2]
    exact ⟨fun _ => rfl, fun h => h.symm, fun h h' => h.trans h'⟩
  · rw [equal_closed s ha hb, decide_eq_true_iff]
  · exact indistinguishable_of_resolve_eq hs ha hb ((equal_iff hs ha hb).1 h)

/-- A pair of two variables cannot be told apart from the pair of what they are bound to, in the one case with an unbound
variable in it. With a bound variable in its place the resolved form is another. -/
theorem chainedStore_resolved_forms :
    chainedStore.Indistinguishable (.tuple [.var 1, .var 3])
      (.tuple [.array (.var 0), .tuple [.int, .ref (.var 2)]]) ∧
    ¬∃ u, chainedStore.Resolves (.tuple [.var 1, .var 3]) u ∧
      chainedStore.Resolves (.tuple [.array (.var 2), .var 3]) u := by
  have hforms := equal_resolved_forms chainedStore_wellFormed
  refine ⟨hforms.2.2.2.2.2 _ _ (by decide) (by decide) (by decide), ?_⟩
  rw [← hforms.2.1 _ _ (by decide) (by decide)]
  decide

end Store

end DualInference
