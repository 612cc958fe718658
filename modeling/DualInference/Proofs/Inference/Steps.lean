/-
The steps of rules, side by side.

One comparison for each step that inspects types, makes variables, or demands something of the program text. None of
them leads to other expressions. A step that fails does so in both computations, with texts of types that are alike.
-/
import DualInference.Proofs.Inference.Results
import DualInference.Proofs.Inference.Simulation

namespace DualInference

/-! ## Shapes and views -/

theorem Shape.fits_alike {D : Former → Nat → Prop} {V : Pairing} {t u : Ty} (h : t.Alike D V u) (shape : Shape) :
    shape.fits t = shape.fits u := by
  cases h with
  | scalar s => rfl
  | wrap w h => cases w <;> cases shape <;> rfl
  | compound f hlen h =>
    cases f with
    | aggregate kind id => cases kind <;> cases shape <;> rfl
    | tuple => cases shape <;> rfl
  | var h => cases shape <;> rfl

theorem Ty.Alike.scalar_iff {D : Former → Nat → Prop} {V : Pairing} {t u : Ty} (h : t.Alike D V u) (s : Scalar) :
    t = .scalar s ↔ u = .scalar s := by
  cases h <;> simp

/-- a view that takes types that are alike apart into like parts -/
def Likeness.Sees {α : Type} (R : Likeness α α) (tab : SymbolTable) (lv : Level) (look : Ty → Option α) : Prop :=
  ∀ {V t u}, Ty.Alike tab.Forms (lv.at V) t u → Option.Rel (R.rel V) (look t) (look u)

section

variable (tab : SymbolTable) (lv : Level)

theorem sees_element : (Likeness.ty tab lv).Sees tab lv Ty.element? := by
  intro V t u h
  cases h with
  | wrap w h =>
    cases w with
    | array => exact .some h
    | arrayValue size => exact .some h
    | ref => exact .none
  | _ => exact .none

theorem sees_pointee : (Likeness.ty tab lv).Sees tab lv Ty.pointee? := by
  intro V t u h
  cases h with
  | wrap w h =>
    cases w with
    | ref => exact .some h
    | _ => exact .none
  | _ => exact .none

theorem sees_parts : (Likeness.ty tab lv).list.Sees tab lv Ty.parts? := by
  intro V t u h
  cases h with
  | compound f hlen h =>
    cases f with
    | tuple => exact .some h
    | aggregate kind id => exact .none
  | _ => exact .none

theorem sees_aggregate : (Likeness.same.pair (Likeness.ty tab lv).list).Sees tab lv Ty.aggregate? := by
  intro V t u h
  cases h with
  | compound f hlen h =>
    cases f with
    | aggregate kind id => exact .some ⟨rfl, h⟩
    | tuple => exact .none
  | _ => exact .none

end

/-! ## Frames -/

/-- Like lists with names in front give the same answer to a look-up. -/
theorem Likeness.lookup {α β : Type} {R : Likeness α β} {V : Pairing} {l : List (String × α)} {l' : List (String × β)}
    (h : (Likeness.same.pair R).list.rel V l l') (name : String) :
    Option.Rel (R.rel V) (l.lookup name) (l'.lookup name) := by
  induction h with
  | nil => exact .none
  | @cons p q l l' hpq _ ih =>
    obtain ⟨a, x⟩ := p
    obtain ⟨b, y⟩ := q
    obtain ⟨rfl, hxy⟩ : a = b ∧ R.rel V x y := hpq
    simp only [List.lookup_cons]
    split
    · exact .some hxy
    · exact ih

section

variable {tab : SymbolTable} {lv : Level} {V : Pairing}

theorem Frame.add_alike {frame frame' : Frame} (h : (Likeness.frame tab lv).rel V frame frame') (name : Ident)
    {entry entry' : LocalName} (he : entry.Alike tab.Forms (lv.at V) entry') :
    (Likeness.frame tab lv).Outcome tab V (frame.add name entry) (frame'.add name entry') := by
  unfold Frame.add
  rcases Ty.rel_cases (Likeness.lookup h name.name) with ⟨hl, hl'⟩ | ⟨_, _, hl, hl', _⟩
  · rw [hl, hl']
    exact .ok (.cons ⟨rfl, he⟩ h)
  · rw [hl, hl']
    exact .error ⟨.same _, rfl⟩

theorem Frame.ofTypeVars_alike (names : List Ident) {ts us : List Ty} (h : (Likeness.ty tab lv).list.rel V ts us) :
    (Likeness.frame tab lv).Outcome tab V (Frame.ofTypeVars names ts) (Frame.ofTypeVars names us) := by
  have hfold : ∀ {frame frame' : Frame}, (Likeness.frame tab lv).rel V frame frame' →
      (Likeness.frame tab lv).Outcome tab V
        ((names.zip ts).foldlM (fun frame p => Frame.add frame p.1 (.typeVar p.2)) frame)
        ((names.zip us).foldlM (fun frame p => Frame.add frame p.1 (.typeVar p.2)) frame') := by
    induction h generalizing names with
    | nil =>
      intro frame frame' hf
      rw [List.zip_nil_right]
      exact .ok hf
    | @cons t u ts us htu _ ih =>
      intro frame frame' hf
      cases names with
      | nil => exact .ok hf
      | cons name names =>
        have hadd := Frame.add_alike hf name (LocalName.Alike.typeVar htu)
        simp only [List.zip_cons_cons, List.foldlM_cons]
        generalize frame.add name (.typeVar t) = r at hadd
        generalize frame'.add name (.typeVar u) = r' at hadd
        cases hadd with
        | ok hf' => exact ih names hf'
        | error he => exact .error he
  exact hfold .nil

theorem Env.mk_alike {frame frame' : Frame} (h : (Likeness.frame tab lv).rel V frame frame') (scope : ScopeId) :
    (Likeness.env tab lv).rel V ⟨frame, scope⟩ ⟨frame', scope⟩ :=
  ⟨h, rfl⟩

theorem Frame.append_alike {frame frame' rest rest' : Frame} (h : (Likeness.frame tab lv).rel V frame frame')
    (h' : (Likeness.frame tab lv).rel V rest rest') :
    (Likeness.frame tab lv).rel V (frame ++ rest) (frame' ++ rest') :=
  List.rel_append h h'

end

namespace Setting

open Infer

variable {S : Setting} {α β : Type} {V : Pairing} {R : Likeness α β} {lv : Level}

/-! ## Steps without a context -/

theorem Sim.lift {x : Except Error α} {y : Except Error β} (h : R.Outcome S.table V x y) :
    S.Sim V R (lift x) (lift y) := by
  cases h with
  | ok h => exact .pure h
  | error h => exact .fail fun _ => ⟨h.cause, h.span⟩

theorem Sim.freshVars (names : List Ident) :
    S.Sim V ((Likeness.ty S.table .free).vector names.length) (freshVars names) (freshVars names) := by
  induction names generalizing V with
  | nil => exact .pure ⟨rfl, .nil⟩
  | cons name names ih =>
    intro V₀ st st' _ hrel
    obtain ⟨V₁, hp, hpaired, hlater⟩ := hrel.stores.fresh
    have hrel₁ : S.Related V₁ { st with store := st.store.fresh.2 } { st' with store := st'.store.fresh.2 } :=
      ⟨hpaired, S.later hrel.memos hlater⟩
    have hrest : S.Sim V₁ ((Likeness.ty S.table .free).vector (name :: names).length)
        (Infer.freshVars names >>= fun ts => Pure.pure (.var st.store.size :: ts))
        (Infer.freshVars names >>= fun ts => Pure.pure (.var st'.store.size :: ts)) := by
      refine ih.bind fun V₂ hV ts us h => .pure ⟨?_, .cons ?_ h.2⟩
      · rw [List.length_cons, h.1, List.length_cons]
      · exact Ty.Alike.var (hV _ _ hp)
    exact .of_later hlater (hrest V₁ _ _ (le_refl _) hrel₁)

theorem Sim.closed {t u : Ty} {name name' : Infer String} {span span' : Span} (ht : (Likeness.ty S.table lv).rel V t u)
    (hname : S.Sim V (.text S.table) name name') (hspan : S.InStep (span = span')) :
    S.Sim V (.ty S.table .closed) (closed t name span) (closed u name' span') := by
  refine .store fun V₁ hV s s' hs => ?_
  have hderef := (hs.atLevel lv).deref? ((Likeness.ty S.table lv).mono hV ht)
  rcases Ty.rel_cases hderef with ⟨hd, hd'⟩ | ⟨t', u', hd, hd', htu⟩
  · rw [hd, hd']
    refine (hname.mono hV).bind fun V₂ _ text text' htext => .fail fun hm => ?_
    exact ⟨.unresolvedTypeVariable htext, hspan hm⟩
  · rw [hd, hd']
    exact .pure htu

theorem Sim.solution {span span' : Span} (hspan : S.InStep (span = span')) (names : List Ident) {ts us : List Ty}
    (h : ((Likeness.ty S.table lv).vector names.length).rel V ts us) :
    S.Sim V ((Likeness.ty S.table .closed).vector names.length) (solution span names ts) (solution span' names us) := by
  induction names generalizing ts us V with
  | nil =>
    cases h.2 with
    | nil => exact .pure ⟨rfl, .nil⟩
    | cons htu hts => cases h.1
  | cons name names ih =>
    obtain ⟨hlen, h⟩ := h
    cases h with
    | nil => cases hlen
    | cons htu hts =>
      have hname : S.Sim V (.text S.table) (Pure.pure name.name) (Pure.pure name.name) := .pure (.inl rfl)
      refine (Sim.closed htu hname hspan).bind fun V₁ hV t' u' htu' => ?_
      refine ((ih ⟨Nat.succ.inj hlen, hts⟩).mono hV).bind fun V₂ hV' ts' us' hts' => .pure ⟨?_, .cons htu' hts'.2⟩
      rw [List.length_cons, hts'.1, List.length_cons]

theorem Sim.arity (what : String) {expected expected' found found' : Nat} (hexpected : expected = expected')
    (hfound : found = found') {span span' : Span} (hspan : S.InStep (span = span')) :
    S.Sim V (.fact (found = expected)) (arity what expected found span) (arity what expected' found' span') := by
  subst hexpected hfound
  unfold DualInference.arity
  split
  · rename_i hlen
    exact .pure hlen
  · exact .fail fun hm => ⟨.same _, hspan hm⟩

theorem Sim.natLiteral (e : Expr) : S.Sim V .same (natLiteral e) (natLiteral e) := by
  unfold DualInference.natLiteral
  split
  · exact .pure rfl
  · exact .fail fun _ => ⟨.same _, rfl⟩

/-! ## Steps in a context -/

section

variable {cx cx' : Context} (htab : cx.table = S.table) (htab' : cx'.table = S.table)

include htab htab'

theorem Sim.home (origin : Origin) {span span' : Span} (hspan : S.InStep (span = span')) :
    S.Sim V (.exactly { scope := origin.home }) (cx.home origin span) (cx'.home origin span') := by
  unfold Context.home
  rw [htab, htab']
  split
  · exact .pure ⟨rfl, rfl⟩
  · exact .fail fun hm => ⟨.same _, hspan hm⟩

theorem Sim.display {t u : Ty} (h : (Likeness.ty S.table lv).rel V t u) :
    S.Sim V (.text S.table) (cx.display t) (cx'.display u) := by
  refine .store fun V₁ hV s s' hs => .pure (.inr ⟨s.resolve t, s'.resolve u, ?_, ?_, ?_⟩)
  · exact ((hs.atLevel lv).resolve ((Likeness.ty S.table lv).mono hV h)).mono (lv.at_le V₁)
  · rw [htab]
    rfl
  · rw [htab']
    rfl

theorem Sim.invalidType {t u : Ty} (h : (Likeness.ty S.table lv).rel V t u) (span : Span) :
    S.Sim V R (cx.invalidType t span) (cx'.invalidType u span) :=
  (Sim.display htab htab' h).bind fun _ _ _ _ htext => .fail fun _ => ⟨.invalidType htext, rfl⟩

theorem Sim.mismatch {t u t' u' : Ty} (h : (Likeness.ty S.table lv).rel V t t') {lv' : Level}
    (h' : (Likeness.ty S.table lv').rel V u u') {span span' : Span} (hspan : S.InStep (span = span')) :
    S.Sim V R (cx.mismatch t u span) (cx'.mismatch t' u' span') := by
  refine (Sim.display htab htab' h).bind fun V₁ hV text text' htext => ?_
  refine ((Sim.display htab htab' h').mono hV).bind fun V₂ hV' found found' hfound => .fail fun hm => ?_
  exact ⟨.typeMismatch (htext.mono hV') hfound, hspan hm⟩

theorem Sim.view {R : Likeness α α} {look : Ty → Option α} (hlook : R.Sees S.table lv look) {t u : Ty}
    (h : (Likeness.ty S.table lv).rel V t u) (span : Span) : S.Sim V R (cx.view look t span) (cx'.view look u span) := by
  refine .store fun V₁ hV s s' hs => ?_
  have hprune := (hs.atLevel lv).prune ((Likeness.ty S.table lv).mono hV h)
  rcases Ty.rel_cases (hlook hprune) with ⟨hl, hl'⟩ | ⟨a, b, hl, hl', hab⟩
  · rw [hl, hl']
    exact (Sim.invalidType htab htab' h span).mono hV
  · rw [hl, hl']
    exact .pure hab

theorem Sim.shaped (shape : Shape) {t u : Ty} (h : (Likeness.ty S.table lv).rel V t u) (span : Span) :
    S.Sim V .same (cx.shaped shape t span) (cx'.shaped shape u span) := by
  refine .store fun V₁ hV s s' hs => ?_
  have hprune := (hs.atLevel lv).prune ((Likeness.ty S.table lv).mono hV h)
  unfold Store.hasShape
  rw [Shape.fits_alike hprune shape]
  split
  · exact .pure rfl
  · exact (Sim.invalidType htab htab' h span).mono hV

theorem Sim.same {t u t' u' : Ty} (h : (Likeness.ty S.table lv).rel V t t') (h' : (Likeness.ty S.table lv).rel V u u')
    (span : Span) : S.Sim V .same (cx.same t u span) (cx'.same t' u' span) := by
  refine .store fun V₁ hV s s' hs => ?_
  rw [(hs.atLevel lv).equal ((Likeness.ty S.table lv).mono hV h) ((Likeness.ty S.table lv).mono hV h')]
  split
  · exact .pure rfl
  · exact (Sim.mismatch htab htab' h h' fun _ => rfl).mono hV

theorem Sim.unified (hu : cx.unify = Store.unify) (hu' : cx'.unify = Store.unify) {t u t' u' : Ty}
    (h : (Likeness.ty S.table .free).rel V t t') (h' : (Likeness.ty S.table .free).rel V u u') {span span' : Span}
    (hspan : S.InStep (span = span')) :
    S.Sim V .same (cx.unified t u span) (cx'.unified t' u' span') := by
  intro V₀ st st' hV hrel
  have hunify := hrel.stores.unify (h.mono hV) (h'.mono hV)
  rcases Ty.rel_cases hunify with ⟨h₁, h₁'⟩ | ⟨s₁, s₁', h₁, h₁', hs₁, hlater⟩
  · rw [Context.unified_of_none (by rw [hu, h₁]), Context.unified_of_none (by rw [hu', h₁'])]
    exact Sim.mismatch htab htab' h h' hspan V₀ st st' hV hrel
  · rw [Context.unified_of_some (by rw [hu, h₁]), Context.unified_of_some (by rw [hu', h₁'])]
    exact .of_ended fun _ => ⟨.ok rfl, ⟨hs₁, S.later hrel.memos hlater⟩, hlater⟩

end

end Setting

end DualInference
