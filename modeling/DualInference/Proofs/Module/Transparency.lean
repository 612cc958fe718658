/-
Answers are transparent.

To ask for the answer to a key is to look for it with the key in progress, unless the answer is known. To look for it on
the direct way sets no mark. A search that needs its own key, on whatever way, is cut off at once where the key is in
progress, and only when it comes around to itself otherwise.

To the outside this makes no difference (`answer_transparent`). If the key has an answer, both ways come to it from every
state at rest. If not, both ways end in errors of the same kind, or neither ends: with the key in progress a search ends if
it does so without (`mark_ends`), and the other way round (`ends_of_mark`), and the two end alike unless both are cut off
(`sameKind_of_mark`).
-/
import DualInference.Proofs.Inference.Marks
import DualInference.Proofs.Module.History

namespace DualInference

open Infer Context

/-! ## A key in progress -/

/-- the state with a key in progress -/
def State.mark (st : State) (id : SymbolId) (key : Key) : State :=
  { st with memo := st.memo.modify id (·.start key) }

section

variable {tab : SymbolTable} {st st' : State} {id : SymbolId} {key : Key}

theorem State.Sane.mark (h : st.Sane tab) (hkey : key.Closed tab) (hno : ∀ t, ¬tab.Answer id key t) :
    (st.mark id key).Sane tab := by
  have hcovers : st.store.CoversKey key := by
    intro d hd v hv
    rw [hkey.vars_eq_nil hd] at hv
    cases hv
  exact h.record hcovers (p := some .inProgress) (fun _ => hno) fun id' key' => st.memo.state?_start id id' key key'

/-- In a sane state, a key without an answer is in progress if anything is known of it. -/
theorem State.Sane.state?_unanswered (h : st.Sane tab) (hkey : key.Closed tab) (hno : ∀ t, ¬tab.Answer id key t) :
    st.memo.state? id key = none ∨ st.memo.state? id key = some .inProgress := by
  cases hp : st.memo.state? id key with
  | none => exact .inl rfl
  | some p =>
    cases p with
    | inProgress => exact .inr rfl
    | resolved t => exact absurd (h.sound id key t hkey hp) (hno t)

theorem Key.closed_nil (tab : SymbolTable) : Key.Closed tab [] :=
  .nil

/-! ### States that agree but for one mark -/

variable {spare : SymbolId → Key → Prop} {excused : Prop}

/-- What has to be known of two sane states is what they say of closed keys without an answer. -/
theorem related_of_unanswered (hs : st.store.WellFormed) (hs' : st'.store.WellFormed) (h : st.Sane tab)
    (h' : st'.Sane tab) (hagree : ∀ {id key}, key.Closed tab → (∀ t, ¬tab.Answer id key t) →
      st.memo.state? id key = st'.memo.state? id key ∨ st'.memo.state? id key = some .inProgress ∨
        st.memo.state? id key = some .inProgress ∧ spare id key) :
    (Setting.through tab spare excused).Related .none st st' := by
  refine ⟨.unpaired hs hs', h, h', fun {id key key'} hkey hno => ?_⟩
  obtain rfl := Key.eq_of_closed hkey
  exact hagree hkey (hno hkey)

variable (hkey : key.Closed tab) (hno : ∀ t, ¬tab.Answer id key t)

include hkey hno

theorem State.AtRest.related_mark (h : st.AtRest tab) (h' : st'.AtRest tab) :
    (Setting.through tab spare excused).Related .none st (st'.mark id key) := by
  refine related_of_unanswered h.store h'.store h.sane (h'.sane.mark hkey hno) fun {id' k} hk hno' => ?_
  rw [show (st'.mark id key).memo = st'.memo.modify id (·.start key) from rfl, Memo.state?_start]
  split
  · exact .inr (.inl rfl)
  · exact .inl ((h.state?_eq_none hk hno').trans (h'.state?_eq_none hk hno').symm)

theorem State.AtRest.mark_related (h : st.AtRest tab) (h' : st'.AtRest tab) :
    (Setting.through tab (fun id' k => id' = id ∧ k = key) excused).Related .none (st.mark id key) st' := by
  refine related_of_unanswered h.store h'.store (h.sane.mark hkey hno) h'.sane fun {id' k} hk hno' => ?_
  rw [show (st.mark id key).memo = st.memo.modify id (·.start key) from rfl, Memo.state?_start]
  split
  · rename_i heq
    exact .inr (.inr ⟨rfl, heq⟩)
  · exact .inl ((h.state?_eq_none hk hno').trans (h'.state?_eq_none hk hno').symm)

/-- Whatever else is in progress in the second state. -/
theorem State.AtRest.marks_related (h : st.AtRest tab) (hs' : st'.store.WellFormed) (h' : st'.Sane tab) :
    (Setting.through tab spare excused).Related .none (st.mark id key) (st'.mark id key) := by
  refine related_of_unanswered h.store hs' (h.sane.mark hkey hno) (h'.mark hkey hno) fun {id' k} hk hno' => ?_
  rw [show (st.mark id key).memo = st.memo.modify id (·.start key) from rfl, Memo.state?_start,
    show (st'.mark id key).memo = st'.memo.modify id (·.start key) from rfl, Memo.state?_start]
  split
  · exact .inl rfl
  · rw [h.state?_eq_none hk hno']
    rcases h'.state?_unanswered hk hno' with hnone | hbusy
    · exact .inl hnone.symm
    · exact .inr (.inl hbusy)

end

/-! ## The way by a key, and the direct way -/

theorem Error.isRecursive_iff (e : Error) : e.isRecursive = true ↔ e.kind = .recursiveInference := by
  obtain ⟨cause, span⟩ := e
  cases cause <;> simp [isRecursive, kind, Cause.kind]

/-- the second outcome follows the first: it is a recursion error, or the outcomes are alike -/
def SymbolTable.Follows (tab : SymbolTable) (r r' : Except Error Ty) : Prop :=
  Setting.CutOff r' ∨ ∃ V, (Likeness.ty tab .closed).Outcome tab V r r'

/-- What follows a recursion error is one. -/
theorem SymbolTable.Follows.cutOff {tab : SymbolTable} {r r' : Except Error Ty} (h : tab.Follows r r')
    (hcut : Setting.CutOff r) : Setting.CutOff r' := by
  rcases h with h | ⟨V, hout⟩
  · exact h
  obtain ⟨e, rfl, he⟩ := hcut
  cases hout with
  | @error _ e' hee =>
    refine ⟨e', rfl, ?_⟩
    rw [Error.isRecursive_iff, Error.kind] at he ⊢
    rw [← hee.cause.kind_eq, he]

/-- both are errors, and of the same kind -/
def SameKind (r r' : Except Error Ty) : Prop :=
  ∃ e e' : Error, r = .error e ∧ r' = .error e' ∧ e.kind = e'.kind

theorem Setting.CutOff.sameKind {r r' : Except Error Ty} (h : Setting.CutOff r)
    (h' : Setting.CutOff r') : SameKind r r' := by
  obtain ⟨e, rfl, he⟩ := h
  obtain ⟨e', rfl, he'⟩ := h'
  exact ⟨e, e', rfl, rfl, (e.isRecursive_iff.1 he).trans (e'.isRecursive_iff.1 he').symm⟩

namespace Demand

variable {tab : SymbolTable} {items : List Item} (hset : tab.Settled items) {q : Demand} {key : Key}
  (hkey : key.Closed tab) (hq : q.Proper tab key)

/-- the search behind the demand is the same wherever the answer is asked for -/
def Placeless (tab : SymbolTable) (key : Key) (q : Demand) : Prop :=
  ∀ q' : Demand, q'.Proper tab key → q'.id = q.id → ∀ cx, q'.compute cx key = q.compute cx key

/-- An initializer is inferred in the home of its definition, wherever a name of it is used. -/
theorem placeless_initializer {name : String} {home : ScopeId} {d : Variables} {group : SymbolId} {position : Nat}
    (hsymbol : tab.symbol? group = some ⟨name, home, .global d group position⟩) (span : Span) :
    Placeless tab key (.initializer home d group span) := by
  intro q' hq' hid cx
  cases q' with
  | call origin d' args span' =>
    have hsymbol' := hq'.1
    rw [show origin.id = group from hid, hsymbol] at hsymbol'
    cases hsymbol'
  | initializer home' d' group' span' =>
    obtain ⟨⟨_, _, hsymbol'⟩, _⟩ := hq'
    obtain rfl : group' = group := hid
    rw [hsymbol] at hsymbol'
    cases hsymbol'
    rfl

include hset hkey hq

/-- Searches from related states go along with each other. -/
theorem compute_through {spare : SymbolId → Key → Prop} {excused : Prop}
    (hspare : ∀ id key, spare id key → excused ∨ tab.Circular id key) {st st' : State}
    (hrel : (Setting.through tab spare excused).Related .none st st') {r : Except Error Ty} {st₁ : State}
    (hrun : q.compute (fully kept tab) key st = some (r, st₁)) :
    excused ∧ Setting.CutOff r ∨ ∃ r' st₁', q.compute (fully kept tab) key st' = some (r', st₁') ∧
      tab.Follows r r' := by
  obtain ⟨n, hn⟩ := (Demand.compute_reached continuous_memoized).1 hrun
  have hlike : (Likeness.denoted tab .closed).list.rel .none key key := hkey
  have halong := (kept_through hset hspare n).compute hlike hq hq rfl (fun _ => rfl) .none st st' (le_refl _) hrel
  rw [Setting.Along.through rfl] at halong
  refine (halong r st₁ hn).imp_right ?_
  rintro ⟨r', st₁', hrun', hend⟩
  exact ⟨r', st₁', hrun', hend.imp_right fun ⟨V, hend⟩ => ⟨V, hend.outcome⟩⟩

/-- If only the second state has marks of its own, the second search ends if the first does. -/
theorem compute_follows {st st' : State} (hrel : (Setting.through tab (fun _ _ => False) False).Related .none st st')
    {r : Except Error Ty} {st₁ : State} (hrun : q.compute (fully kept tab) key st = some (r, st₁)) :
    ∃ r' st₁', q.compute (fully kept tab) key st' = some (r', st₁') ∧ tab.Follows r r' := by
  rcases compute_through hset hkey hq (fun _ _ h => h.elim) hrel hrun with ⟨h, _⟩ | hend
  · exact h.elim
  · exact hend

/-- An answer is also found on the direct way. -/
theorem compute_of_answer {t : Ty} (ht : tab.Answer q.id key t) {st : State} (hst : st.AtRest tab) :
    ∃ st₁, q.compute (fully kept tab) key st = some (.ok t, st₁) := by
  obtain ⟨n, q₀, st₀, st₀', hq₀, hid, hs₀, hrun⟩ := ht
  have hready : st.memo.Ready tab n st.memo :=
    ⟨hst.sane.sound, fun id key _ hbusy => absurd hbusy (hst.idle id key), .refl tab _⟩
  have hlike : (Likeness.denoted tab .closed).list.rel .none key key := hkey
  have halong := (plain_simulates_kept hset n n (Nat.le_refl n) st.memo).compute hlike hq₀ hq hid (.of_forward rfl)
    .none st₀ st (le_refl _) ⟨.unpaired hs₀ hst.store, hready⟩
  rw [Setting.Along.forward rfl] at halong
  obtain ⟨V, u, st₁, hu, hend⟩ := halong t st₀' hrun
  cases hend.outcome with
  | ok htu =>
    have heq := Ty.Alike.refl_of_closed htu
    subst heq
    exact ⟨st₁, hu⟩

theorem answer_of_compute {t : Ty} {st st₁ : State} (hs : st.store.WellFormed) (hst : st.Sane tab)
    (hrun : q.compute (fully kept tab) key st = some (.ok t, st₁)) : tab.Answer q.id key t := by
  obtain ⟨n, hn⟩ := (Demand.compute_reached continuous_memoized).1 hrun
  exact .of_kept hset hkey hq hs hst.sound hn

section

variable (hno : ∀ t, ¬tab.Answer q.id key t) {st : State} (hst : st.AtRest tab)

include hno hst

/-- If the search from one state at rest is cut off, searches for the key are cut off in all states. -/
theorem circular_of_cutOff (hplaceless : q.Placeless tab key) {r : Except Error Ty} {st₁ : State}
    (hrun : q.compute (fully kept tab) key (st.mark q.id key) = some (r, st₁)) (hcut : Setting.CutOff r) :
    tab.Circular q.id key := by
  intro q' hq' hid st' hs' hsane'
  rcases hsane'.state?_unanswered hkey hno with hnone | hbusy
  · obtain ⟨r', st₁', hrun', hend⟩ := compute_follows hset hkey hq (hst.marks_related hkey hno hs' hsane') hrun
    obtain ⟨e, rfl, he⟩ := hend.cutOff hcut
    refine ⟨e, { st₁' with memo := st₁'.memo.finish q.id key (.error e) }, ?_, he⟩
    rw [answer, show (fully kept tab).remember = memoized start from rfl, hid, memoized_none hnone,
      hplaceless q' hq' hid, show q.compute (fully kept tab) key { st' with memo := _ } = _ from hrun']
    rfl
  · refine ⟨⟨.recursiveInference, q'.span⟩, st', ?_, rfl⟩
    rw [answer, show (fully kept tab).remember = memoized start from rfl, hid, memoized, hbusy]

/-- With the key in progress, the search comes to an end if it does so without. -/
theorem mark_ends {r : Except Error Ty} {st₁ : State} (hrun : q.compute (fully kept tab) key st = some (r, st₁)) :
    ∃ r' st₁', q.compute (fully kept tab) key (st.mark q.id key) = some (r', st₁') ∧ tab.Follows r r' :=
  compute_follows hset hkey hq (hst.related_mark hkey hno hst) hrun

/-- Without the key in progress, the search comes to an end if it does so with it. -/
theorem ends_of_mark (hplaceless : q.Placeless tab key) {r' : Except Error Ty} {st₁' : State}
    (hrun' : q.compute (fully kept tab) key (st.mark q.id key) = some (r', st₁')) :
    ∃ r st₁, q.compute (fully kept tab) key st = some (r, st₁) ∧ tab.Follows r' r := by
  have hspare : ∀ id k, id = q.id ∧ k = key → ¬tab.Circular q.id key ∨ tab.Circular id k := by
    rintro _ _ ⟨rfl, rfl⟩
    exact (Classical.em _).symm
  have hrel : (Setting.through tab (fun id k => id = q.id ∧ k = key) ¬tab.Circular q.id key).Related .none
      (st.mark q.id key) st := hst.mark_related hkey hno hst
  rcases compute_through hset hkey hq hspare hrel hrun' with ⟨hnot, hcut⟩ | hend
  · exact absurd (circular_of_cutOff hset hkey hq hno hst hplaceless hrun' hcut) hnot
  · exact hend

/-- With the key in progress and without, the search ends in errors of the same kind. -/
theorem sameKind_of_mark (hplaceless : q.Placeless tab key) {r r' : Except Error Ty} {st₁ st₁' : State}
    (hrun : q.compute (fully kept tab) key st = some (r, st₁))
    (hrun' : q.compute (fully kept tab) key (st.mark q.id key) = some (r', st₁')) : SameKind r' r := by
  obtain ⟨r₂, st₂, hrun₂, hend⟩ := mark_ends hset hkey hq hno hst hrun
  rw [hrun'] at hrun₂
  cases hrun₂
  rcases hend with hcut' | ⟨V, hout⟩
  · -- a search that is cut off with the key in progress is circular, so it is cut off in any case
    obtain ⟨r₃, st₃, hrun₃, hend'⟩ := ends_of_mark hset hkey hq hno hst hplaceless hrun'
    rw [hrun] at hrun₃
    cases hrun₃
    exact hcut'.sameKind (hend'.cutOff hcut')
  · cases hout with
    | ok htu => exact absurd (answer_of_compute hset hkey hq hst.store hst.sane hrun) (hno _)
    | error hee => exact ⟨_, _, rfl, rfl, hee.cause.kind_eq.symm⟩

end

end Demand

/-- two computations come to the same results, and to errors of the same kinds -/
structure Infer.Together (x y : Infer Ty) (st : State) : Prop where
  ok : ∀ t, (∃ st₁, x st = some (.ok t, st₁)) ↔ ∃ st₁, y st = some (.ok t, st₁)
  error : ∀ kind, (∃ e st₁, x st = some (.error e, st₁) ∧ e.kind = kind) ↔
    ∃ e st₁, y st = some (.error e, st₁) ∧ e.kind = kind

theorem Infer.Together.of_ok {x y : Infer Ty} {st st₁ st₂ : State} {t : Ty} (hx : x st = some (.ok t, st₁))
    (hy : y st = some (.ok t, st₂)) : Together x y st := by
  constructor
  · intro u
    simp [hx, hy]
  · intro kind
    simp [hx, hy]

/-- Computations that both end or both do not, and only in errors of the same kind. -/
theorem Infer.Together.of_sameKind {x y : Infer Ty} {st : State}
    (hx : ∀ r st₁, x st = some (r, st₁) → ∃ r' st₂, y st = some (r', st₂) ∧ SameKind r r')
    (hy : ∀ r' st₂, y st = some (r', st₂) → ∃ r st₁, x st = some (r, st₁)) : Together x y st := by
  have hback : ∀ r' st₂, y st = some (r', st₂) → ∃ r st₁, x st = some (r, st₁) ∧ SameKind r r' := by
    intro r' st₂ hrun'
    obtain ⟨r, st₁, hrun⟩ := hy r' st₂ hrun'
    obtain ⟨r'', st₂', hrun'', hkind⟩ := hx r st₁ hrun
    rw [hrun'] at hrun''
    cases hrun''
    exact ⟨r, st₁, hrun, hkind⟩
  constructor
  · -- neither comes to a result
    intro t
    constructor
    · rintro ⟨st₁, hrun⟩
      obtain ⟨_, _, _, _, _, h, _⟩ := hx _ st₁ hrun
      cases h
    · rintro ⟨st₂, hrun'⟩
      obtain ⟨_, _, _, _, _, _, h, _⟩ := hback _ st₂ hrun'
      cases h
  · intro kind
    constructor
    · rintro ⟨e, st₁, hrun, rfl⟩
      obtain ⟨_, st₂, hrun', _, e', h, rfl, hkind⟩ := hx _ st₁ hrun
      cases h
      exact ⟨e', st₂, hrun', hkind.symm⟩
    · rintro ⟨e', st₂, hrun', rfl⟩
      obtain ⟨_, st₁, hrun, e, _, rfl, h, hkind⟩ := hback _ st₂ hrun'
      cases h
      exact ⟨e, st₁, hrun, hkind⟩

section

variable {tab : SymbolTable} {items : List Item} (hset : tab.Settled items) {q : Demand} {key : Key}
  (hkey : key.Closed tab) (hq : q.Proper tab key) {st : State} (hst : st.AtRest tab)

include hset hkey hq hst

/-- **Answers are transparent.** From a state at rest, to ask for the answer to a key comes to the same as to look for
it, unless it matters where it is asked for. -/
theorem answer_transparent (hplaceless : q.Placeless tab key) :
    Together ((fully kept tab).answer q key) (q.compute (fully kept tab) key) st := by
  by_cases hex : ∃ t, tab.Answer q.id key t
  · obtain ⟨t, ht⟩ := hex
    obtain ⟨_, hanswer⟩ := hst.sane.answer_exists hset hst.store hkey hq ht
    obtain ⟨_, hcompute⟩ := Demand.compute_of_answer hset hkey hq ht hst
    exact .of_ok hanswer hcompute
  have hno : ∀ t, ¬tab.Answer q.id key t := fun t ht => hex ⟨t, ht⟩
  have hanswer : (fully kept tab).answer q key st = (q.compute (fully kept tab) key (st.mark q.id key)).map fun p =>
      (p.1, { p.2 with memo := p.2.memo.finish q.id key p.1 }) :=
    memoized_none (hst.state?_eq_none hkey hno) q.span _
  refine .of_sameKind (fun r' st₁' hrun => ?_) fun r st₁ hrun => ?_
  · rw [hanswer, Option.map_eq_some_iff] at hrun
    obtain ⟨⟨r₂, st₂⟩, hrun', heq⟩ := hrun
    obtain ⟨rfl, rfl⟩ := Prod.mk.inj heq
    obtain ⟨r, st₁, hrun, -⟩ := Demand.ends_of_mark hset hkey hq hno hst hplaceless hrun'
    exact ⟨r, st₁, hrun, Demand.sameKind_of_mark hset hkey hq hno hst hplaceless hrun hrun'⟩
  · obtain ⟨r', st₁', hrun', -⟩ := Demand.mark_ends hset hkey hq hno hst hrun
    rw [hanswer, hrun']
    exact ⟨r', _, rfl⟩

end

end DualInference
