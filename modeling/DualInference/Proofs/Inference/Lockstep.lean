/-
Two inferences of one expression from different memos.

The memos of two states match (`Matched`) if they are in order on their own and agree on all keys but those that have an
answer. On such a key it does not matter what the memos say: it is found in both (`Answer.run_kept`), to the same effect.
On a key without an answer they say the same, so either both inferences are cut off there, or both set out to find the
answer, and neither can come to a result.

So two inferences that start from matching memos go in lockstep (`kept_lockstep`): if both end, they end alike.
-/
import DualInference.Proofs.Inference.Answers

namespace DualInference

open Infer Context

/-! ## Memos that match -/

/-- all variables of a key are variables of the store -/
def Store.CoversKey (s : Store) (key : Key) : Prop :=
  ∀ d ∈ key, s.Covers d.ty

/-- what is asked of a state on its own -/
structure State.Sane (tab : SymbolTable) (st : State) : Prop where
  covers : ∀ {id key p}, st.memo.state? id key = some p → st.store.CoversKey key
  answers : ∀ {id key t}, st.memo.state? id key = some (.resolved t) → t.Alike tab.Forms .none t
  sound : st.memo.Sound tab
  calm : ∀ {id key}, key.Closed tab → st.memo.state? id key = some .inProgress → ∀ t, ¬tab.Answer id key t

/-- what is asked of two states: they agree on keys that have no answer -/
structure State.Matched (tab : SymbolTable) (V : Pairing) (st st' : State) : Prop where
  left : st.Sane tab
  right : st'.Sane tab
  agree : ∀ {id key key'}, Key.Alike tab V key key' → (key.Closed tab → ∀ t, ¬tab.Answer id key t) →
    st.memo.state? id key = st'.memo.state? id key'

namespace Key

variable {tab : SymbolTable} {V V' : Pairing} {key key' : Key}

theorem Alike.imp (h : Key.Alike tab V key key') (hV : ∀ d ∈ key, ∀ v ∈ d.ty.vars, ∀ w, V.pairs v w → V'.pairs v w) :
    Key.Alike tab V' key key' := by
  induction h with
  | nil => exact .nil
  | @cons d d' key key' hd _ ih =>
    have hVd := hV d (by simp)
    refine .cons ?_ (ih fun d hmem => hV d (by simp [hmem]))
    cases hd with
    | value hd => exact .value (hd.imp hVd)
    | type hd => exact .type (hd.imp hVd)

theorem Alike.flip (h : Key.Alike tab V key key') : Key.Alike tab V.flip key' key := by
  induction h with
  | nil => exact .nil
  | cons hd _ ih =>
    refine .cons ?_ ih
    cases hd with
    | value hd => exact .value hd.flip
    | type hd => exact .type hd.flip

theorem Alike.right_unique {key'' : Key} (h : Key.Alike tab V key key') (h' : Key.Alike tab V key key'') :
    key' = key'' := by
  induction h generalizing key'' with
  | nil =>
    cases h'
    rfl
  | cons hd _ ih =>
    cases h' with
    | cons hd' h' =>
      rw [ih h']
      cases hd with
      | value hd =>
        cases hd' with
        | value hd' => rw [hd.right_unique hd']
      | type hd =>
        cases hd' with
        | type hd' => rw [hd.right_unique hd']

/-- Of two pairs of keys that are alike, the first keys are equal if the second are. -/
theorem Alike.eq_iff {k k' : Key} (h : Key.Alike tab V key key') (h' : Key.Alike tab V k k') : k = key ↔ k' = key' := by
  constructor
  · rintro rfl
    exact h'.right_unique h
  · rintro rfl
    exact h'.flip.right_unique h.flip

theorem Alike.covers_left {s s' : Store} (h : Key.Alike tab V key key') (hs : Store.Paired tab.Forms V s s') :
    s.CoversKey key := by
  induction h with
  | nil => exact fun d hmem => by cases hmem
  | cons hd _ ih =>
    intro d hmem
    rcases List.mem_cons.1 hmem with rfl | hmem
    · exact hs.covers_left hd.ty
    · exact ih d hmem

theorem Alike.covers_right {s s' : Store} (h : Key.Alike tab V key key') (hs : Store.Paired tab.Forms V s s') :
    s'.CoversKey key' := by
  induction h with
  | nil => exact fun d hmem => by cases hmem
  | cons hd _ ih =>
    intro d hmem
    rcases List.mem_cons.1 hmem with rfl | hmem
    · exact hs.covers_right hd.ty
    · exact ih d hmem

/-- New pairs are not among the variables of keys that were there before. -/
theorem Alike.of_later_left {s s' s₁ s₁' : Store} {V₁ : Pairing} (hl : Store.Later V s s' V₁ s₁ s₁')
    (h : Key.Alike tab V₁ key key') (hkey : s.CoversKey key) : Key.Alike tab V key key' := by
  refine h.imp fun d hd v hv w hp => ?_
  rcases hl.new hp with hp | ⟨hle, _⟩
  · exact hp
  · exact absurd (hkey d hd v hv) (Nat.not_lt.2 hle)

theorem Alike.of_later_right {s s' s₁ s₁' : Store} {V₁ : Pairing} (hl : Store.Later V s s' V₁ s₁ s₁')
    (h : Key.Alike tab V₁ key key') (hkey : s'.CoversKey key') : Key.Alike tab V key key' := by
  have hflip : Key.Alike tab V.flip key' key := by
    refine h.flip.imp fun d hd w hw v hp => ?_
    rcases hl.new hp with hp | ⟨_, hle⟩
    · exact hp
    · exact absurd (hkey d hd w hw) (Nat.not_lt.2 hle)
  exact hflip.flip

theorem Closed.vars_eq_nil (h : key.Closed tab) {d : Denotation} (hd : d ∈ key) : d.ty.vars = [] := by
  have halike : ∀ {key key' : Key}, Key.Alike tab .none key key' → ∀ d ∈ key, d.ty.vars = [] := by
    intro key key' h
    induction h with
    | nil => exact fun d hmem => by cases hmem
    | cons hd _ ih =>
      intro d hmem
      rcases List.mem_cons.1 hmem with rfl | hmem
      · exact hd.ty.vars_eq_nil
      · exact ih d hmem
  exact halike h d hd

/-- A closed key is alike to itself only. -/
theorem Closed.eq (h : key.Closed tab) (h' : Key.Alike tab V key key') : key' = key := by
  have hnone : Key.Alike tab .none key key' := by
    refine h'.imp fun d hd v hv => ?_
    rw [h.vars_eq_nil hd] at hv
    cases hv
  exact Key.eq_of_closed hnone

/-- If a key has no answer, neither has a key that is alike to it. -/
theorem Alike.unanswered (h : Key.Alike tab V key key') {id : SymbolId}
    (hno : key.Closed tab → ∀ t, ¬tab.Answer id key t) : key'.Closed tab → ∀ t, ¬tab.Answer id key' t := by
  intro hkey'
  have heq := hkey'.eq h.flip
  subst heq
  exact hno hkey'

end Key

namespace State

variable {tab : SymbolTable} {V : Pairing} {st st' : State}

theorem Sane.later {s₁ : Store} (h : st.Sane tab) (hsize : st.store.size ≤ s₁.size) :
    State.Sane tab { st with store := s₁ } :=
  ⟨fun hp d hd v hv => (h.covers hp d hd v hv).trans_le hsize, h.answers, h.sound, h.calm⟩

theorem Matched.later (h : Matched tab V st st') {V₁ : Pairing} {s₁ s₁' : Store}
    (hl : Store.Later V st.store st'.store V₁ s₁ s₁') :
    Matched tab V₁ { st with store := s₁ } { st' with store := s₁' } := by
  refine ⟨h.left.later hl.left_size, h.right.later hl.right_size, fun {id key key'} hkey hno => ?_⟩
  dsimp only
  -- a key that is recorded on either side was there before, and so were the pairs it needs
  cases hp : st.memo.state? id key with
  | some p => rw [← hp, h.agree (hkey.of_later_left hl (h.left.covers hp)) hno]
  | none =>
    cases hp' : st'.memo.state? id key' with
    | some p => rw [← hp, ← hp', h.agree (hkey.of_later_right hl (h.right.covers hp')) hno]
    | none => rfl

/-- In a sane state no closed key in progress has an answer, at whatever depth. -/
theorem Sane.free (h : st.Sane tab) (p : Nat) : st.memo.Free tab p :=
  fun _ _ hclosed hbusy n _ t hn => h.calm hclosed hbusy t ⟨n, hn⟩

/-- what may be recorded for a key -/
def Recordable (tab : SymbolTable) (id : SymbolId) (key : Key) : Option Progress → Prop
  | some (.resolved t) => t.Alike tab.Forms .none t ∧ (key.Closed tab → tab.Answer id key t)
  | some .inProgress => key.Closed tab → ∀ t, ¬tab.Answer id key t
  | none => True

theorem Sane.record (h : st.Sane tab) {id : SymbolId} {key : Key} (hkey : st.store.CoversKey key)
    {p : Option Progress} (hp : Recordable tab id key p) {m : Memo}
    (hm : ∀ id' key', m.state? id' key' = if id' = id ∧ key' = key then p else st.memo.state? id' key') :
    State.Sane tab { st with memo := m } := by
  constructor
  · intro id' key' p' hp'
    dsimp only at hp'
    rw [hm] at hp'
    split at hp'
    · rename_i heq
      rw [heq.2]
      exact hkey
    · exact h.covers hp'
  · intro id' key' t ht
    dsimp only at ht
    rw [hm] at ht
    split at ht
    · subst ht
      exact hp.1
    · exact h.answers ht
  · intro id' key' t hclosed ht
    dsimp only at ht
    rw [hm] at ht
    split at ht
    · rename_i heq
      obtain ⟨rfl, rfl⟩ := heq
      subst ht
      exact hp.2 hclosed
    · exact h.sound id' key' t hclosed ht
  · intro id' key' hclosed hbusy
    dsimp only at hbusy
    rw [hm] at hbusy
    split at hbusy
    · rename_i heq
      obtain ⟨rfl, rfl⟩ := heq
      subst hbusy
      exact hp hclosed
    · exact h.calm hclosed hbusy

theorem Recordable.of_alike {id : SymbolId} {key key' : Key} (hkey : Key.Alike tab V key key') {p : Option Progress}
    (hp : Recordable tab id key p) : Recordable tab id key' p := by
  have hclosed : key'.Closed tab → key.Closed tab ∧ key' = key := by
    intro h
    have heq := h.eq hkey.flip
    exact ⟨heq ▸ h, heq.symm⟩
  cases p with
  | none => trivial
  | some p =>
    cases p with
    | resolved t =>
      refine ⟨hp.1, fun h => ?_⟩
      obtain ⟨hc, rfl⟩ := hclosed h
      exact hp.2 hc
    | inProgress =>
      intro h
      obtain ⟨hc, rfl⟩ := hclosed h
      exact hp hc

/-- To record the same for two keys that are alike keeps states matched. -/
theorem Matched.record (h : Matched tab V st st') (hs : Store.Paired tab.Forms V st.store st'.store) {id : SymbolId}
    {key key' : Key} (hkey : Key.Alike tab V key key') {p : Option Progress} (hp : Recordable tab id key p)
    {m m' : Memo}
    (hm : ∀ id' k, m.state? id' k = if id' = id ∧ k = key then p else st.memo.state? id' k)
    (hm' : ∀ id' k, m'.state? id' k = if id' = id ∧ k = key' then p else st'.memo.state? id' k) :
    Matched tab V { st with memo := m } { st' with memo := m' } := by
  refine ⟨h.left.record (hkey.covers_left hs) hp hm, h.right.record (hkey.covers_right hs) (hp.of_alike hkey) hm', ?_⟩
  intro id' k k' hk hno
  dsimp only
  rw [hm, hm']
  by_cases heq : id' = id ∧ k = key
  · rw [if_pos heq, if_pos ⟨heq.1, (hkey.eq_iff hk).1 heq.2⟩]
  · rw [if_neg heq, if_neg fun heq' => heq ⟨heq'.1, (hkey.eq_iff hk).2 heq'.2⟩]
    exact h.agree hk hno

end State

/-! ## In lockstep -/

/-- going in lockstep, from memos that match -/
def Setting.lockstep (table : SymbolTable) : Setting where
  table := table
  mode := .lockstep
  memos := State.Matched table
  later h hl := h.later hl

/-- the same may be recorded for keys that are alike -/
def Setting.Records (S : Setting) : Prop :=
  ∀ ⦃V st st'⦄, S.Related V st st' → ∀ ⦃id key key'⦄, Key.Alike S.table V key key' →
    ∀ ⦃p⦄, State.Recordable S.table id key p →
    ∀ ⦃m m' : Memo⦄, (∀ id' k, m.state? id' k = if id' = id ∧ k = key then p else st.memo.state? id' k) →
      (∀ id' k, m'.state? id' k = if id' = id ∧ k = key' then p else st'.memo.state? id' k) →
      S.Related V { st with memo := m } { st' with memo := m' }

theorem Setting.lockstep_records (tab : SymbolTable) : (Setting.lockstep tab).Records :=
  fun _ _ _ hrel _ _ _ hkey _ hp _ _ hm hm' => ⟨hrel.stores, State.Matched.record hrel.memos hrel.stores hkey hp hm hm'⟩

namespace Setting.Records

variable {S : Setting} (hS : S.Records) {V V₁ : Pairing} {st st' st₂ st₂' : State} {id : SymbolId} {key key' : Key}
  (hkey : Key.Alike S.table V key key')

include hS hkey

/-- To begin searches for a key without an answer keeps states related. -/
theorem start (hrel : S.Related V st st') (hno : key.Closed S.table → ∀ t, ¬S.table.Answer id key t) :
    S.Related V { st with memo := st.memo.modify id (·.start key) }
      { st' with memo := st'.memo.modify id (·.start key') } :=
  hS hrel hkey (p := some .inProgress) hno (fun id' k => st.memo.state?_start id id' key k)
    fun id' k => st'.memo.state?_start id id' key' k

/-- Searches that end alike are still alike when that is recorded. -/
theorem finish {R : Likeness Ty Ty} {r r' : Except Error Ty} {m m' : Memo}
    (hend : S.Ended R V { st with memo := m } { st' with memo := m' } r r' V₁ st₂ st₂')
    (hrecord : State.Recordable S.table id key (Progress.ofOutcome r) ∧ Progress.ofOutcome r' = Progress.ofOutcome r) :
    S.Ended R V st st' r r' V₁ { st₂ with memo := st₂.memo.finish id key r }
      { st₂' with memo := st₂'.memo.finish id key' r' } := by
  have hkey₁ : Key.Alike S.table V₁ key key' := hkey.imp fun _ _ v _ w => hend.later.le v w
  refine ⟨hend.outcome, hS hend.related hkey₁ hrecord.1 (fun id' k => st₂.memo.state?_finish id id' key k r) ?_, hend.later⟩
  intro id' k
  rw [← hrecord.2]
  exact st₂'.memo.state?_finish id id' key' k r'

end Setting.Records

/-- In lockstep, types take care of themselves. -/
theorem Setting.Simulates.of_lockstep {S : Setting} {cx cx' : Context}
    (hleft : cx.table = S.table) (hright : cx'.table = S.table) (hunify : cx.unify = Store.unify)
    (hunify' : cx'.unify = Store.unify)
    (hinfer : ∀ {lv V env env'}, (Likeness.env S.table lv).rel V env env' → ∀ e,
      S.Sim V (.denoted S.table lv) (cx.infer env e) (cx'.infer env' e)) : S.Simulates cx cx' := by
  refine ⟨hleft, hright, hunify, hunify', fun {_} _ {_ _ _} henv e => hinfer henv e, fun {_ _ _ _} henv e => ?_⟩
  refine (hinfer henv e).bind fun V₁ _ d d' hd => ?_
  cases hd with
  | value hd => exact .fail fun _ => ⟨.same _, rfl⟩
  | type hd => exact .pure hd

/-- A key without an answer keeps its record in a sound memo that is kept in order. -/
theorem Memo.Keeps.state?_eq {tab : SymbolTable} {m m' : Memo} (h : m.Keeps m') (hm : m.Sound tab) (hm' : m'.Sound tab)
    {id : SymbolId} {key : Key} (hkey : key.Closed tab) (hno : ∀ t, ¬tab.Answer id key t) :
    m'.state? id key = m.state? id key := by
  have hnever : ∀ {m : Memo}, m.Sound tab → ∀ t, m.state? id key ≠ some (.resolved t) :=
    fun hm t ht => hno t (hm id key t hkey ht)
  have hbusy := h.inProgress id key
  cases hp : m'.state? id key with
  | some p =>
    cases p with
    | inProgress => rw [hbusy.1 hp]
    | resolved t => exact absurd hp (hnever hm' t)
  | none =>
    cases hp' : m.state? id key with
    | some p =>
      cases p with
      | inProgress =>
        rw [← hbusy, hp] at hp'
        cases hp'
      | resolved t => exact absurd hp' (hnever hm t)
    | none => rfl

/-- Two searches for keys on which the memos agree come out in the same way. -/
theorem Infer.memoized_agree {id : SymbolId} {key key' : Key} {span : Span} {compute compute' : Infer Ty}
    {st st' st₁ st₁' : State} {r r' : Except Error Ty} (hagree : st.memo.state? id key = st'.memo.state? id key')
    (hrun : memoized start id key span compute st = some (r, st₁))
    (hrun' : memoized start id key' span compute' st' = some (r', st₁')) :
    (∃ t, st'.memo.state? id key' = some (.resolved t) ∧ r = .ok t ∧ r' = .ok t ∧ st₁ = st ∧ st₁' = st') ∨
    (r = .error ⟨.recursiveInference, span⟩ ∧ r' = .error ⟨.recursiveInference, span⟩ ∧ st₁ = st ∧ st₁' = st') ∨
    ∃ st₂ st₂', compute { st with memo := st.memo.modify id (·.start key) } = some (r, st₂) ∧
      compute' { st' with memo := st'.memo.modify id (·.start key') } = some (r', st₂') ∧
      st₁ = { st₂ with memo := st₂.memo.finish id key r } ∧
      st₁' = { st₂' with memo := st₂'.memo.finish id key' r' } := by
  rcases memoized_cases hrun with ⟨t, ht, hr, hst⟩ | ⟨hbusy, hr, hst⟩ | ⟨hnone, st₂, hcompute, hst⟩
  · rcases memoized_cases hrun' with ⟨t', ht', hr', hst'⟩ | ⟨hbusy', _⟩ | ⟨hnone', _⟩
    · rw [hagree, ht'] at ht
      cases ht
      exact .inl ⟨t, ht', hr, hr', hst, hst'⟩
    · rw [hagree, hbusy'] at ht
      cases ht
    · rw [hagree, hnone'] at ht
      cases ht
  · rcases memoized_cases hrun' with ⟨t', ht', _⟩ | ⟨_, hr', hst'⟩ | ⟨hnone', _⟩
    · rw [hagree, ht'] at hbusy
      cases hbusy
    · exact .inr (.inl ⟨hr, hr', hst, hst'⟩)
    · rw [hagree, hnone'] at hbusy
      cases hbusy
  · rcases memoized_cases hrun' with ⟨t', ht', _⟩ | ⟨hbusy', _⟩ | ⟨_, st₂', hcompute', hst'⟩
    · rw [hagree, ht'] at hnone
      cases hnone
    · rw [hagree, hbusy'] at hnone
      cases hnone
    · exact .inr (.inr ⟨st₂, st₂', hcompute, hcompute', hst, hst'⟩)

section

variable {tab : SymbolTable} {items : List Item} (hset : tab.Settled items)

include hset

/-- A key that has an answer gets it in a sane state, and the state stays sane. Keys without an answer keep their
records. -/
theorem State.Sane.answer {st : State} (h : st.Sane tab) (hwf : st.store.WellFormed) {q : Demand} {key : Key}
    (hkey : key.Closed tab) (hq : q.Proper tab key) {t : Ty} (ht : tab.Answer q.id key t) {r : Except Error Ty}
    {st₁ : State} (hrun : (fully kept tab).answer q key st = some (r, st₁)) :
    r = .ok t ∧ st.store.Extends st₁.store ∧ st₁.store.WellFormed ∧ st₁.Sane tab ∧
      ∀ id key, (key.Closed tab → ∀ t, ¬tab.Answer id key t) → st₁.memo.state? id key = st.memo.state? id key := by
  have hkeeps := answer_keeps hrun
  obtain ⟨st₂, hrun₂, hext, hwf₂, hsound, hopen⟩ := ht.run_kept hset hkey hq rfl hwf h.sound h.free
  rw [hrun] at hrun₂
  cases hrun₂
  refine ⟨rfl, hext, hwf₂, ⟨?_, ?_, hsound, ?_⟩, ?_⟩
  · intro id key p hp d hd v hv
    by_cases hclosed : key.Closed tab
    · rw [hclosed.vars_eq_nil hd] at hv
      cases hv
    · rw [hopen id key hclosed] at hp
      exact (h.covers hp d hd v hv).trans_le hext.size
  · intro id key u hu
    by_cases hclosed : key.Closed tab
    · have hanswer := hsound id key u hclosed hu
      have ⟨_, q', _, _, hq', hid', hs', _⟩ := hanswer
      exact (hanswer.run hset hclosed hq' hid' hs').1
    · rw [hopen id key hclosed] at hu
      exact h.answers hu
  · intro id key hclosed hbusy
    exact h.calm hclosed ((hkeeps.inProgress id key).1 hbusy)
  · intro id key hno
    by_cases hclosed : key.Closed tab
    · exact hkeeps.state?_eq h.sound hsound hclosed (hno hclosed)
    · exact hopen id key hclosed

/-- What a search comes to with a sound memo is the answer to its key. -/
theorem SymbolTable.Answer.of_kept {n : Nat} {q : Demand} {key : Key} (hkey : key.Closed tab) (hq : q.Proper tab key)
    {st st₁ : State} (hwf : st.store.WellFormed) (hsound : st.memo.Sound tab) {t : Ty}
    (hrun : q.compute (within kept n tab) key st = some (.ok t, st₁)) : tab.Answer q.id key t := by
  have hlike : (Likeness.denoted tab .closed).list.rel .none key key := hkey
  have halong := (kept_simulates_plain hset n).compute hlike hq hq rfl (.of_forward rfl) .none st st (le_refl _)
    ⟨.unpaired hwf hwf, hsound⟩
  rw [Setting.Along.forward rfl] at halong
  obtain ⟨V₁, u, st₁', hu, hend⟩ := halong t st₁ hrun
  cases hend.outcome with
  | ok htu =>
    have htu : t.Alike tab.Forms .none u := htu
    obtain rfl := htu.refl_of_closed
    obtain ⟨k, hk⟩ := (Demand.compute_reached continuous_plainly).1 hu
    exact ⟨k, q, st, st₁', hq, rfl, hwf, hk⟩

/-- Searches that end alike leave the same record, and it may be left. -/
theorem recordable_of_outcome {n : Nat} {V : Pairing} {q : Demand} {key : Key} (hq : q.Proper tab key)
    {r r' : Except Error Ty} (h : (Likeness.ty tab .closed).Outcome tab V r r') {st st₁ : State}
    (hwf : st.store.WellFormed) (hsound : st.memo.Sound tab)
    (hrun : q.compute (within kept n tab) key st = some (r, st₁)) :
    State.Recordable tab q.id key (Progress.ofOutcome r) ∧ Progress.ofOutcome r' = Progress.ofOutcome r := by
  cases h with
  | ok htu =>
    have heq := Ty.Alike.refl_of_closed htu
    subst heq
    exact ⟨⟨htu, fun hc => .of_kept hset hc hq hwf hsound hrun⟩, rfl⟩
  | error he => exact ⟨trivial, rfl⟩

/-- Where a key has an answer, it comes out on both sides, and keys without an answer keep their records. -/
theorem answered_alike {V : Pairing} {st st' : State} (h : st.Sane tab) (h' : st'.Sane tab)
    (hpaired : Store.Paired tab.Forms V st.store st'.store) {q : Demand} {key : Key} (hkey : key.Closed tab)
    (hq : q.Proper tab key) {t : Ty} (ht : tab.Answer q.id key t) {r r' : Except Error Ty} {st₁ st₁' : State}
    (hrun : (fully kept tab).answer q key st = some (r, st₁))
    (hrun' : (fully kept tab).answer q key st' = some (r', st₁')) :
    (Likeness.ty tab .closed).Outcome tab V r r' ∧ Store.Paired tab.Forms V st₁.store st₁'.store ∧
      Store.Later V st.store st'.store V st₁.store st₁'.store ∧ (st₁.Sane tab ∧ st₁'.Sane tab) ∧
      ∀ {id k k'}, Key.Alike tab V k k' → (k.Closed tab → ∀ t, ¬tab.Answer id k t) →
        st₁.memo.state? id k = st.memo.state? id k ∧ st₁'.memo.state? id k' = st'.memo.state? id k' := by
  obtain ⟨rfl, hext, hwf, hsane, hsame⟩ := h.answer hset hpaired.left hkey hq ht hrun
  obtain ⟨rfl, hext', hwf', hsane', hsame'⟩ := h'.answer hset hpaired.right hkey hq ht hrun'
  have htt : t.Alike tab.Forms .none t := (ht.run hset hkey hq rfl hpaired.left).1
  exact ⟨.ok htt, hpaired.of_extends hext hext' hwf hwf', .of_extends V hext hext', ⟨hsane, hsane'⟩,
    fun {id k k'} hk hno => ⟨hsame id k hno, hsame' id k' (hk.unanswered hno)⟩⟩

theorem answered_lockstep {V : Pairing} {st st' : State} (hrel : (Setting.lockstep tab).Related V st st') {q : Demand}
    {key : Key} (hkey : key.Closed tab) (hq : q.Proper tab key) {t : Ty} (ht : tab.Answer q.id key t)
    {r r' : Except Error Ty} {st₁ st₁' : State} (hrun : (fully kept tab).answer q key st = some (r, st₁))
    (hrun' : (fully kept tab).answer q key st' = some (r', st₁')) :
    (Setting.lockstep tab).Ended (.ty tab .closed) V st st' r r' V st₁ st₁' := by
  have hmatched : State.Matched tab V st st' := hrel.memos
  obtain ⟨hout, hpaired, hlater, ⟨hsane, hsane'⟩, hsame⟩ :=
    answered_alike hset hmatched.left hmatched.right hrel.stores hkey hq ht hrun hrun'
  refine ⟨hout, ⟨hpaired, hsane, hsane', fun {id k k'} hk hno => ?_⟩, hlater⟩
  obtain ⟨hleft, hright⟩ := hsame hk hno
  rw [hleft, hright, hmatched.agree hk hno]

/-- Searches for keys that have no answer, if they go in lockstep, leave records that match. -/
theorem searches_lockstep {n : Nat} (h : (Setting.lockstep tab).Simulates (within kept n tab) (fully kept tab))
    {lv : Level} {V V₀ : Pairing} {key key' : Key} (hkey : (Likeness.denoted tab lv).list.rel V key key')
    (hkey₀ : Key.Alike tab V₀ key key') {q : Demand} (hno : key.Closed tab → ∀ t, ¬tab.Answer q.id key t)
    (hq : q.Proper tab key) (hq' : q.Proper tab key') {st st' : State} (hV : V ≤ V₀)
    (hrel : (Setting.lockstep tab).Related V₀ st st') {r r' : Except Error Ty} {st₂ st₂' : State}
    (hrun : q.compute (within kept n tab) key { st with memo := st.memo.modify q.id (·.start key) } = some (r, st₂))
    (hrun' : q.compute (fully kept tab) key' { st' with memo := st'.memo.modify q.id (·.start key') } =
      some (r', st₂')) :
    ∃ V₁, (Setting.lockstep tab).Ended (.ty tab .closed) V₀ st st' r r' V₁
      { st₂ with memo := st₂.memo.finish q.id key r } { st₂' with memo := st₂'.memo.finish q.id key' r' } := by
  have hrecords := Setting.lockstep_records tab
  have hrel₀ := hrecords.start hkey₀ hrel hno
  have halong := h.compute hkey hq hq' rfl (fun _ => rfl) V₀ _ _ hV hrel₀
  rw [Setting.Along.lockstep rfl] at halong
  obtain ⟨V₁, hend⟩ := halong r st₂ r' st₂' hrun hrun'
  have hstarted : State.Matched tab V₀ _ _ := hrel₀.memos
  exact ⟨V₁, hrecords.finish hkey₀ hend
    (recordable_of_outcome hset hq hend.outcome hrel₀.stores.left hstarted.left.sound hrun)⟩

/-- Answers come out alike in lockstep, if inferences below do. -/
theorem answers_lockstep {n : Nat} (h : (Setting.lockstep tab).Simulates (within kept n tab) (fully kept tab)) :
    (Setting.lockstep tab).Answers (within kept n tab) (fully kept tab) := by
  intro lv _ V key key' hkey q hq hq' V₀ st st' hV hrel
  rw [Setting.Along.lockstep rfl]
  intro r st₁ r' st₁' hrun hrun'
  have hmatched : State.Matched tab V₀ st st' := hrel.memos
  have hkey₀ : Key.Alike tab V₀ key key' :=
    List.Forall₂.imp (fun _ _ hd => hd.mono ((lv.at_mono hV).trans (lv.at_le V₀))) hkey
  by_cases hanswer : key.Closed tab ∧ ∃ t, tab.Answer q.id key t
  · obtain ⟨hclosed, t, ht⟩ := hanswer
    obtain rfl := hclosed.eq hkey₀
    exact ⟨V₀, answered_lockstep hset hrel hclosed hq ht (answer_reached.2 ⟨n, hrun⟩) hrun'⟩
  · have hno : key.Closed tab → ∀ t, ¬tab.Answer q.id key t := fun hc t ht => hanswer ⟨hc, t, ht⟩
    rcases memoized_agree (hmatched.agree hkey₀ hno) hrun hrun' with ⟨t, ht, rfl, rfl, rfl, rfl⟩ |
      ⟨rfl, rfl, rfl, rfl⟩ | ⟨st₂, st₂', hcompute, hcompute', rfl, rfl⟩
    · exact ⟨V₀, .ok (hmatched.right.answers ht), hrel, .refl _ _ _⟩
    · exact ⟨V₀, .error ⟨.same _, rfl⟩, hrel, .refl _ _ _⟩
    · exact searches_lockstep hset h hkey hkey₀ hno hq hq' hV hrel hcompute hcompute'

/-- Inferences from matching memos go in lockstep. -/
theorem kept_lockstep (n : Nat) : (Setting.lockstep tab).Simulates (within kept n tab) (fully kept tab) := by
  induction n with
  | zero =>
    refine .of_lockstep rfl rfl rfl rfl fun _ _ V₀ st st' _ _ => ?_
    rw [Setting.Along.lockstep rfl]
    intro r st₁ r' st₁' h
    cases h
  | succ n ih =>
    refine .of_lockstep rfl rfl rfl rfl fun henv e => ?_
    rw [show (fully kept tab).infer = inferFully kept tab from rfl, inferFully_eq continuous_memoized]
    exact ih.rule (.inl rfl) henv (answers_lockstep hset ih) hset e

end

end DualInference
