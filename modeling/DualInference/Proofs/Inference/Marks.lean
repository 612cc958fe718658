/-
An inference with a key marked, and without.

While the answer to a key is sought the key is marked as in progress, and whoever needs it then is cut off. The memos of
two states agree but for marks (`State.Marked`) if they agree on every key without an answer, unless the key is in
progress in the second, or it is a key of a given sort, `spare`, and in progress in the first. Keys that have an answer
are left out, as they are where memos match (`State.Matched`).

A mark in the second memo can do no more than cut the second inference off. A mark in the first memo cuts the first
inference off where the second one may go on. What becomes of the second then is known if the marked key is circular: the
search for it, from whatever state, comes to a recursion error (`SymbolTable.Circular`). So the second inference ends if
the first does, and ends alike or is cut off (`kept_through`).
-/
import DualInference.Proofs.Inference.Lockstep

namespace DualInference

open Infer Context

/-! ## Memos that agree but for marks -/

/-- what is asked of two states: on keys that have no answer they agree, but for marks -/
structure State.Marked (tab : SymbolTable) (spare : SymbolId → Key → Prop) (V : Pairing) (st st' : State) : Prop where
  left : st.Sane tab
  right : st'.Sane tab
  agree : ∀ {id key key'}, Key.Alike tab V key key' → (key.Closed tab → ∀ t, ¬tab.Answer id key t) →
    st.memo.state? id key = st'.memo.state? id key' ∨ st'.memo.state? id key' = some .inProgress ∨
      st.memo.state? id key = some .inProgress ∧ spare id key'

namespace State.Marked

variable {tab : SymbolTable} {spare : SymbolId → Key → Prop} {V : Pairing} {st st' : State}

theorem later (h : Marked tab spare V st st') {V₁ : Pairing} {s₁ s₁' : Store}
    (hl : Store.Later V st.store st'.store V₁ s₁ s₁') :
    Marked tab spare V₁ { st with store := s₁ } { st' with store := s₁' } := by
  refine ⟨h.left.later hl.left_size, h.right.later hl.right_size, fun {id key key'} hkey hno => ?_⟩
  dsimp only
  -- a key that is recorded on either side was there before, and so were the pairs it needs
  cases hp : st.memo.state? id key with
  | some p =>
    rw [← hp]
    exact h.agree (hkey.of_later_left hl (h.left.covers hp)) hno
  | none =>
    cases hp' : st'.memo.state? id key' with
    | some p =>
      rw [← hp, ← hp']
      exact h.agree (hkey.of_later_right hl (h.right.covers hp')) hno
    | none => exact .inl rfl

/-- To record the same for two keys that are alike keeps memos in agreement. -/
theorem record (h : Marked tab spare V st st') (hs : Store.Paired tab.Forms V st.store st'.store) {id : SymbolId}
    {key key' : Key} (hkey : Key.Alike tab V key key') {p : Option Progress} (hp : State.Recordable tab id key p)
    {m m' : Memo}
    (hm : ∀ id' k, m.state? id' k = if id' = id ∧ k = key then p else st.memo.state? id' k)
    (hm' : ∀ id' k, m'.state? id' k = if id' = id ∧ k = key' then p else st'.memo.state? id' k) :
    Marked tab spare V { st with memo := m } { st' with memo := m' } := by
  refine ⟨h.left.record (hkey.covers_left hs) hp hm, h.right.record (hkey.covers_right hs) (hp.of_alike hkey) hm', ?_⟩
  intro id' k k' hk hno
  dsimp only
  rw [hm, hm']
  by_cases heq : id' = id ∧ k = key
  · rw [if_pos heq, if_pos ⟨heq.1, (hkey.eq_iff hk).1 heq.2⟩]
    exact .inl rfl
  · rw [if_neg heq, if_neg fun heq' => heq ⟨heq'.1, (hkey.eq_iff hk).2 heq'.2⟩]
    exact h.agree hk hno

end State.Marked

/-- going all the way, from memos that agree but for marks -/
def Setting.through (table : SymbolTable) (spare : SymbolId → Key → Prop) (excused : Prop) : Setting where
  table := table
  mode := .through excused
  memos := State.Marked table spare
  later h hl := h.later hl

theorem Setting.through_records (table : SymbolTable) (spare : SymbolId → Key → Prop) (excused : Prop) :
    (Setting.through table spare excused).Records :=
  fun _ _ _ hrel _ _ _ hkey _ hp _ _ hm hm' => ⟨hrel.stores, State.Marked.record hrel.memos hrel.stores hkey hp hm hm'⟩

/-- from whatever state, the search for the key is cut off -/
def SymbolTable.Circular (tab : SymbolTable) (id : SymbolId) (key : Key) : Prop :=
  ∀ q : Demand, q.Proper tab key → q.id = id → ∀ st : State, st.store.WellFormed → st.Sane tab →
    ∃ e st₁, (fully kept tab).answer q key st = some (.error e, st₁) ∧ e.isRecursive = true

/-! ## All the way -/

section

variable {tab : SymbolTable} {items : List Item} (hset : tab.Settled items)

include hset

/-- A key that has an answer gets it in a sane state. -/
theorem State.Sane.answer_exists {st : State} (h : st.Sane tab) (hwf : st.store.WellFormed) {q : Demand} {key : Key}
    (hkey : key.Closed tab) (hq : q.Proper tab key) {t : Ty} (ht : tab.Answer q.id key t) :
    ∃ st₁, (fully kept tab).answer q key st = some (.ok t, st₁) := by
  obtain ⟨st₁, hrun, _⟩ := ht.run_kept hset hkey hq rfl hwf h.sound h.free
  exact ⟨st₁, hrun⟩

variable {spare : SymbolId → Key → Prop} {excused : Prop} {V : Pairing} {st st' : State}

/-- Where a key has an answer, the second search comes to it if the first one ends. -/
theorem answered_through (hrel : (Setting.through tab spare excused).Related V st st') {q : Demand} {key : Key}
    (hkey : key.Closed tab) (hq : q.Proper tab key) {t : Ty} (ht : tab.Answer q.id key t) {r : Except Error Ty}
    {st₁ : State} (hrun : (fully kept tab).answer q key st = some (r, st₁)) :
    ∃ r' st₁', (fully kept tab).answer q key st' = some (r', st₁') ∧
      (Setting.through tab spare excused).Ended (.ty tab .closed) V st st' r r' V st₁ st₁' := by
  have hmarked : State.Marked tab spare V st st' := hrel.memos
  obtain ⟨st₁', hrun'⟩ := hmarked.right.answer_exists hset hrel.stores.right hkey hq ht
  obtain ⟨hout, hpaired, hlater, ⟨hsane, hsane'⟩, hsame⟩ :=
    answered_alike hset hmarked.left hmarked.right hrel.stores hkey hq ht hrun hrun'
  refine ⟨.ok t, st₁', hrun', hout, ⟨hpaired, hsane, hsane', fun {id k k'} hk hno => ?_⟩, hlater⟩
  obtain ⟨hleft, hright⟩ := hsame hk hno
  rw [hleft, hright]
  exact hmarked.agree hk hno

/-- Searches for keys that have no answer, if the second computation goes along, go along with each other. -/
theorem searches_through {n : Nat} (h : (Setting.through tab spare excused).Simulates (within kept n tab) (fully kept tab))
    {lv : Level} {V₀ : Pairing} {key key' : Key} (hkey : (Likeness.denoted tab lv).list.rel V key key')
    (hkey₀ : Key.Alike tab V₀ key key') {q : Demand} (hno : key.Closed tab → ∀ t, ¬tab.Answer q.id key t)
    (hq : q.Proper tab key) (hq' : q.Proper tab key') (hV : V ≤ V₀)
    (hrel : (Setting.through tab spare excused).Related V₀ st st') (hfresh : st'.memo.state? q.id key' = none)
    {r : Except Error Ty} {st₂ : State}
    (hrun : q.compute (within kept n tab) key { st with memo := st.memo.modify q.id (·.start key) } = some (r, st₂)) :
    excused ∧ Setting.CutOff r ∨ ∃ r' st₁', (fully kept tab).answer q key' st' = some (r', st₁') ∧
      (Setting.CutOff r' ∨ ∃ V₁, (Setting.through tab spare excused).Ended (.ty tab .closed) V₀ st st' r r' V₁
        { st₂ with memo := st₂.memo.finish q.id key r } st₁') := by
  have hrecords := Setting.through_records tab spare excused
  have hrel₀ := hrecords.start hkey₀ hrel hno
  have halong := h.compute hkey hq hq' rfl (fun _ => rfl) V₀ _ _ hV hrel₀
  rw [Setting.Along.through rfl] at halong
  refine (halong r st₂ hrun).imp_right ?_
  rintro ⟨r', st₂', hrun', hend⟩
  have hanswer : (fully kept tab).answer q key' st' =
      some (r', { st₂' with memo := st₂'.memo.finish q.id key' r' }) := by
    rw [answer, show (fully kept tab).remember = memoized start from rfl, memoized_none hfresh, hrun']
    rfl
  refine ⟨r', _, hanswer, hend.imp_right ?_⟩
  rintro ⟨V₁, hend⟩
  have hstarted : State.Marked tab spare V₀ _ _ := hrel₀.memos
  exact ⟨V₁, hrecords.finish hkey₀ hend
    (recordable_of_outcome hset hq hend.outcome hrel₀.stores.left hstarted.left.sound hrun)⟩

/-- Answers go along with each other all the way, if inferences below do, and if nothing is spared that is not
circular. -/
theorem answers_through (hspare : ∀ id key, spare id key → excused ∨ tab.Circular id key) {n : Nat}
    (h : (Setting.through tab spare excused).Simulates (within kept n tab) (fully kept tab)) :
    (Setting.through tab spare excused).Answers (within kept n tab) (fully kept tab) := by
  intro lv _ V key key' hkey q hq hq' V₀ st st' hV hrel
  rw [Setting.Along.through rfl]
  intro r st₁ hrun
  have hmarked : State.Marked tab spare V₀ st st' := hrel.memos
  have hkey₀ : Key.Alike tab V₀ key key' :=
    List.Forall₂.imp (fun _ _ hd => hd.mono ((lv.at_mono hV).trans (lv.at_le V₀))) hkey
  by_cases hanswer : key.Closed tab ∧ ∃ t, tab.Answer q.id key t
  · obtain ⟨hclosed, t, ht⟩ := hanswer
    obtain rfl := hclosed.eq hkey₀
    obtain ⟨r', st₁', hrun', hend⟩ := answered_through hset hrel hclosed hq ht (answer_reached.2 ⟨n, hrun⟩)
    exact .inr ⟨r', st₁', hrun', .inr ⟨V₀, hend⟩⟩
  · have hno : key.Closed tab → ∀ t, ¬tab.Answer q.id key t := fun hc t ht => hanswer ⟨hc, t, ht⟩
    -- whatever is marked in the second memo cuts the second search off
    have hbusy : st'.memo.state? q.id key' = some .inProgress →
        (fully kept tab).answer q key' st' = some (.error ⟨.recursiveInference, q.span⟩, st') := by
      intro hbusy
      rw [answer, show (fully kept tab).remember = memoized start from rfl, memoized, hbusy]
    rcases hmarked.agree hkey₀ hno with hagree | hmark | ⟨hmark, hsp⟩
    · rcases memoized_cases hrun with ⟨t, ht, rfl, rfl⟩ | ⟨hmark, rfl, rfl⟩ | ⟨hnone, st₂, hcompute, rfl⟩
      · have ht' : (fully kept tab).answer q key' st' = some (.ok t, st') := by
          rw [answer, show (fully kept tab).remember = memoized start from rfl, memoized, ← hagree, ht]
        exact .inr ⟨.ok t, st', ht', .inr ⟨V₀, .ok (hmarked.left.answers ht), hrel, .refl _ _ _⟩⟩
      · exact .inr ⟨_, st', hbusy (hagree ▸ hmark), .inl ⟨_, rfl, rfl⟩⟩
      · exact searches_through hset h hkey hkey₀ hno hq hq' hV hrel (hagree ▸ hnone) hcompute
    · exact .inr ⟨_, st', hbusy hmark, .inl ⟨_, rfl, rfl⟩⟩
    · rcases memoized_cases hrun with ⟨t, ht, _⟩ | ⟨_, rfl, rfl⟩ | ⟨hnone, _⟩
      · rw [hmark] at ht
        cases ht
      · rcases hspare q.id key' hsp with hex | hcirc
        · exact .inl ⟨hex, _, rfl, rfl⟩
        · obtain ⟨e, st₁', hrun', he⟩ := hcirc q hq' rfl st' hrel.stores.right hmarked.right
          exact .inr ⟨.error e, st₁', hrun', .inl ⟨e, rfl, he⟩⟩
      · rw [hmark] at hnone
        cases hnone

/-- Inferences from memos that agree but for marks go along with each other all the way. -/
theorem kept_through (hspare : ∀ id key, spare id key → excused ∨ tab.Circular id key) (n : Nat) :
    (Setting.through tab spare excused).Simulates (within kept n tab) (fully kept tab) := by
  induction n with
  | zero =>
    refine .of_lockstep rfl rfl rfl rfl fun _ _ V₀ st st' _ _ => ?_
    rw [Setting.Along.through rfl]
    intro r st₁ h
    cases h
  | succ n ih =>
    refine .of_lockstep rfl rfl rfl rfl fun henv e => ?_
    rw [show (fully kept tab).infer = inferFully kept tab from rfl, inferFully_eq continuous_memoized]
    exact ih.rule (.inl rfl) henv (answers_through hset hspare ih) hset e

end

end DualInference
