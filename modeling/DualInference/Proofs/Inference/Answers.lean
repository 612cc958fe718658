/-
Answers, with and without a memo.

A key of a symbol is answered by a type if the computation behind it comes to that type when nothing is remembered
(`SymbolTable.Answer`). This does not depend on the state it starts from, or on the expressions and places it is asked
at (`Answer.run`). With a memo the same answers come out:
- what is recorded for a closed key is its answer (`Memo.Sound`), and whatever is found with a sound memo is found
  without one too (`kept_simulates_plain`);
- whatever is found without a memo is found with one, unless a key that is needed is in progress
  (`plain_simulates_kept`). A key in progress is not needed if it has no answer, and the answer to a key never needs
  that key itself, so no key with an answer is in the way as long as none was at the beginning (`Answer.run_kept`).
-/
import DualInference.Proofs.Inference.Progress
import DualInference.Proofs.Inference.TypeExpr

namespace DualInference

/-- answers that are kept in the memo -/
abbrev Infer.kept : SymbolId → Key → Span → Infer Ty → Infer Ty :=
  Infer.memoized Infer.start

namespace Context

/-- the context of inferences at most so deep -/
def within (remember : SymbolId → Key → Span → Infer Ty → Infer Ty) (n : Nat) (table : SymbolTable) : Context :=
  { table, infer := inferBy remember n table, remember }

/-- the context of inferences as deep as it takes -/
noncomputable def fully (remember : SymbolId → Key → Span → Infer Ty → Infer Ty) (table : SymbolTable) : Context :=
  { table, infer := inferFully remember table, remember }

end Context

open Infer Context

/-- The computation behind a demand has as its limit the one that needs no bound on depth. -/
theorem Demand.compute_limit {remember : SymbolId → Key → Span → Infer Ty → Infer Ty} (hremember : Continuous remember)
    (table : SymbolTable) (q : Demand) (key : Key) :
    Limit fun i => q.compute (Contexts.at (.deepening remember table (fun n => inferBy remember n table)
      (inferFully remember table)) i) key := by
  cases q with
  | call origin d args span => exact (Built.returnType origin d key args span).reached hremember table
  | initializer home d group span => exact (Built.value _ d.init).reached hremember table

theorem Demand.compute_reached {remember : SymbolId → Key → Span → Infer Ty → Infer Ty} (hremember : Continuous remember)
    {table : SymbolTable} {q : Demand} {key : Key} {st : State} {r : Except Error Ty × State} :
    q.compute (.fully remember table) key st = some r ↔ ∃ n, q.compute (.within remember n table) key st = some r :=
  (compute_limit hremember table q key).reached

theorem Context.answer_reached {table : SymbolTable} {q : Demand} {key : Key} {st : State}
    {r : Except Error Ty × State} :
    (fully kept table).answer q key st = some r ↔ ∃ n, (within kept n table).answer q key st = some r :=
  (continuous_memoized q.id key q.span (Demand.compute_limit continuous_memoized table q key)).reached

/-! ## Going forward -/

/-- going forward, with something said about the two memos -/
def Setting.forward (table : SymbolTable) (memos : Memo → Memo → Prop) : Setting where
  table := table
  mode := .forward
  memos _ st st' := memos st.memo st'.memo
  later h _ := h

/-- Inference goes along with another one, going forward, if it does so for closed environments: types take care of
themselves. -/
theorem Setting.Simulates.of_forward {table : SymbolTable} {items : List Item} (hset : table.Settled items)
    {memos : Memo → Memo → Prop} {cx cx' : Context} (hleft : cx.table = table) (hright : cx'.table = table)
    (hunify : cx.unify = Store.unify) (hunify' : cx'.unify = Store.unify)
    (hfinds : cx.FindsTypes) (hrule : ∀ env e, cx'.infer env e = cx'.rule env e)
    (hinfer : ∀ {V env env'}, (Likeness.env table .closed).rel V env env' → ∀ e,
      (Setting.forward table memos).Sim V (.denoted table .closed) (cx.infer env e) (cx'.infer env' e)) :
    (Setting.forward table memos).Simulates cx cx' := by
  refine ⟨hleft, hright, hunify, hunify', ?_, ?_⟩
  · rintro lv (hlv | rfl) V env env' henv e
    · cases hlv
    · exact hinfer henv e
  · intro lv V env env' henv e V₀ st st' hV hrel
    rw [Along.forward rfl]
    intro t st₁ ht
    obtain ⟨rfl, he⟩ := hfinds (type_eq_ok.1 ht)
    have hs := hrel.stores.atLevel lv
    rw [hleft] at he
    obtain ⟨u, hu, htu⟩ := he.alike hset hs (Likeness.mono _ hV henv)
    rw [← hright] at hu
    exact ⟨V₀, u, st', type_eq_ok.2 (hu.found hrule), .ok htu, hrel, .refl _ _ _⟩

/-! ## Answers without a memo -/

/-- keys that are equal but for paired variables -/
def Key.Alike (tab : SymbolTable) (V : Pairing) : Key → Key → Prop :=
  List.Forall₂ fun d d' => d.Alike tab.Forms V d'

/-- all parts of a key are closed and well formed -/
def Key.Closed (tab : SymbolTable) (key : Key) : Prop :=
  Key.Alike tab .none key key

theorem Denotation.Alike.eq_of_closed {D : Former → Nat → Prop} {d d' : Denotation} (h : d.Alike D .none d') :
    d' = d := by
  cases h with
  | value h => rw [h.refl_of_closed]
  | type h => rw [h.refl_of_closed]

/-- Keys that are alike at the closed level are equal. -/
theorem Key.eq_of_closed {tab : SymbolTable} {key key' : Key}
    (h : Key.Alike tab .none key key') : key' = key := by
  induction h with
  | nil => rfl
  | cons h _ ih => rw [h.eq_of_closed, ih]

namespace SymbolTable

variable (tab : SymbolTable)

/-- without a memo, the computation behind a key comes to the type, with other inferences at most `n` levels deep -/
def AnswerWithin (n : Nat) (id : SymbolId) (key : Key) (t : Ty) : Prop :=
  ∃ (q : Demand) (st st' : State), q.Proper tab key ∧ q.id = id ∧ st.store.WellFormed ∧
    q.compute (within plainly n tab) key st = some (.ok t, st')

/-- the answer to a key -/
def Answer (id : SymbolId) (key : Key) (t : Ty) : Prop :=
  ∃ n, tab.AnswerWithin n id key t

end SymbolTable

section

variable {tab : SymbolTable} {items : List Item} (hset : tab.Settled items)

include hset

/-- Without a memo, it does not matter from which state inference starts. -/
theorem plain_simulates (n : Nat) :
    (Setting.forward tab fun _ _ => True).Simulates (within plainly n tab) (fully plainly tab) := by
  have hrule : ∀ env e, (fully plainly tab).infer env e = (fully plainly tab).rule env e :=
    inferFully_eq continuous_plainly tab
  induction n with
  | zero =>
    refine .of_forward hset rfl rfl rfl rfl (inferBy_findsTypes plainly 0 tab) hrule fun _ _ V₀ st st' _ _ => ?_
    rw [Setting.Along.forward rfl]
    intro a st₁ h
    cases h
  | succ n ih =>
    refine .of_forward hset rfl rfl rfl rfl (inferBy_findsTypes plainly (n + 1) tab) hrule fun henv e => ?_
    rw [hrule]
    refine ih.rule (.inr rfl) henv ?_ hset e
    intro lv _ V key key' hkey q hq hq'
    exact ih.compute hkey hq hq' rfl fun _ => rfl

/-- Nothing happens to the variables that were there while an answer is found. -/
theorem SymbolTable.AnswerWithin.run {n : Nat} {key : Key} (hkey : key.Closed tab) {q q' : Demand}
    (hq : q.Proper tab key) (hq' : q'.Proper tab key) (hid : q'.id = q.id) {st st₁ st' : State}
    (hs : st.store.WellFormed) (hs' : st'.store.WellFormed) {t : Ty}
    (h : q.compute (within plainly n tab) key st = some (.ok t, st₁)) :
    t.Alike tab.Forms .none t ∧ st.store.Extends st₁.store ∧ st₁.store.WellFormed ∧
      ∃ st₁', q'.compute (fully plainly tab) key st' = some (.ok t, st₁') ∧ st'.store.Extends st₁'.store ∧
        st₁'.store.WellFormed := by
  have hlike : (Likeness.denoted tab .closed).list.rel .none key key := hkey
  have hsim := (plain_simulates hset n).compute hlike hq hq' hid.symm (.of_forward rfl)
  have halong := hsim .none st st' (le_refl _) ⟨.unpaired hs hs', trivial⟩
  rw [Setting.Along.forward rfl] at halong
  obtain ⟨V₁, u, st₁', hu, hend⟩ := halong t st₁ h
  cases hend.outcome with
  | ok htu =>
    have htu : t.Alike tab.Forms .none u := htu
    have heq := htu.refl_of_closed
    subst heq
    exact ⟨htu, hend.later.extends_left, hend.related.stores.left, st₁', hu, hend.later.extends_right,
      hend.related.stores.right⟩

/-- An answer comes out from any state, at whatever place it is asked for. -/
theorem SymbolTable.Answer.run {id : SymbolId} {key : Key} {t : Ty} (h : tab.Answer id key t) (hkey : key.Closed tab)
    {q : Demand} (hq : q.Proper tab key) (hid : q.id = id) {st : State} (hs : st.store.WellFormed) :
    t.Alike tab.Forms .none t ∧ ∃ st', q.compute (fully plainly tab) key st = some (.ok t, st') ∧
      st.store.Extends st'.store ∧ st'.store.WellFormed := by
  obtain ⟨n, q₀, st₀, st₀', hq₀, hid₀, hs₀, hrun⟩ := h
  obtain ⟨ht, _, _, hex⟩ := AnswerWithin.run hset hkey hq₀ hq (hid.trans hid₀.symm) hs₀ hs hrun
  exact ⟨ht, hex⟩

/-- A key has one answer. -/
theorem SymbolTable.Answer.unique {id : SymbolId} {key : Key} {t u : Ty} (ht : tab.Answer id key t)
    (hu : tab.Answer id key u) (hkey : key.Closed tab) : t = u := by
  have ⟨_, q, _, _, hq, hid, hs, _⟩ := ht
  obtain ⟨_, st₁, h₁, _⟩ := ht.run hset hkey hq hid hs
  obtain ⟨_, st₂, h₂, _⟩ := hu.run hset hkey hq hid hs
  rw [h₁] at h₂
  cases h₂
  rfl

end

/-! ## With a sound memo, nothing else is found -/

/-- what is recorded for closed keys are their answers -/
def Memo.Sound (tab : SymbolTable) (m : Memo) : Prop :=
  ∀ id key t, key.Closed tab → m.state? id key = some (.resolved t) → tab.Answer id key t

theorem Memo.Sound.start {tab : SymbolTable} {m : Memo} (h : m.Sound tab) (id : SymbolId) (key : Key) :
    (m.modify id (·.start key)).Sound tab :=
  fun id' key' t hkey ht => h id' key' t hkey (Memo.resolved_start ht)

theorem Memo.Sound.resolve {tab : SymbolTable} {m : Memo} (h : m.Sound tab) {id : SymbolId} {key : Key} {t : Ty}
    (ht : key.Closed tab → tab.Answer id key t) : (m.modify id (·.resolve key t)).Sound tab := by
  intro id' key' t' hkey ht'
  have ht'' := (m.state?_insert id id' key key' (.resolved t)).symm.trans ht'
  split at ht''
  · rename_i heq
    obtain ⟨rfl, rfl⟩ := heq
    cases ht''
    exact ht hkey
  · exact h id' key' t' hkey ht''

section

variable {tab : SymbolTable} {items : List Item} (hset : tab.Settled items)

include hset

/-- What is found with a sound memo is found without one. -/
theorem kept_simulates_plain (n : Nat) :
    (Setting.forward tab fun m _ => m.Sound tab).Simulates (within kept n tab) (fully plainly tab) := by
  have hrule : ∀ env e, (fully plainly tab).infer env e = (fully plainly tab).rule env e :=
    inferFully_eq continuous_plainly tab
  induction n with
  | zero =>
    refine .of_forward hset rfl rfl rfl rfl (inferBy_findsTypes kept 0 tab) hrule fun _ _ V₀ st st' _ _ => ?_
    rw [Setting.Along.forward rfl]
    intro a st₁ h
    cases h
  | succ n ih =>
    refine .of_forward hset rfl rfl rfl rfl (inferBy_findsTypes kept (n + 1) tab) hrule fun henv e => ?_
    rw [hrule]
    refine ih.rule (.inr rfl) henv ?_ hset e
    rintro lv (hlv | rfl) V key key' hkey q hq hq' V₀ st st' hV hrel
    · cases hlv
    obtain rfl := Key.eq_of_closed hkey
    rw [Setting.Along.forward rfl]
    intro t st₁ hrun
    rcases memoized_cases hrun with ⟨u, hu, hr, rfl⟩ | ⟨_, hr, _⟩ | ⟨_, st₂, hcompute, rfl⟩
    · -- the answer was recorded
      cases hr
      obtain ⟨ht, st₁', hrun', hext, hwf⟩ := (hrel.memos q.id key' t hkey hu).run hset hkey hq rfl hrel.stores.right
      refine ⟨V₀, t, st₁', hrun', .ok ht, ⟨?_, hrel.memos⟩, ?_⟩
      · exact hrel.stores.of_extends (.refl _) hext hrel.stores.left hwf
      · exact .of_extends V₀ (.refl _) hext
    · cases hr
    · -- the answer is found, as it is without a memo
      have hrel₀ : (Setting.forward tab fun m _ => m.Sound tab).Related V₀
          { st with memo := st.memo.modify q.id (·.start key') } st' :=
        ⟨hrel.stores, Memo.Sound.start hrel.memos q.id key'⟩
      have halong := (ih.compute hkey hq hq rfl (.of_forward rfl)) V₀ _ st' hV hrel₀
      rw [Setting.Along.forward rfl] at halong
      obtain ⟨V₁, u, st₁', hu, hend⟩ := halong t st₂ hcompute
      cases hend.outcome with
      | ok htu =>
        have htu : t.Alike tab.Forms .none u := htu
        obtain rfl := htu.refl_of_closed
        have hanswer : tab.Answer q.id key' u := by
          obtain ⟨k, hk⟩ := (Demand.compute_reached continuous_plainly).1 hu
          exact ⟨k, q, st', st₁', hq, rfl, hrel.stores.right, hk⟩
        have hsound := Memo.Sound.resolve hend.related.memos fun _ => hanswer
        exact ⟨V₁, u, st₁', hu, .ok htu, ⟨hend.related.stores, hsound⟩, hend.later⟩

end

/-! ## With a memo, all answers are found -/

theorem Context.within_kept (n : Nat) (table : SymbolTable) :
    within kept n table = { table, infer := inferWithin n table } := by
  rw [within, inferBy_memoized]

/-- However an answer is got at, the memo is kept in order. -/
theorem Context.answer_keeps {table : SymbolTable} {q : Demand} {key : Key} {st st' : State} {r : Except Error Ty}
    (h : (fully kept table).answer q key st = some (r, st')) : st.memo.Keeps st'.memo := by
  obtain ⟨n, hn⟩ := answer_reached.1 h
  have horderly : (q.compute (within kept n table) key).Orderly := by
    rw [within_kept]
    cases q with
    | call origin d args span =>
      exact (Built.returnType (F := .within n table) origin d key args span).orderly
    | initializer home d group span =>
      exact (Built.value (F := .within n table) _ d.init).orderly
  exact Orderly.memoized horderly st r st' hn

namespace Memo

/-- no closed key in progress has an answer at a depth below `p` -/
def Free (tab : SymbolTable) (p : Nat) (m : Memo) : Prop :=
  ∀ id key, key.Closed tab → m.state? id key = some .inProgress → ∀ n < p, ∀ t, ¬tab.AnswerWithin n id key t

/-- keys that are not closed have the same records -/
def SameOpen (tab : SymbolTable) (m m' : Memo) : Prop :=
  ∀ id key, ¬key.Closed tab → m'.state? id key = m.state? id key

/-- a sound memo with no answer below a depth in progress, and with the open keys as they were -/
structure Ready (tab : SymbolTable) (p : Nat) (m m₀ : Memo) : Prop where
  sound : m.Sound tab
  free : m.Free tab p
  sameOpen : m₀.SameOpen tab m

theorem Free.mono {tab : SymbolTable} {p p' : Nat} (hp : p' ≤ p) {m : Memo} (h : m.Free tab p) : m.Free tab p' :=
  fun id key hkey hbusy n hn => h id key hkey hbusy n (hn.trans_le hp)

theorem Free.of_keeps {tab : SymbolTable} {p : Nat} {m m' : Memo} (h : m.Free tab p) (hk : m.Keeps m') :
    m'.Free tab p :=
  fun id key hkey hbusy => h id key hkey ((hk.inProgress id key).1 hbusy)

/-- A key can be begun if it has no answer below the depth. -/
theorem Free.start {tab : SymbolTable} {p : Nat} {m : Memo} (h : m.Free tab p) {id : SymbolId} {key : Key}
    (hkey : ∀ n < p, ∀ t, ¬tab.AnswerWithin n id key t) : (m.modify id (·.start key)).Free tab p := by
  intro id' key' hclosed hbusy
  have hbusy' := (m.state?_insert id id' key key' .inProgress).symm.trans hbusy
  split at hbusy'
  · rename_i heq
    obtain ⟨rfl, rfl⟩ := heq
    exact hkey
  · exact h id' key' hclosed hbusy'

theorem SameOpen.refl (tab : SymbolTable) (m : Memo) : m.SameOpen tab m :=
  fun _ _ _ => rfl

/-- Records of a closed key are not records of an open one. -/
theorem SameOpen.insert {tab : SymbolTable} {m₀ m : Memo} (h : m₀.SameOpen tab m) {id : SymbolId} {key : Key}
    (hkey : key.Closed tab) (p : Progress) : m₀.SameOpen tab (m.modify id (·.insert key p)) := by
  intro id' key' hopen
  rw [m.state?_insert, if_neg, h id' key' hopen]
  rintro ⟨_, rfl⟩
  exact hopen hkey

end Memo

section

variable {tab : SymbolTable} {items : List Item} (hset : tab.Settled items)

include hset

/-- An answer is found with a memo if no key with an answer at a depth as low is in progress. -/
theorem SymbolTable.AnswerWithin.run_kept {n : Nat}
    (hsim : ∀ k ≤ n, ∀ m₀, (Setting.forward tab fun _ m => m.Ready tab k m₀).Simulates (within plainly k tab)
      (fully kept tab))
    {id : SymbolId} {key : Key} {t : Ty} (h : tab.AnswerWithin n id key t) (hkey : key.Closed tab) {q : Demand}
    (hq : q.Proper tab key) (hid : q.id = id) {st : State} (hs : st.store.WellFormed) (hsound : st.memo.Sound tab)
    (hfree : st.memo.Free tab (n + 1)) :
    ∃ st', (fully kept tab).answer q key st = some (.ok t, st') ∧ st.store.Extends st'.store ∧ st'.store.WellFormed ∧
      st'.memo.Sound tab ∧ st.memo.SameOpen tab st'.memo := by
  subst hid
  have hanswer : tab.Answer q.id key t := ⟨n, h⟩
  cases hstate : st.memo.state? q.id key with
  | some p =>
    cases p with
    | inProgress => exact absurd h (hfree q.id key hkey hstate n (Nat.lt_succ_self n) t)
    | resolved u =>
      obtain rfl := (hsound q.id key u hkey hstate).unique hset hanswer hkey
      refine ⟨st, ?_, .refl _, hs, hsound, .refl tab _⟩
      simp only [answer, fully, memoized, hstate]
  | none =>
    -- the least depth at which there is an answer: below it, the key itself is not in the way
    classical
    have hex : ∃ k, ∃ u, tab.AnswerWithin k q.id key u := ⟨n, t, h⟩
    have hk : Nat.find hex ≤ n := Nat.find_min' hex ⟨t, h⟩
    obtain ⟨u, hu⟩ := Nat.find_spec hex
    obtain rfl := hanswer.unique hset ⟨_, hu⟩ hkey
    obtain ⟨q₀, st₀, st₀', hq₀, hid₀, hs₀, hrun₀⟩ := hu
    let st₁ : State := { st with memo := st.memo.modify q.id (·.start key) }
    have hready : st₁.memo.Ready tab (Nat.find hex) st.memo := by
      refine ⟨hsound.start q.id key, ?_, (Memo.SameOpen.refl tab st.memo).insert hkey .inProgress⟩
      refine (hfree.mono (hk.trans (Nat.le_succ n))).start ?_
      intro k hlt u hu
      exact Nat.find_min hex hlt ⟨u, hu⟩
    have hlike : (Likeness.denoted tab .closed).list.rel .none key key := hkey
    have halong := (hsim _ hk st.memo).compute hlike hq₀ hq hid₀ (.of_forward rfl) .none st₀ st₁ (le_refl _)
      ⟨.unpaired hs₀ hs, hready⟩
    rw [Setting.Along.forward rfl] at halong
    obtain ⟨V₁, u, st₂, hrun, hend⟩ := halong t st₀' hrun₀
    cases hend.outcome with
    | ok htu =>
      have htu : t.Alike tab.Forms .none u := htu
      obtain rfl := htu.refl_of_closed
      have hready₂ : st₂.memo.Ready tab (Nat.find hex) st.memo := hend.related.memos
      refine ⟨{ st₂ with memo := st₂.memo.modify q.id (·.resolve key u) }, ?_, hend.later.extends_right,
        hend.related.stores.right, hready₂.sound.resolve fun _ => hanswer, hready₂.sameOpen.insert hkey _⟩
      rw [answer, show (fully kept tab).remember = memoized start from rfl, memoized_none hstate, hrun]
      rfl

/-- What is found without a memo is found with one that is ready for it. -/
theorem plain_simulates_kept (n p : Nat) (hp : n ≤ p) (m₀ : Memo) :
    (Setting.forward tab fun _ m => m.Ready tab p m₀).Simulates (within plainly n tab) (fully kept tab) := by
  have hrule : ∀ env e, (fully kept tab).infer env e = (fully kept tab).rule env e :=
    inferFully_eq continuous_memoized tab
  induction n using Nat.strong_induction_on generalizing p m₀ with
  | h n ih =>
    cases n with
    | zero =>
      refine .of_forward hset rfl rfl rfl rfl (inferBy_findsTypes plainly 0 tab) hrule fun _ _ V₀ st st' _ _ => ?_
      rw [Setting.Along.forward rfl]
      intro a st₁ h
      cases h
    | succ n =>
      refine .of_forward hset rfl rfl rfl rfl (inferBy_findsTypes plainly (n + 1) tab) hrule fun henv e => ?_
      rw [hrule]
      refine (ih n (Nat.lt_succ_self n) p (Nat.le_of_succ_le hp) m₀).rule (.inr rfl) henv ?_ hset e
      rintro lv (hlv | rfl) V key key' hkey q hq hq' V₀ st st' hV hrel
      · cases hlv
      obtain rfl := Key.eq_of_closed hkey
      rw [Setting.Along.forward rfl]
      intro t st₁ hrun
      have hready : st'.memo.Ready tab p m₀ := hrel.memos
      obtain ⟨ht, hext, hwf, _⟩ :=
        SymbolTable.AnswerWithin.run hset hkey hq hq rfl hrel.stores.left hrel.stores.right hrun
      have hanswer : tab.AnswerWithin n q.id key' t := ⟨q, st, st₁, hq, rfl, hrel.stores.left, hrun⟩
      obtain ⟨st₁', hrun', hext', hwf', hsound, hopen⟩ := hanswer.run_kept hset
        (fun k hk m₀ => ih k (Nat.lt_succ_of_le hk) k (Nat.le_refl k) m₀) hkey hq rfl hrel.stores.right hready.sound
        (hready.free.mono hp)
      have hready' : st₁'.memo.Ready tab p m₀ := by
        refine ⟨hsound, hready.free.of_keeps (answer_keeps hrun'), fun id key hopenKey => ?_⟩
        rw [hopen id key hopenKey, hready.sameOpen id key hopenKey]
      refine ⟨V₀, t, st₁', hrun', .ok ht, ⟨?_, hready'⟩, .of_extends V₀ hext hext'⟩
      exact hrel.stores.of_extends hext hext' hwf hwf'

/-- An answer is found with a memo if no key that has an answer is in progress. Variables and open keys are left
alone. -/
theorem SymbolTable.Answer.run_kept {id : SymbolId} {key : Key} {t : Ty} (h : tab.Answer id key t)
    (hkey : key.Closed tab) {q : Demand} (hq : q.Proper tab key) (hid : q.id = id) {st : State}
    (hs : st.store.WellFormed) (hsound : st.memo.Sound tab) (hfree : ∀ p, st.memo.Free tab p) :
    ∃ st', (fully kept tab).answer q key st = some (.ok t, st') ∧ st.store.Extends st'.store ∧ st'.store.WellFormed ∧
      st'.memo.Sound tab ∧ st.memo.SameOpen tab st'.memo := by
  obtain ⟨n, hn⟩ := h
  exact hn.run_kept hset (fun k _ m₀ => plain_simulates_kept hset k k (Nat.le_refl k) m₀) hkey hq hid hs hsound
    (hfree (n + 1))

end

end DualInference
