/-
What the last event on a key decides.

A guard is made when a key is begun, and is used up by resolving the key or by dropping the guard. Guards of one key do
not know of each other, so one may drop what another has resolved. Whatever the interleaving, a cache is what its events
make of an empty one, one after another (`cache_after`), and it never holds two entries for one key (`Cache.Proper`).
Unification in between changes types, but not the keys they stand in: a key is compared as it was built.

Main result: `last_event_decides`. After any requests, each key has the state that the last event on it left, and the
size of the cache is the number of keys that have a state. That is also what a session answers when it is asked for a key
(`run_tells_last_event`).
-/
import DualInference.Session.CacheRun
import Mathlib.Data.Set.Card

namespace DualInference

/-! ## Events -/

/-- what happens to a key -/
inductive KeyEvent where
  | begun
  | resolved (t : Ty)
  | dropped
deriving DecidableEq

/-- the state of the key afterwards -/
def KeyEvent.leaves : KeyEvent → Option Progress
  | .begun => some .inProgress
  | .resolved t => some (.resolved t)
  | .dropped => none

/-- the last of some events that is on the key -/
def lastOn (key : Key) (events : List (Key × KeyEvent)) : Option KeyEvent :=
  events.reverse.lookup key

/-- the state in which some events leave a key that had none -/
def leftBy (key : Key) (events : List (Key × KeyEvent)) : Option Progress :=
  (lastOn key events).bind KeyEvent.leaves

/-- A further event is the last on its own key, and on no other. -/
theorem lastOn_concat (key : Key) (events : List (Key × KeyEvent)) (e : Key × KeyEvent) :
    lastOn key (events ++ [e]) = if key = e.1 then some e.2 else lastOn key events := by
  obtain ⟨key', event⟩ := e
  rw [lastOn, List.reverse_append, List.reverse_singleton, List.singleton_append, List.lookup_cons]
  by_cases h : key = key'
  · rw [if_pos h, beq_iff_eq.2 h]
  · rw [if_neg h, beq_eq_false_iff_ne.2 h, lastOn]

namespace Cache

variable {c : Cache} {key : Key}

/-- the cache after an event on a key -/
def apply (c : Cache) (key : Key) : KeyEvent → Cache
  | .begun => c.start key
  | .resolved t => c.resolve key t
  | .dropped => c.abandon key

theorem state?_apply (c : Cache) (key key' : Key) (event : KeyEvent) :
    (c.apply key event).state? key' = if key' = key then event.leaves else c.state? key' := by
  cases event with
  | begun => exact state?_insert c key key' .inProgress
  | resolved t => exact state?_insert c key key' (.resolved t)
  | dropped => exact state?_erase c key key'

/-- the cache after some events, in order -/
def applyAll (c : Cache) (events : List (Key × KeyEvent)) : Cache :=
  events.foldl (fun c e => c.apply e.1 e.2) c

theorem applyAll_concat (c : Cache) (events : List (Key × KeyEvent)) (e : Key × KeyEvent) :
    c.applyAll (events ++ [e]) = (c.applyAll events).apply e.1 e.2 :=
  List.foldl_concat ..

/-- Of the events on a key the last one counts. -/
theorem state?_applyAll (c : Cache) (events : List (Key × KeyEvent)) (key : Key) :
    (c.applyAll events).state? key = ((lastOn key events).map KeyEvent.leaves).getD (c.state? key) := by
  induction events using List.reverseRecOn with
  | nil => rfl
  | append_singleton events e ih =>
    rw [applyAll_concat, state?_apply, lastOn_concat, ih]
    by_cases h : key = e.1
    · rw [if_pos h, if_pos h]
      rfl
    · rw [if_neg h, if_neg h]

theorem state?_applyAll_empty (events : List (Key × KeyEvent)) (key : Key) :
    (({} : Cache).applyAll events).state? key = leftBy key events := by
  rw [state?_applyAll, leftBy]
  cases lastOn key events <;> rfl

/-! ## No key twice -/

/-- the keys a cache has entries for -/
def keys (c : Cache) : List Key :=
  c.entries.map fun entry => entry.1.2

/-- Entries are found under their keys, and no two of them are for one key. -/
structure Proper (c : Cache) : Prop where
  sized : ∀ entry ∈ c.entries, entry.1 = Key.sized entry.1.2
  nodup : c.keys.Nodup

theorem proper_empty : ({} : Cache).Proper :=
  ⟨fun _ h => absurd h List.not_mem_nil, List.nodup_nil⟩

theorem Proper.erase (h : c.Proper) (key : Key) : (c.erase key).Proper :=
  ⟨fun entry hentry => h.sized entry (List.mem_of_mem_filter hentry),
    h.nodup.sublist (List.filter_sublist.map _)⟩

theorem Proper.insert (h : c.Proper) (key : Key) (p : Progress) : (c.insert key p).Proper := by
  have herase := h.erase key
  refine ⟨?_, List.nodup_cons.2 ⟨?_, herase.nodup⟩⟩
  · rintro entry (_ | ⟨_, hentry⟩)
    · rfl
    · exact herase.sized entry hentry
  · -- what is left after erasing the key has other keys
    intro hmem
    obtain ⟨entry, hentry, hkey⟩ := List.mem_map.1 hmem
    obtain ⟨hold, hne⟩ := List.mem_filter.1 hentry
    have hsame : entry.1 = Key.sized key := (h.sized entry hold).trans (congrArg Key.sized hkey)
    exact of_decide_eq_true hne hsame

theorem Proper.apply (h : c.Proper) (key : Key) (event : KeyEvent) : (c.apply key event).Proper := by
  cases event with
  | begun => exact h.insert key .inProgress
  | resolved t => exact h.insert key (.resolved t)
  | dropped => exact h.erase key

theorem Proper.applyAll (h : c.Proper) (events : List (Key × KeyEvent)) : (c.applyAll events).Proper := by
  induction events using List.reverseRecOn with
  | nil => exact h
  | append_singleton events e ih =>
    rw [applyAll_concat]
    exact ih.apply e.1 e.2

/-- A key has a state if there is an entry for it. -/
theorem Proper.mem_keys (h : c.Proper) : key ∈ c.keys ↔ c.state? key ≠ none := by
  rw [state?, ne_eq, List.lookup_eq_none_iff]
  constructor
  · intro hmem hnone
    obtain ⟨entry, hentry, rfl⟩ := List.mem_map.1 hmem
    exact absurd (h.sized entry hentry).symm (by simpa using hnone entry hentry)
  · intro hsome
    by_contra hmem
    refine hsome fun entry hentry => ?_
    have hne : Key.sized key ≠ entry.1 := by
      rintro heq
      exact hmem (List.mem_map.2 ⟨entry, hentry, (congrArg Prod.snd heq).symm⟩)
    simpa using hne

/-- The size of a cache is the number of keys that have a state. -/
theorem Proper.size_eq (h : c.Proper) : {key | c.state? key ≠ none}.encard = c.size := by
  have hset : {key | c.state? key ≠ none} = (c.keys.toFinset : Set Key) := by
    ext key
    rw [List.coe_toFinset]
    exact h.mem_keys.symm
  rw [hset, Set.encard_coe_eq_coe_finsetCard, List.toFinset_card_of_nodup h.nodup, keys, List.length_map, size]

end Cache

/-! ## Sessions -/

namespace CacheSession

/-- the session after a request; a request without an answer changes nothing -/
def next (s : CacheSession) (r : CacheRequest) : CacheSession :=
  match s.respond r with
  | .ok (_, s') => s'
  | .error _ => s

/-- the session after some requests -/
def after (s : CacheSession) (rs : List CacheRequest) : CacheSession :=
  rs.foldl next s

/-- The requests that follow are answered in the session that the earlier ones lead to. -/
theorem run_append (s : CacheSession) (rs rs' : List CacheRequest) :
    s.run (rs ++ rs') = s.run rs ++ (s.after rs).run rs' := by
  induction rs generalizing s with
  | nil => rfl
  | cons r rs ih =>
    rw [List.cons_append, run, run, after, List.foldl_cons, next]
    cases h : s.respond r with
    | ok p => exact congrArg (List.cons _) (ih p.2)
    | error why => exact congrArg (List.cons _) (ih s)

theorem length_run (s : CacheSession) (rs : List CacheRequest) : (s.run rs).length = rs.length := by
  induction rs generalizing s with
  | nil => rfl
  | cons r rs ih =>
    rw [run]
    cases s.respond r with
    | ok p => exact congrArg (· + 1) (ih p.2)
    | error why => exact congrArg (· + 1) (ih s)

/-- the event that a request brings about, if it is answered: a guard acts on the key it was made for -/
def event? (s : CacheSession) : CacheRequest → Option (Key × KeyEvent)
  | .start _ form => (s.key form).toOption.map (·, .begun)
  | .resolve guard form => do
    let t ← (s.type form).toOption
    let key ← s.guards.lookup guard
    return (key, .resolved t)
  | .abandon guard => (s.guards.lookup guard).map (·, .dropped)
  | .state _ => none
  | .unify _ _ => none

/-- the events that some requests bring about, in order -/
def history (s : CacheSession) : List CacheRequest → List (Key × KeyEvent)
  | [] => []
  | r :: rs => (s.event? r).toList ++ history (s.next r) rs

/-- One request does to the cache what its event does, and names and labels go on to stand for the same. -/
theorem next_eq (s : CacheSession) (r : CacheRequest) :
    (s.next r).cache = s.cache.applyAll (s.event? r).toList ∧ (s.next r).names = s.names ∧
      (s.next r).labels = s.labels := by
  cases r with
  | start guard form =>
    rw [next, respond, event?]
    rcases s.key form with why | key
    · exact ⟨rfl, rfl, rfl⟩
    · exact ⟨rfl, rfl, rfl⟩
  | resolve guard form =>
    rw [next, respond, event?, takeGuard]
    rcases s.type form with why | t
    · exact ⟨rfl, rfl, rfl⟩
    · rcases s.guards.lookup guard with _ | key
      · exact ⟨rfl, rfl, rfl⟩
      · exact ⟨rfl, rfl, rfl⟩
  | abandon guard =>
    rw [next, respond, event?, takeGuard]
    rcases s.guards.lookup guard with _ | key
    · exact ⟨rfl, rfl, rfl⟩
    · exact ⟨rfl, rfl, rfl⟩
  | state form =>
    rw [next, respond, event?]
    rcases s.key form with why | key
    · exact ⟨rfl, rfl, rfl⟩
    · exact ⟨rfl, rfl, rfl⟩
  | unify x y =>
    rw [next, respond, event?]
    rcases s.type x with why | x
    · exact ⟨rfl, rfl, rfl⟩
    · rcases s.type y with why | y
      · exact ⟨rfl, rfl, rfl⟩
      · -- whether they unify or not, the cache stays
        simp only [bind, Except.bind]
        rcases s.store.unify x y with _ | store
        · exact ⟨rfl, rfl, rfl⟩
        · exact ⟨rfl, rfl, rfl⟩

/-- The cache is what the events make of it, and names and labels stand for what they did. -/
theorem after_eq (s : CacheSession) (rs : List CacheRequest) :
    (s.after rs).cache = s.cache.applyAll (s.history rs) ∧ (s.after rs).names = s.names ∧
      (s.after rs).labels = s.labels := by
  induction rs generalizing s with
  | nil => exact ⟨rfl, rfl, rfl⟩
  | cons r rs ih =>
    obtain ⟨hcache, hnames, hlabels⟩ := s.next_eq r
    obtain ⟨hcache', hnames', hlabels'⟩ := ih (s.next r)
    refine ⟨?_, hnames'.trans hnames, hlabels'.trans hlabels⟩
    calc (s.after (r :: rs)).cache = (s.next r).cache.applyAll ((s.next r).history rs) := hcache'
      _ = (s.cache.applyAll (s.event? r).toList).applyAll ((s.next r).history rs) := by rw [hcache]
      _ = s.cache.applyAll (s.history (r :: rs)) := by rw [history, Cache.applyAll, Cache.applyAll, ← List.foldl_append,
            Cache.applyAll]

/-- A key is read as it was before. -/
theorem key_after (s : CacheSession) (rs : List CacheRequest) (form : List DenotationForm) :
    (s.after rs).key form = s.key form := by
  obtain ⟨-, hnames, hlabels⟩ := s.after_eq rs
  unfold key symbol? var?
  rw [hnames, hlabels]

section

variable (names labels : List String) (rs : List CacheRequest)

theorem cache_after : ((make names labels).after rs).cache = ({} : Cache).applyAll ((make names labels).history rs) :=
  ((make names labels).after_eq rs).1

theorem state?_after (key : Key) :
    ((make names labels).after rs).cache.state? key = leftBy key ((make names labels).history rs) := by
  rw [cache_after, Cache.state?_applyAll_empty]

theorem proper_after : ((make names labels).after rs).cache.Proper := by
  rw [cache_after]
  exact Cache.proper_empty.applyAll _

end

/-- A session asked for a key, at any point, answers with the state in which the last event on the key has left it by then,
and with the number of keys that have a state. The type of a resolved key is shown as far as it is known by then. -/
theorem run_tells_last_event (names labels : List String) (rs rs' : List CacheRequest) {form : List DenotationForm}
    {key : Key} (hkey : (make names labels).key form = .ok key) :
    let s := make names labels
    ∃ size : Nat, {key | leftBy key (s.history rs) ≠ none}.encard = size ∧
      (s.run (rs ++ .state form :: rs'))[rs.length]? = some (.ok ⟨.state (match leftBy key (s.history rs) with
        | none => .notStarted
        | some .inProgress => .inProgress
        | some (.resolved t) => .resolved ((s.after rs).store.snapshot (fun e => (names[e]?).getD "") t)), size⟩) := by
  intro s
  refine ⟨(s.after rs).cache.size, ?_, ?_⟩
  · rw [← (proper_after names labels rs).size_eq]
    simp only [state?_after, s]
  · have hanswer : (s.after rs).respond (.state form) = .ok (.state ((s.after rs).keyState key), s.after rs) := by
      rw [respond, key_after, hkey]
      rfl
    have hstate : (s.after rs).cache.state? key = leftBy key (s.history rs) := state?_after names labels rs key
    have hnames : (s.after rs).names = names := (s.after_eq rs).2.1
    rw [run_append, ← length_run s rs, List.getElem?_append_right (Nat.le_refl _), Nat.sub_self, run, hanswer, keyState,
      hstate, hnames]
    rfl

end CacheSession

end DualInference
