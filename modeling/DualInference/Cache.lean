/-
Memoized inferences. A cache records, for each key, that its inference is under way or what type it came to. A key
is the list of what the arguments of a call denote, compared by identity: bindings are not followed.

Beginning a key marks it in progress, resolving it stores a type, abandoning it forgets it; each acts on the key
whatever it held before. So the last event on a key decides its state, and a key is never recorded twice.
-/
import DualInference.Ty.Basic

namespace DualInference

/-- what an expression denotes: a value of a type, or a type -/
inductive Denotation where
  | value (t : Ty)
  | type (t : Ty)
deriving DecidableEq

namespace Denotation

/-- the type of the value, or the type itself -/
def ty : Denotation → Ty
  | .value t => t
  | .type t => t

def isValue : Denotation → Bool
  | .value _ => true
  | .type _ => false

end Denotation

/-- what the arguments of a call denote -/
abbrev Key := List Denotation

/-- a key with its size in front. Keys of different sizes are told apart without a look at the types in them. -/
def Key.sized (key : Key) : Nat × Key :=
  (key.foldl (fun n d => n + d.ty.size) 0, key)

theorem Key.sized_inj (key key' : Key) : Key.sized key = Key.sized key' ↔ key = key' :=
  ⟨fun h => (Prod.mk.inj h).2, fun h => h ▸ rfl⟩

/-- a recorded inference -/
inductive Progress where
  | inProgress
  | resolved (t : Ty)
deriving DecidableEq

/-- Taking a key out of an association list hides that key and no other. -/
theorem lookup_filter_ne {α β : Type} [BEq α] [LawfulBEq α] [DecidableEq α] (k k' : α) (l : List (α × β)) :
    (l.filter fun entry => entry.1 ≠ k).lookup k' = if k' = k then none else l.lookup k' := by
  induction l with
  | nil => simp
  | cons p l ih =>
    obtain ⟨a, b⟩ := p
    rw [List.filter_cons]
    split
    · rename_i ha
      rw [List.lookup_cons, List.lookup_cons, ih]
      by_cases hk : k' = a
      · simp_all
      · rw [beq_eq_false_iff_ne.2 hk]
    · rename_i ha
      rw [List.lookup_cons, ih]
      by_cases hk : k' = k
      · simp [hk]
      · have hka : k' ≠ a := by simp_all
        rw [beq_eq_false_iff_ne.2 hka]

/-- inferences recorded by key, each key at most once -/
structure Cache where
  entries : List ((Nat × Key) × Progress) := []
deriving DecidableEq

namespace Cache

/-- the state of a key; nothing if its inference was never begun or was abandoned -/
def state? (c : Cache) (key : Key) : Option Progress :=
  c.entries.lookup (Key.sized key)

def size (c : Cache) : Nat :=
  c.entries.length

def isEmpty (c : Cache) : Bool :=
  c.entries.isEmpty

def erase (c : Cache) (key : Key) : Cache :=
  let sized := Key.sized key
  ⟨c.entries.filter fun entry => entry.1 ≠ sized⟩

def insert (c : Cache) (key : Key) (p : Progress) : Cache :=
  ⟨(Key.sized key, p) :: (c.erase key).entries⟩

/-- the inference of a key starts -/
def start (c : Cache) (key : Key) : Cache :=
  c.insert key .inProgress

/-- the inference of a key came to a type -/
def resolve (c : Cache) (key : Key) (t : Ty) : Cache :=
  c.insert key (.resolved t)

/-- the inference of a key came to nothing -/
def abandon (c : Cache) (key : Key) : Cache :=
  c.erase key

/-- An abandoned key has no state, and no other key notices. -/
theorem state?_erase (c : Cache) (key key' : Key) :
    (c.erase key).state? key' = if key' = key then none else c.state? key' := by
  simp only [← Key.sized_inj key' key]
  exact lookup_filter_ne (Key.sized key) (Key.sized key') c.entries

/-- A recorded key has the state recorded last, and no other key notices. -/
theorem state?_insert (c : Cache) (key key' : Key) (p : Progress) :
    (c.insert key p).state? key' = if key' = key then some p else c.state? key' := by
  have h := state?_erase c key key'
  simp only [state?, insert, List.lookup_cons] at h ⊢
  by_cases hk : key' = key
  · simp [hk]
  · rw [h, beq_eq_false_iff_ne.2 (mt (Key.sized_inj key' key).1 hk)]
    simp [hk]

end Cache

/-- the caches of all procedures and variable definitions; a definition goes by the symbol of its first name -/
structure Memo where
  caches : List (SymbolId × Cache) := []
deriving DecidableEq

namespace Memo

/-- the cache of a symbol, empty at first -/
def cache (m : Memo) (id : SymbolId) : Cache :=
  (m.caches.lookup id).getD {}

/-- change the cache of a symbol -/
def modify (m : Memo) (id : SymbolId) (f : Cache → Cache) : Memo :=
  ⟨(id, f (m.cache id)) :: m.caches.filter fun entry => entry.1 ≠ id⟩

/-- Only the cache of the given symbol changes. -/
theorem cache_modify (m : Memo) (id id' : SymbolId) (f : Cache → Cache) :
    (m.modify id f).cache id' = if id' = id then f (m.cache id) else m.cache id' := by
  have h := lookup_filter_ne id id' m.caches
  simp only [cache, modify, List.lookup_cons]
  by_cases hk : id' = id
  · simp [hk]
  · rw [h, beq_eq_false_iff_ne.2 hk]
    simp [hk]

/-- the state of a key of a symbol -/
def state? (m : Memo) (id : SymbolId) (key : Key) : Option Progress :=
  (m.cache id).state? key

/-- A key that is recorded anew has the new state, and no other key of any symbol notices. -/
theorem state?_insert (m : Memo) (id id' : SymbolId) (key key' : Key) (p : Progress) :
    (m.modify id (·.insert key p)).state? id' key' = if id' = id ∧ key' = key then some p else m.state? id' key' := by
  rw [state?, cache_modify]
  by_cases hid : id' = id
  · simp [hid, Cache.state?_insert, state?]
  · simp [hid, state?]

/-- An abandoned key has no state, and no other key of any symbol notices. -/
theorem state?_erase (m : Memo) (id id' : SymbolId) (key key' : Key) :
    (m.modify id (·.erase key)).state? id' key' = if id' = id ∧ key' = key then none else m.state? id' key' := by
  rw [state?, cache_modify]
  by_cases hid : id' = id
  · simp [hid, Cache.state?_erase, state?]
  · simp [hid, state?]

end Memo

end DualInference
