/-
Scope chains over whole runs.

A run opens scopes, as roots or inside others, and binds names in them, in any order: a scope may be bound in long after
scopes were opened inside it. What a run has done is read off its steps: the parents of the scopes (`parent?`), and the
bindings that were accepted (`bindings`). A table keeps for each scope the list of all scopes around it, made when the
scope was opened; it stays the chain of parents (`Mirrors`), so one step outwards is one step of a look-up
(`Mirrors.lookup_eq`).

Main result: `scope_chains`. After any run,
- a name stands for what it was first bound to in the nearest scope that binds it, and for nothing if no scope around does;
- a binding is rejected exactly if the scope itself has bound the name before, and then it changes no look-up;
- an accepted binding is felt in its scope and in those inside it that have no nearer binding of the name, and nowhere
  else.
-/
import DualInference.Proofs.Module.Declarations
import Mathlib.Logic.Relation

namespace DualInference

/-! ## Runs -/

/-- a step of a run: open a scope, or bind a name in a scope to a symbol -/
inductive ScopeStep where
  | openRoot
  | openChild (parent : ScopeId)
  | bind (scope : ScopeId) (name : String) (id : SymbolId)
  /-- a rejected binding is an error at the identifier -/
  | bindIdent (scope : ScopeId) (name : Ident) (id : SymbolId)

namespace ScopeStep

/-- the parent of the scope that the step opens, if it opens one -/
def opening? : ScopeStep → Option (Option ScopeId)
  | .openRoot => some none
  | .openChild parent => some (some parent)
  | .bind _ _ _ => none
  | .bindIdent _ _ _ => none

/-- what the step binds, and to what -/
def binding? : ScopeStep → Option ((ScopeId × String) × SymbolId)
  | .openRoot => none
  | .openChild _ => none
  | .bind scope name id => some ((scope, name), id)
  | .bindIdent scope name id => some ((scope, name.name), id)

/-- The step refers to the first `n` scopes only. -/
def Known (n : Nat) : ScopeStep → Prop
  | .openRoot => True
  | .openChild parent => parent < n
  | .bind scope _ _ => scope < n
  | .bindIdent scope _ _ => scope < n

end ScopeStep

namespace SymbolTable

variable {tab tab' : SymbolTable} {steps : List ScopeStep} {step : ScopeStep} {s s' p : ScopeId} {name : String}
  {id : SymbolId}

/-- the table after a step; nothing if the step is a binding that is rejected -/
def take? (tab : SymbolTable) : ScopeStep → Option SymbolTable
  | .openRoot => some (tab.openScope []).2
  | .openChild parent => some (tab.openChild parent).2
  | .bind scope name id => tab.bind scope name id
  | .bindIdent scope name id => (tab.bindIdent scope name id).toOption

/-- the table after a step; a binding that is rejected leaves it -/
def take (tab : SymbolTable) (step : ScopeStep) : SymbolTable :=
  (tab.take? step).getD tab

/-- the table after a run -/
def ofSteps (steps : List ScopeStep) : SymbolTable :=
  steps.foldl take {}

theorem ofSteps_concat (steps : List ScopeStep) (step : ScopeStep) :
    ofSteps (steps ++ [step]) = (ofSteps steps).take step :=
  List.foldl_append ..

/-- the parents of the scopes that a run opens, in order -/
def parents (steps : List ScopeStep) : List (Option ScopeId) :=
  steps.filterMap ScopeStep.opening?

/-- the scope that a scope was opened in -/
def parent? (steps : List ScopeStep) (s : ScopeId) : Option ScopeId :=
  (parents steps)[s]?.join

/-- the binding that a step brings about, if it is accepted -/
def accepted? (tab : SymbolTable) (step : ScopeStep) : Option ((ScopeId × String) × SymbolId) :=
  if (tab.take? step).isSome then step.binding? else none

/-- the accepted bindings of some steps, in order -/
def bindings (tab : SymbolTable) : List ScopeStep → List ((ScopeId × String) × SymbolId)
  | [] => []
  | step :: steps => (tab.accepted? step).toList ++ bindings (tab.take step) steps

/-- what the first accepted binding of a name in a scope bound it to -/
def first? (steps : List ScopeStep) (s : ScopeId) (name : String) : Option SymbolId :=
  (bindings {} steps).lookup (s, name)

/-- Each step refers to scopes that are open by then. -/
inductive Possible : List ScopeStep → Prop
  | nil : Possible []
  | concat {steps : List ScopeStep} {step : ScopeStep} (h : Possible steps) (hstep : step.Known (parents steps).length) :
    Possible (steps ++ [step])

/-- The second scope is the first one or around it. -/
def Encloses (steps : List ScopeStep) : ScopeId → ScopeId → Prop :=
  Relation.ReflTransGen fun s p => parent? steps s = some p

/-- The second scope is the first one or around it, and none on the way there binds the name. -/
def Sees (steps : List ScopeStep) (name : String) : ScopeId → ScopeId → Prop :=
  Relation.ReflTransGen fun s p => first? steps s name = none ∧ parent? steps s = some p

/-! ## What a run has done -/

theorem parents_concat (steps : List ScopeStep) (step : ScopeStep) :
    parents (steps ++ [step]) = parents steps ++ step.opening?.toList := by
  rw [parents, List.filterMap_append, parents]
  cases step <;> rfl

theorem parent?_lt (h : parent? steps s = some p) : s < (parents steps).length := by
  refine Nat.lt_of_not_le fun hle => ?_
  rw [parent?, List.getElem?_eq_none hle] at h
  cases h

/-- A step that opens a scope says where; the scopes before stay where they are. -/
theorem parent?_concat_of_opening {parent : Option ScopeId} (h : step.opening? = some parent) (s : ScopeId) :
    parent? (steps ++ [step]) s = if s = (parents steps).length then parent else parent? steps s := by
  rw [parent?, parents_concat, h, Option.toList_some, List.getElem?_append]
  by_cases heq : s = (parents steps).length
  · subst heq
    simp
  · rw [if_neg heq]
    by_cases hlt : s < (parents steps).length
    · rw [if_pos hlt, parent?]
    · have hle : (parents steps).length ≤ s := Nat.le_of_not_lt hlt
      have hpast : 0 < s - (parents steps).length := Nat.sub_pos_of_lt (Nat.lt_of_le_of_ne hle (Ne.symm heq))
      rw [if_neg hlt, List.getElem?_eq_none hpast, parent?, List.getElem?_eq_none hle]

theorem parent?_concat_of_binding (h : step.opening? = none) (s : ScopeId) :
    parent? (steps ++ [step]) s = parent? steps s := by
  rw [parent?, parents_concat, h, Option.toList_none, List.append_nil, parent?]

theorem bindings_concat (tab : SymbolTable) (steps : List ScopeStep) (step : ScopeStep) :
    tab.bindings (steps ++ [step]) = tab.bindings steps ++ ((steps.foldl take tab).accepted? step).toList := by
  induction steps generalizing tab with
  | nil => exact List.append_nil _
  | cons step' steps ih => rw [List.cons_append, bindings, bindings, ih, List.append_assoc, List.foldl_cons]

/-- A further step may be the first to bind a name. -/
theorem first?_concat (steps : List ScopeStep) (step : ScopeStep) (s : ScopeId) (name : String) :
    first? (steps ++ [step]) s name =
      (first? steps s name).or (((ofSteps steps).accepted? step).toList.lookup (s, name)) := by
  rw [first?, bindings_concat, List.lookup_append]
  rfl

theorem first?_concat_of_none (h : (ofSteps steps).accepted? step = none) (s : ScopeId) (name : String) :
    first? (steps ++ [step]) s name = first? steps s name := by
  rw [first?_concat, h]
  exact Option.or_none

/-! ## The table mirrors the run -/

/-- The table has the scopes that the run opened, each inside those that its parents lead to, with the names that the
run bound. -/
structure Mirrors (steps : List ScopeStep) (tab : SymbolTable) : Prop where
  size : tab.scopes.size = (parents steps).length
  own : ∀ s name, tab.own? s name = first? steps s name
  chain : ∀ s, tab.ancestors s = ((parent? steps s).map fun p => p :: tab.ancestors p).getD []
  older : ∀ {s p}, parent? steps s = some p → p < s

theorem mirrors_nil : Mirrors [] {} where
  size := rfl
  own _ _ := rfl
  chain _ := rfl
  older h := by cases h

/-- One step outwards is one step of a look-up. -/
theorem Mirrors.lookup_eq (h : Mirrors steps tab) (s : ScopeId) (name : String) :
    tab.lookup s name = (first? steps s name).or ((parent? steps s).bind fun p => tab.lookup p name) := by
  rw [lookup, List.findSome?_cons, h.own, h.chain]
  rcases first? steps s name with _ | id
  · rcases parent? steps s with _ | p
    · rfl
    · rfl
  · rfl

theorem ancestors_openScope_eq (tab : SymbolTable) (outer : List ScopeId) (s : ScopeId) :
    (tab.openScope outer).2.ancestors s = if s = tab.scopes.size then outer else tab.ancestors s := by
  rw [ancestors, openScope, Array.getElem?_push]
  by_cases h : s = tab.scopes.size
  · rw [if_pos h, if_pos h]
    rfl
  · rw [if_neg h, if_neg h, ancestors]

/-- A step that opens a scope, with the scopes around its parent around it. -/
theorem Mirrors.opened (h : Mirrors steps tab) (parent : Option ScopeId) (hopening : step.opening? = some parent)
    (haccepted : (ofSteps steps).accepted? step = none) (hparent : ∀ p, parent = some p → p < tab.scopes.size) :
    Mirrors (steps ++ [step]) (tab.openScope ((parent.map fun p => p :: tab.ancestors p).getD [])).2 where
  size := by
    rw [parents_concat, hopening, Option.toList_some, List.length_append, ← h.size]
    exact Array.size_push _
  own s name := by
    rw [own?_openScope, h.own, first?_concat_of_none haccepted]
  chain s := by
    rw [ancestors_openScope_eq, parent?_concat_of_opening hopening, ← h.size]
    -- no parent is the new scope, so the scopes around parents are what they were
    have hsame : ∀ q : Option ScopeId, (∀ p, q = some p → p < tab.scopes.size) → ∀ outer,
        (q.map fun p => p :: tab.ancestors p).getD [] =
          (q.map fun p => p :: (tab.openScope outer).2.ancestors p).getD [] := by
      intro q hq outer
      rcases q with _ | p
      · rfl
      · have hne : p ≠ tab.scopes.size := Nat.ne_of_lt (hq p rfl)
        simp only [Option.map_some, ancestors_openScope_eq, if_neg hne]
    by_cases heq : s = tab.scopes.size
    · rw [if_pos heq, if_pos heq]
      exact hsame parent hparent _
    · rw [if_neg heq, if_neg heq, h.chain]
      refine hsame _ (fun p hp => ?_) _
      exact Nat.lt_trans (h.older hp) (h.size ▸ parent?_lt hp)
  older {s p} hp := by
    rw [parent?_concat_of_opening hopening, ← h.size] at hp
    split at hp
    · rename_i heq
      exact heq ▸ hparent p hp
    · exact h.older hp

/-- A scope binds the one new name, and all scopes bind what they did. -/
theorem own?_after_bind (hbind : tab.bind s name id = some tab') (hs : s < tab.scopes.size) (s' : ScopeId)
    (name' : String) : tab'.own? s' name' = if (s', name') = (s, name) then some id else tab.own? s' name' := by
  by_cases hs' : s' = s
  · subst hs'
    rw [own?_bind hbind hs]
    simp only [Prod.mk.injEq, true_and]
  · rw [(bind_frame hbind).2.2.2 s' hs', if_neg fun heq => hs' (Prod.mk.inj heq).1]

/-- A step that binds a name that its scope has not bound yet. -/
theorem Mirrors.bound (h : Mirrors steps tab) (hopening : step.opening? = none)
    (haccepted : (ofSteps steps).accepted? step = some ((s, name), id)) (hs : s < tab.scopes.size)
    (hbind : tab.bind s name id = some tab') : Mirrors (steps ++ [step]) tab' := by
  obtain ⟨-, hsize, hancestors, -⟩ := bind_frame hbind
  constructor
  · rw [hsize, h.size, parents_concat, hopening, Option.toList_none, List.append_nil]
  · intro s' name'
    rw [first?_concat, haccepted, Option.toList_some, List.lookup_cons, ← h.own, own?_after_bind hbind hs]
    by_cases hsame : (s', name') = (s, name)
    · cases hsame
      rw [if_pos rfl, own?_of_bind hbind, beq_self_eq_true]
      rfl
    · rw [if_neg hsame, beq_eq_false_iff_ne.2 hsame]
      exact Option.or_none.symm
  · intro s'
    rw [parent?_concat_of_binding hopening, hancestors, h.chain]
    simp only [hancestors]
  · intro s' p hp
    exact h.older (parent?_concat_of_binding hopening s' ▸ hp)

theorem Mirrors.rejected (h : Mirrors steps tab) (hopening : step.opening? = none)
    (haccepted : (ofSteps steps).accepted? step = none) : Mirrors (steps ++ [step]) tab where
  size := by rw [h.size, parents_concat, hopening, Option.toList_none, List.append_nil]
  own s name := by rw [h.own, first?_concat_of_none haccepted]
  chain s := by rw [parent?_concat_of_binding hopening, h.chain]
  older hp := h.older (parent?_concat_of_binding hopening _ ▸ hp)

/-- What a step that binds does is to bind. -/
theorem take?_of_binding (h : step.binding? = some ((s, name), id)) : tab.take? step = tab.bind s name id := by
  cases step with
  | openRoot => cases h
  | openChild parent => cases h
  | bind s' name' id' =>
    cases h
    rfl
  | bindIdent s' ident id' =>
    cases h
    rw [take?, bindIdent]
    cases tab.bind s ident.name id <;> rfl

theorem Mirrors.take (h : Mirrors steps (ofSteps steps)) (hstep : step.Known (parents steps).length) :
    Mirrors (steps ++ [step]) ((ofSteps steps).take step) := by
  have hbinds : ∀ {s name id}, step.binding? = some ((s, name), id) → step.opening? = none →
      s < (ofSteps steps).scopes.size → Mirrors (steps ++ [step]) ((ofSteps steps).take step) := by
    intro s name id hbinding hopening hs
    rw [SymbolTable.take, take?_of_binding hbinding]
    rcases hbind : (ofSteps steps).bind s name id with _ | tab'
    · refine h.rejected hopening ?_
      rw [accepted?, take?_of_binding hbinding, hbind]
      rfl
    · refine h.bound hopening ?_ hs hbind
      rw [accepted?, take?_of_binding hbinding, hbind]
      exact hbinding
  cases step with
  | openRoot => exact h.opened none rfl rfl nofun
  | openChild parent =>
    refine h.opened (some parent) rfl rfl fun p hp => ?_
    cases hp
    exact h.size ▸ hstep
  | bind s name id => exact hbinds rfl rfl (h.size ▸ hstep)
  | bindIdent s name id => exact hbinds rfl rfl (h.size ▸ hstep)

/-- The table after a run mirrors it. -/
theorem mirrors_ofSteps (h : Possible steps) : Mirrors steps (ofSteps steps) := by
  induction h with
  | nil => exact mirrors_nil
  | concat h hstep ih =>
    rw [ofSteps_concat]
    exact ih.take hstep

/-! ## Look-ups -/

theorem sees_iff : Sees steps name s s' ↔
    s = s' ∨ first? steps s name = none ∧ ∃ p, parent? steps s = some p ∧ Sees steps name p s' := by
  rw [Sees, Relation.ReflTransGen.cases_head_iff]
  constructor
  · rintro (heq | ⟨p, ⟨hnone, hp⟩, hsees⟩)
    · exact .inl heq
    · exact .inr ⟨hnone, p, hp, hsees⟩
  · rintro (heq | ⟨hnone, p, hp, hsees⟩)
    · exact .inl heq
    · exact .inr ⟨p, ⟨hnone, hp⟩, hsees⟩

/-- A name stands for what the nearest scope that binds it first bound it to. -/
theorem Mirrors.lookup_eq_some (h : Mirrors steps tab) (s : ScopeId) :
    tab.lookup s name = some id ↔ ∃ a, Sees steps name s a ∧ first? steps a name = some id := by
  induction s using Nat.strongRecOn with
  | _ s ih =>
    rw [h.lookup_eq]
    rcases hfirst : first? steps s name with _ | id'
    · rw [Option.none_or]
      rcases hp : parent? steps s with _ | p
      · refine ⟨nofun, ?_⟩
        rintro ⟨a, hsees, ha⟩
        rcases sees_iff.1 hsees with rfl | ⟨-, p, hp', -⟩
        · cases hfirst.symm.trans ha
        · cases hp.symm.trans hp'
      · rw [Option.bind_some, ih p (h.older hp)]
        constructor
        · rintro ⟨a, hsees, ha⟩
          exact ⟨a, sees_iff.2 (.inr ⟨hfirst, p, hp, hsees⟩), ha⟩
        · rintro ⟨a, hsees, ha⟩
          rcases sees_iff.1 hsees with rfl | ⟨-, p', hp', hsees⟩
          · cases hfirst.symm.trans ha
          · cases hp.symm.trans hp'
            exact ⟨a, hsees, ha⟩
    · rw [Option.some_or, Option.some_inj]
      constructor
      · rintro rfl
        exact ⟨s, .refl, hfirst⟩
      · rintro ⟨a, hsees, ha⟩
        rcases sees_iff.1 hsees with rfl | ⟨hnone, -⟩
        · exact Option.some_inj.1 (hfirst.symm.trans ha)
        · cases hfirst.symm.trans hnone

/-- A name stands for nothing if no scope around binds it. -/
theorem Mirrors.lookup_eq_none (h : Mirrors steps tab) (s : ScopeId) :
    tab.lookup s name = none ↔ ∀ a, Encloses steps s a → first? steps a name = none := by
  induction s using Nat.strongRecOn with
  | _ s ih =>
    rw [h.lookup_eq, Option.or_eq_none_iff]
    constructor
    · rintro ⟨hfirst, houter⟩ a henclose
      rcases henclose.cases_head with rfl | ⟨p, hp, henclose⟩
      · exact hfirst
      · rw [hp, Option.bind_some] at houter
        exact (ih p (h.older hp)).1 houter a henclose
    · intro hall
      refine ⟨hall s .refl, ?_⟩
      rcases hp : parent? steps s with _ | p
      · rfl
      · exact (ih p (h.older hp)).2 fun a henclose => hall a (.head hp henclose)

open Classical in
/-- A new binding is felt in its scope and where nothing nearer hides it. -/
theorem Mirrors.lookup_bound (h : Mirrors steps tab) (hs : s < tab.scopes.size) (hbind : tab.bind s name id = some tab')
    (s' : ScopeId) (name' : String) :
    tab'.lookup s' name' = if name' = name ∧ Sees steps name s' s then some id else tab.lookup s' name' := by
  -- the scopes around are the same ones, so the new table is looked up along the same chain
  have hstep : ∀ s', tab'.lookup s' name' =
      (tab'.own? s' name').or ((parent? steps s').bind fun p => tab'.lookup p name') := by
    intro s'
    have hancestors := (bind_frame hbind).2.2.1
    rw [SymbolTable.lookup, List.findSome?_cons, hancestors, h.chain]
    rcases tab'.own? s' name' with _ | id
    · rcases parent? steps s' with _ | p
      · rfl
      · rw [Option.map_some, Option.getD_some, ← hancestors p]
        rfl
    · rfl
  induction s' using Nat.strongRecOn with
  | _ s' ih =>
    rw [hstep, own?_after_bind hbind hs]
    by_cases hsame : (s', name') = (s, name)
    · cases hsame
      rw [if_pos rfl, if_pos ⟨rfl, .refl⟩, Option.some_or]
    · have hsees : name' = name ∧ Sees steps name s' s ↔
          first? steps s' name' = none ∧ ∃ p, parent? steps s' = some p ∧ name' = name ∧ Sees steps name p s := by
        constructor
        · rintro ⟨rfl, hsees⟩
          rcases sees_iff.1 hsees with rfl | ⟨hnone, p, hp, hsees⟩
          · exact absurd rfl hsame
          · exact ⟨hnone, p, hp, rfl, hsees⟩
        · rintro ⟨hnone, p, hp, rfl, hsees⟩
          exact ⟨rfl, sees_iff.2 (.inr ⟨hnone, p, hp, hsees⟩)⟩
      rw [if_neg hsame, h.lookup_eq, h.own]
      rcases hfirst : first? steps s' name' with _ | id'
      · rcases hp : parent? steps s' with _ | p
        · rw [if_neg fun hcond => ?_]
          · rfl
          · obtain ⟨-, p, hp', -⟩ := hsees.1 hcond
            cases hp.symm.trans hp'
        · simp only [hsees, hfirst, hp, Option.none_or, Option.bind_some, true_and, Option.some.injEq,
            exists_eq_left', ih p (h.older hp)]
      · rw [if_neg fun hcond => ?_]
        · rfl
        · cases hfirst.symm.trans (hsees.1 hcond).1

/-! ## Rejected bindings -/

theorem bind_eq_none : tab.bind s name id = none ↔ ∃ id', tab.own? s name = some id' := by
  constructor
  · intro hnone
    rcases hown : tab.own? s name with _ | id'
    · obtain ⟨tab', hbind⟩ := exists_bind id hown
      cases hnone.symm.trans hbind
    · exact ⟨id', rfl⟩
  · rintro ⟨id', hown⟩
    rw [bind, hown]

theorem bindIdent_eq_error {ident : Ident} {e : Error} : tab.bindIdent s ident id = .error e ↔
    e = ⟨.nameRedefinition ident.name, ident.span⟩ ∧ tab.bind s ident.name id = none := by
  rw [bindIdent]
  rcases tab.bind s ident.name id with _ | tab'
  · simp [eq_comm]
  · simp

open Classical in
/-- **Scope chains.** After any run: a name stands for what the nearest scope that binds it first bound it to, and for
nothing if no scope around binds it; a binding is rejected exactly if its scope has bound the name before, and then no
look-up changes; an accepted binding changes the look-ups from where nothing nearer hides it, and no others. -/
theorem scope_chains (h : Possible steps) :
    (∀ s name id, (ofSteps steps).lookup s name = some id ↔
      ∃ a, Sees steps name s a ∧ first? steps a name = some id) ∧
    (∀ s name, (ofSteps steps).lookup s name = none ↔ ∀ a, Encloses steps s a → first? steps a name = none) ∧
    (∀ s ident id e, (ofSteps steps).bindIdent s ident id = .error e ↔
      e = ⟨.nameRedefinition ident.name, ident.span⟩ ∧ ∃ id', first? steps s ident.name = some id') ∧
    ∀ step s name id, step.binding? = some ((s, name), id) → s < (parents steps).length →
      ((ofSteps steps).take? step = none ↔ ∃ id', first? steps s name = some id') ∧
      ((ofSteps steps).take? step = none →
        ∀ s' name', (ofSteps (steps ++ [step])).lookup s' name' = (ofSteps steps).lookup s' name') ∧
      ((ofSteps steps).take? step ≠ none → ∀ s' name', (ofSteps (steps ++ [step])).lookup s' name' =
        if name' = name ∧ Sees steps name s' s then some id else (ofSteps steps).lookup s' name') := by
  have hm := mirrors_ofSteps h
  refine ⟨fun s name id => hm.lookup_eq_some s, fun s name => hm.lookup_eq_none s, fun s ident id e => ?_, ?_⟩
  · rw [bindIdent_eq_error, bind_eq_none, hm.own]
  · intro step s name id hbinding hs
    rw [ofSteps_concat, take, take?_of_binding hbinding]
    refine ⟨?_, ?_, ?_⟩
    · rw [bind_eq_none, hm.own]
    · intro hnone s' name'
      rw [hnone]
      rfl
    · intro hsome s' name'
      obtain ⟨tab', hbind⟩ := Option.ne_none_iff_exists'.1 hsome
      rw [hbind]
      exact hm.lookup_bound (hm.size ▸ hs) hbind s' name'

/-- three scopes inside each other, the outermost and the innermost of which bind `x` -/
def nested : List ScopeStep :=
  [.openRoot, .openChild 0, .openChild 1, .bind 0 "x" 7, .bind 2 "x" 8]

theorem possible_nested : Possible nested := by
  have outer : Possible [.openRoot] := Possible.nil.concat trivial
  have middle : Possible [.openRoot, .openChild 0] := outer.concat (show 0 < 1 by decide)
  have inner : Possible [.openRoot, .openChild 0, .openChild 1] := middle.concat (show 1 < 2 by decide)
  have bound : Possible [.openRoot, .openChild 0, .openChild 1, .bind 0 "x" 7] := inner.concat (show 0 < 3 by decide)
  exact bound.concat (show 2 < 3 by decide)

/-- A late binding between the two is felt in its own scope, where `x` was the outer one. -/
theorem late_binding : Possible nested ∧ (ofSteps nested).lookup 1 "x" = some 7 ∧
    (ofSteps (nested ++ [.bind 1 "x" 9])).lookup 1 "x" = some 9 ∧
    (ofSteps (nested ++ [.bind 1 "x" 9])).lookup 2 "x" = some 8 := by
  obtain ⟨hlookup, -, -, hbinding⟩ := scope_chains possible_nested
  obtain ⟨hrejected, -, haccepted⟩ := hbinding (.bind 1 "x" 9) 1 "x" 9 rfl (by decide)
  have hnew : (ofSteps nested).take? (.bind 1 "x" 9) ≠ none := by
    intro hnone
    obtain ⟨id', hfirst⟩ := hrejected.1 hnone
    cases (by decide : first? nested 1 "x" = none).symm.trans hfirst
  have hinner : ¬Sees nested "x" 2 1 := by
    rw [sees_iff]
    rintro (heq | ⟨hnone, -⟩)
    · exact absurd heq (by decide)
    · exact absurd hnone (by decide)
  refine ⟨possible_nested, ?_, ?_, ?_⟩
  · exact (hlookup 1 "x" 7).2 ⟨0, .head (by decide) .refl, by decide⟩
  · rw [haccepted hnew 1 "x", if_pos ⟨rfl, .refl⟩]
  · rw [haccepted hnew 2 "x", if_neg fun h => hinner h.2]
    exact (hlookup 2 "x" 8).2 ⟨2, .refl, by decide⟩

end SymbolTable

end DualInference
