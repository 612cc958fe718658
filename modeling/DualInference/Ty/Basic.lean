/-
Types. A type is a scalar, a wrapper around one type (array, fixed-size array, reference), a compound of several
types (an aggregate applied to parameters, a tuple) or a type variable.

Aggregates are named by the symbol that declares them and variables by their number, so structural equality is
equality of identity: two aggregates of one name in different scopes are different types, and a variable equals only
itself. What a variable is bound to is no part of the type; see `Ty.Store`.
-/
import DualInference.Program

namespace DualInference

/-- number of a type variable -/
abbrev VarId := Nat

/-- number of a declared symbol -/
abbrev SymbolId := Nat

inductive Scalar where
  | bool
  | char
  | int
  | void
deriving DecidableEq

/-- constructors of types around one type -/
inductive Wrapper where
  | array
  | arrayValue (size : Nat)
  | ref
deriving DecidableEq

/-- constructors of types over a list of types -/
inductive Former where
  | aggregate (kind : AggregateKind) (symbol : SymbolId)
  | tuple
deriving DecidableEq

inductive Ty where
  | scalar (s : Scalar)
  | wrap (w : Wrapper) (t : Ty)
  | compound (f : Former) (ts : List Ty)
  | var (v : VarId)
deriving Inhabited

namespace Ty

@[match_pattern] abbrev bool : Ty := .scalar .bool
@[match_pattern] abbrev char : Ty := .scalar .char
@[match_pattern] abbrev int : Ty := .scalar .int
@[match_pattern] abbrev void : Ty := .scalar .void
@[match_pattern] abbrev array (t : Ty) : Ty := .wrap .array t
@[match_pattern] abbrev arrayValue (t : Ty) (size : Nat) : Ty := .wrap (.arrayValue size) t
@[match_pattern] abbrev ref (t : Ty) : Ty := .wrap .ref t
@[match_pattern] abbrev aggregate (k : AggregateKind) (id : SymbolId) (ts : List Ty) : Ty :=
  .compound (.aggregate k id) ts
@[match_pattern] abbrev tuple (ts : List Ty) : Ty := .compound .tuple ts

/-! ## Equality of identity -/

mutual

def decEq : (a b : Ty) → Decidable (a = b)
  | .scalar s, .scalar s' =>
    if h : s = s' then isTrue (h ▸ rfl) else isFalse fun e => h (Ty.scalar.inj e)
  | .wrap w t, .wrap w' t' =>
    if h : w = w' then
      match decEq t t' with
      | isTrue ht => isTrue (h ▸ ht ▸ rfl)
      | isFalse ht => isFalse fun e => ht (Ty.wrap.inj e).2
    else isFalse fun e => h (Ty.wrap.inj e).1
  | .compound f ts, .compound f' ts' =>
    if h : f = f' then
      match decEqList ts ts' with
      | isTrue ht => isTrue (h ▸ ht ▸ rfl)
      | isFalse ht => isFalse fun e => ht (Ty.compound.inj e).2
    else isFalse fun e => h (Ty.compound.inj e).1
  | .var v, .var v' =>
    if h : v = v' then isTrue (h ▸ rfl) else isFalse fun e => h (Ty.var.inj e)
  | .scalar _, .wrap _ _ => isFalse nofun
  | .scalar _, .compound _ _ => isFalse nofun
  | .scalar _, .var _ => isFalse nofun
  | .wrap _ _, .scalar _ => isFalse nofun
  | .wrap _ _, .compound _ _ => isFalse nofun
  | .wrap _ _, .var _ => isFalse nofun
  | .compound _ _, .scalar _ => isFalse nofun
  | .compound _ _, .wrap _ _ => isFalse nofun
  | .compound _ _, .var _ => isFalse nofun
  | .var _, .scalar _ => isFalse nofun
  | .var _, .wrap _ _ => isFalse nofun
  | .var _, .compound _ _ => isFalse nofun

def decEqList : (as bs : List Ty) → Decidable (as = bs)
  | [], [] => isTrue rfl
  | [], _ :: _ => isFalse nofun
  | _ :: _, [] => isFalse nofun
  | a :: as, b :: bs =>
    match decEq a b with
    | isTrue h =>
      match decEqList as bs with
      | isTrue hs => isTrue (h ▸ hs ▸ rfl)
      | isFalse hs => isFalse fun e => hs (List.cons.inj e).2
    | isFalse h => isFalse fun e => h (List.cons.inj e).1

end

instance : DecidableEq Ty := decEq

/-! ## Variables -/

mutual

/-- the variables of a type, from left to right, with repetitions -/
def vars : Ty → List VarId
  | .scalar _ => []
  | .wrap _ t => vars t
  | .compound _ ts => varsList ts
  | .var v => [v]

def varsList : List Ty → List VarId
  | [] => []
  | t :: ts => vars t ++ varsList ts

end

theorem varsList_eq_flatMap (ts : List Ty) : varsList ts = ts.flatMap vars := by
  induction ts with
  | nil => rfl
  | cons t ts ih => simp [varsList, ih]

/-! ## Walks

A walk goes through a type from left to right and asks a function about each variable it meets. `anyVar` and `subst?`
end at the first variable that decides the outcome; `atRoot` looks no further than the root.
-/

/-- put a type for a variable, if the type is one -/
def atRoot (f : VarId → Ty) : Ty → Ty
  | .var v => f v
  | t => t

mutual

/-- does any variable of the type pass the test -/
def anyVar (p : VarId → Bool) : Ty → Bool
  | .scalar _ => false
  | .wrap _ t => anyVar p t
  | .compound _ ts => anyVarList p ts
  | .var v => p v

def anyVarList (p : VarId → Bool) : List Ty → Bool
  | [] => false
  | t :: ts => anyVar p t || anyVarList p ts

end

mutual

/-- put a type for each variable -/
def subst (f : VarId → Ty) : Ty → Ty
  | .scalar s => .scalar s
  | .wrap w t => .wrap w (subst f t)
  | .compound p ts => .compound p (substList f ts)
  | .var v => f v

def substList (f : VarId → Ty) : List Ty → List Ty
  | [] => []
  | t :: ts => subst f t :: substList f ts

end

mutual

/-- put a type for each variable, if there is one for each -/
def subst? (f : VarId → Option Ty) : Ty → Option Ty
  | .scalar s => some (.scalar s)
  | .wrap w t => (subst? f t).map (.wrap w)
  | .compound p ts => (substList? f ts).map (.compound p)
  | .var v => f v

def substList? (f : VarId → Option Ty) : List Ty → Option (List Ty)
  | [] => some []
  | t :: ts =>
    match subst? f t with
    | some u => (substList? f ts).map (u :: ·)
    | none => none

end

theorem substList_eq_map (f : VarId → Ty) (ts : List Ty) : substList f ts = ts.map (subst f) := by
  induction ts with
  | nil => rfl
  | cons t ts ih => simp [substList, ih]

mutual

theorem anyVar_eq_any (p : VarId → Bool) : ∀ t : Ty, anyVar p t = t.vars.any p
  | .scalar _ => rfl
  | .wrap _ t => by rw [anyVar, vars, anyVar_eq_any p t]
  | .compound _ ts => by rw [anyVar, vars, anyVarList_eq_any_vars p ts]
  | .var v => by simp [anyVar, vars]

theorem anyVarList_eq_any_vars (p : VarId → Bool) : ∀ ts : List Ty, anyVarList p ts = (varsList ts).any p
  | [] => rfl
  | t :: ts => by rw [anyVarList, varsList, List.any_append, anyVar_eq_any p t, anyVarList_eq_any_vars p ts]

end

mutual

/-- A substitution is felt through the variables of the type only. -/
theorem subst_congr {f g : VarId → Ty} : ∀ {t : Ty}, (∀ v ∈ t.vars, f v = g v) → subst f t = subst g t
  | .scalar _, _ => rfl
  | .wrap _ t, h => by rw [subst, subst, subst_congr (t := t) h]
  | .compound _ ts, h => by rw [subst, subst, substList_congr (l := ts) h]
  | .var v, h => h v (by simp [vars])

theorem substList_congr {f g : VarId → Ty} :
    ∀ {l : List Ty}, (∀ v ∈ varsList l, f v = g v) → substList f l = substList g l
  | [], _ => rfl
  | t :: ts, h => by
    rw [substList, substList, subst_congr fun v hv => h v (by simp [varsList, hv]),
      substList_congr fun v hv => h v (by simp [varsList, hv])]

end

mutual

/-- To put each variable for itself changes nothing. -/
theorem subst_var : ∀ t : Ty, subst Ty.var t = t
  | .scalar _ => rfl
  | .wrap _ t => by rw [subst, subst_var t]
  | .compound _ ts => by rw [subst, substList_var ts]
  | .var _ => rfl

theorem substList_var : ∀ ts : List Ty, substList Ty.var ts = ts
  | [] => rfl
  | t :: ts => by rw [substList, subst_var t, substList_var ts]

end

mutual

/-- The variables of a substituted type are those of the types put in. -/
theorem vars_subst (f : VarId → Ty) : ∀ t : Ty, (subst f t).vars = t.vars.flatMap fun v => (f v).vars
  | .scalar _ => rfl
  | .wrap _ t => by rw [subst, vars, vars, vars_subst f t]
  | .compound _ ts => by rw [subst, vars, vars, varsList_subst f ts]
  | .var v => by simp [subst, vars]

theorem varsList_subst (f : VarId → Ty) :
    ∀ ts : List Ty, varsList (substList f ts) = (varsList ts).flatMap fun v => (f v).vars
  | [] => rfl
  | t :: ts => by rw [substList, varsList, varsList, List.flatMap_append, vars_subst f t, varsList_subst f ts]

end

mutual

/-- Where there is a type for each variable, the two substitutions agree. -/
theorem subst?_eq_some {f : VarId → Option Ty} {g : VarId → Ty} :
    ∀ {t : Ty}, (∀ v ∈ t.vars, f v = some (g v)) → subst? f t = some (subst g t)
  | .scalar _, _ => rfl
  | .wrap _ t, h => by rw [subst?, subst, subst?_eq_some (t := t) h]; rfl
  | .compound _ ts, h => by rw [subst?, subst, substList?_eq_some (l := ts) h]; rfl
  | .var v, h => h v (by simp [vars])

theorem substList?_eq_some {f : VarId → Option Ty} {g : VarId → Ty} :
    ∀ {l : List Ty}, (∀ v ∈ varsList l, f v = some (g v)) → substList? f l = some (substList g l)
  | [], _ => rfl
  | t :: ts, h => by
    rw [substList?, substList, subst?_eq_some fun v hv => h v (by simp [varsList, hv]),
      substList?_eq_some fun v hv => h v (by simp [varsList, hv])]
    rfl

end

mutual

/-- One variable without a type is enough to have no result. -/
theorem subst?_eq_none {f : VarId → Option Ty} {v : VarId} (hf : f v = none) :
    ∀ {t : Ty}, v ∈ t.vars → subst? f t = none
  | .scalar _, h => by simp [vars] at h
  | .wrap _ t, h => by rw [subst?, subst?_eq_none hf (t := t) h]; rfl
  | .compound _ ts, h => by rw [subst?, substList?_eq_none hf (l := ts) h]; rfl
  | .var w, h => by
    simp only [vars, List.mem_singleton] at h
    rw [subst?, ← h, hf]

theorem substList?_eq_none {f : VarId → Option Ty} {v : VarId} (hf : f v = none) :
    ∀ {l : List Ty}, v ∈ varsList l → substList? f l = none
  | [], h => by simp [varsList] at h
  | t :: ts, h => by
    rw [substList?]
    rcases List.mem_append.1 h with h | h
    · rw [subst?_eq_none hf h]
    · rw [substList?_eq_none hf h]
      cases subst? f t <;> rfl

end

/-- A result of the substitution tells what was put for each variable. -/
theorem eq_subst_of_subst? {f : VarId → Option Ty} {t u : Ty} (h : subst? f t = some u) :
    (∀ v ∈ t.vars, (f v).isSome) ∧ u = subst (fun v => (f v).getD (.var v)) t := by
  have hall : ∀ v ∈ t.vars, f v = some ((f v).getD (.var v)) := by
    intro v hv
    cases hf : f v with
    | some x => rfl
    | none => rw [subst?_eq_none hf hv] at h; cases h
  refine ⟨fun v hv => by rw [hall v hv]; rfl, ?_⟩
  rw [subst?_eq_some hall] at h
  exact (Option.some.inj h).symm

/-- The substitution is felt through the variables of the type only. -/
theorem subst?_congr {f g : VarId → Option Ty} {t : Ty} (h : ∀ v ∈ t.vars, f v = g v) : subst? f t = subst? g t := by
  by_cases hall : ∀ v ∈ t.vars, (f v).isSome
  · have hf : ∀ v ∈ t.vars, f v = some ((f v).getD (.var v)) := by
      intro v hv
      obtain ⟨x, hx⟩ := Option.isSome_iff_exists.1 (hall v hv)
      rw [hx, Option.getD_some]
    rw [subst?_eq_some hf, subst?_eq_some fun v hv => (h v hv).symm.trans (hf v hv)]
  · obtain ⟨v, hv⟩ := Classical.not_forall.1 hall
    obtain ⟨hv, hnone⟩ := Classical.not_imp.1 hv
    have hf : f v = none := Option.not_isSome_iff_eq_none.1 hnone
    rw [subst?_eq_none hf hv, subst?_eq_none ((h v hv).symm.trans hf) hv]

/-! ## Size -/

mutual

/-- number of nodes -/
def size : Ty → Nat
  | .scalar _ => 1
  | .wrap _ t => size t + 1
  | .compound _ ts => sizeList ts + 1
  | .var _ => 1

def sizeList : List Ty → Nat
  | [] => 0
  | t :: ts => size t + sizeList ts

end

end Ty

/-! ## Text -/

def Scalar.render : Scalar → String
  | .bool => "Bool"
  | .char => "Char"
  | .int => "Int"
  | .void => "Void"

def Wrapper.render (text : String) : Wrapper → String
  | .array => "Array[" ++ text ++ "]"
  | .arrayValue size => "ArrayValue[" ++ text ++ ", " ++ toString size ++ "]"
  | .ref => "Ref[" ++ text ++ "]"

/-- an aggregate without parameters is written without brackets; a tuple always has its parentheses -/
def Former.render (name : SymbolId → String) (texts : List String) : Former → String
  | .aggregate _ e => if texts.isEmpty then name e else name e ++ "[" ++ ", ".intercalate texts ++ "]"
  | .tuple => "(" ++ ", ".intercalate texts ++ ")"

namespace Ty

mutual

/-- the text of a type, given the names of symbols -/
def render (name : SymbolId → String) : Ty → String
  | .scalar s => s.render
  | .wrap w t => w.render (render name t)
  | .compound f ts => f.render name (renderList name ts)
  | .var v => "?" ++ toString v

def renderList (name : SymbolId → String) : List Ty → List String
  | [] => []
  | t :: ts => render name t :: renderList name ts

end

end Ty

end DualInference
