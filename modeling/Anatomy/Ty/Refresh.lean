import Anatomy.Ty.Union

namespace Anatomy

namespace Ty

def substitutedCount (count replaced : Ty) : Ty :=
  match count with
  | .var _ _ _ => replaced
  | count => count

mutual

/-- Replaces the free occurrences of `old` by `new`. A layer that binds `old` again is left as it
is. An occurrence of another variable is entered, since its bounds may mention `old`. -/
def substitute (old new : TypeVar) : Ty → Ty
  | .var name lower upper =>
    if same (.var name lower upper) old.toTy then new.toTy
    else .var name (substitute old new lower) (substitute old new upper)
  | .unionAll name lower upper body =>
    if same (.var name lower upper) old.toTy then .unionAll name lower upper body
    else .unionAll name (substitute old new lower) (substitute old new upper)
      (substitute old new body)
  | .nominal name params => .nominal name (substituteAll old new params)
  | .tuple params => .tuple (substituteAll old new params)
  | .union members => unionOf (substituteAll old new members)
  | .vararg element count =>
    .vararg (substitute old new element) (substitutedCount count (substitute old new count))
  | t => t

def substituteAll (old new : TypeVar) : List Ty → List Ty
  | [] => []
  | t :: ts => substitute old new t :: substituteAll old new ts

end

end Ty

structure Renamed where
  old : String
  new : String
  deriving DecidableEq, Inhabited

/-- Where fresh names come from: the number of the next one, and the variables renamed so far. -/
structure Supply where
  next : Nat := 1
  renamed : List Renamed := []
  deriving DecidableEq, Inhabited

namespace Supply

def fresh (s : Supply) (name : String) : String × Supply :=
  ("##" ++ name ++ "#" ++ toString s.next, { s with next := s.next + 1 })

def record (s : Supply) (old new : String) : Supply :=
  { s with renamed := s.renamed ++ [⟨old, new⟩] }

end Supply

namespace Ty

mutual

/-- The size of a type, where an occurrence of a variable counts as one whatever its bounds are.
Replacing a variable by a variable does not make a type heavier. -/
def weight : Ty → Nat
  | .nominal _ params => 1 + weightAll params
  | .tuple params => 1 + weightAll params
  | .union members => 1 + weightAll members
  | .unionAll _ lower upper body => 1 + weight lower + weight upper + weight body
  | .vararg element _ => 1 + weight element
  | _ => 1

def weightAll : List Ty → Nat
  | [] => 0
  | t :: ts => 1 + weight t + weightAll ts

end

theorem weightAll_append (as bs : List Ty) :
    weightAll (as ++ bs) = weightAll as + weightAll bs := by
  induction as with
  | nil => simp [weightAll]
  | cons a as ih => simp [weightAll, ih]; omega

theorem weightAll_flatten_le (ts : List Ty) : weightAll (flatten ts) ≤ weightAll ts := by
  induction ts with
  | nil => simp [flatten]
  | cons t ts ih => cases t <;> simp [flatten, weightAll, weight, weightAll_append] <;> omega

theorem weightAll_le_of_sublist {ts us : List Ty} (h : ts.Sublist us) :
    weightAll ts ≤ weightAll us := by
  induction h with
  | slnil => exact Nat.le_refl _
  | cons u _ ih =>
    rw [weightAll]
    omega
  | cons_cons t _ ih =>
    rw [weightAll, weightAll]
    omega

theorem weightAll_eq_of_perm {ts us : List Ty} (h : ts.Perm us) : weightAll ts = weightAll us := by
  induction h with
  | nil => rfl
  | cons t _ ih => rw [weightAll, weightAll, ih]
  | swap t u ts =>
    simp only [weightAll]
    omega
  | trans _ _ ih ih' => exact ih.trans ih'

theorem weightAll_canonicalMembers_le (ts : List Ty) :
    weightAll (canonicalMembers ts) ≤ weightAll ts := by
  rw [canonicalMembers, weightAll_eq_of_perm (List.mergeSort_perm _ precedes)]
  exact Nat.le_trans (weightAll_le_of_sublist (eraseDupsBy_sublist _)) (weightAll_flatten_le ts)

mutual

theorem weight_substitute_le (old new : TypeVar) (t : Ty) :
    weight (substitute old new t) ≤ weight t := by
  cases t with
  | nominal name params | tuple params =>
    have := weightAll_substituteAll_le old new params
    simp only [substitute, weight]
    omega
  | union members =>
    have hc := weightAll_canonicalMembers_le (substituteAll old new members)
    have hs := weightAll_substituteAll_le old new members
    simp only [substitute, unionOf, weight]
    omega
  | var name lower upper =>
    simp only [substitute]
    split <;> simp [TypeVar.toTy, weight]
  | unionAll name lower upper body =>
    have hl := weight_substitute_le old new lower
    have hu := weight_substitute_le old new upper
    have hb := weight_substitute_le old new body
    simp only [substitute]
    split
    · simp
    · simp only [weight]
      omega
  | vararg element count =>
    have := weight_substitute_le old new element
    simp only [substitute, weight]
    omega
  | symbol | bareName | value => simp [substitute, weight]

theorem weightAll_substituteAll_le (old new : TypeVar) (ts : List Ty) :
    weightAll (substituteAll old new ts) ≤ weightAll ts := by
  cases ts with
  | nil => simp [substituteAll]
  | cons t ts =>
    have ht := weight_substitute_le old new t
    have hs := weightAll_substituteAll_le old new ts
    simp only [substituteAll, weightAll]
    omega

end

mutual

/-- Gives every bound variable a fresh name. A layer draws its name before its bounds are entered,
and its body is entered after the new variable has been put in place of the old one. -/
def refresh (t : Ty) (s : Supply) : Ty × Supply :=
  match t with
  | .unionAll name lower upper body =>
    match s.fresh name with
    | (freshName, s₁) =>
      match refresh lower s₁ with
      | (freshLower, s₂) =>
        match refresh upper s₂ with
        | (freshUpper, s₃) =>
          match refresh (substitute ⟨name, lower, upper⟩ ⟨freshName, freshLower, freshUpper⟩ body)
              (s₃.record name freshName) with
          | (freshBody, s₄) => (.unionAll freshName freshLower freshUpper freshBody, s₄)
  | .nominal name params =>
    match refreshAll params s with
    | (params, s) => (.nominal name params, s)
  | .tuple params =>
    match refreshAll params s with
    | (params, s) => (.tuple params, s)
  | .union members =>
    match refreshAll members s with
    | (members, s) => (unionOf members, s)
  | .vararg element count =>
    match refresh element s with
    | (element, s) => (.vararg element count, s)
  | t => (t, s)
termination_by weight t
decreasing_by
  · simp only [weight]; omega
  · simp only [weight]; omega
  · have := weight_substitute_le ⟨name, lower, upper⟩ ⟨freshName, freshLower, freshUpper⟩ body
    simp only [weight]
    omega
  · simp only [weight]; omega
  · simp only [weight]; omega
  · simp only [weight]; omega
  · simp only [weight]; omega

def refreshAll (ts : List Ty) (s : Supply) : List Ty × Supply :=
  match ts with
  | [] => ([], s)
  | t :: ts =>
    match refresh t s with
    | (t, s) =>
      match refreshAll ts s with
      | (ts, s) => (t :: ts, s)
termination_by weightAll ts
decreasing_by
  · simp only [weightAll]; omega
  · simp only [weightAll]; omega

end

end Ty

namespace Supply

inductive Request
  | name (stem : String)
  | type (t : Ty)

inductive Reply
  | name (name : String)
  | type (t : Ty)

def serve (s : Supply) : Request → Reply × Supply
  | .name stem =>
    match s.fresh stem with
    | (name, s) => (.name name, s)
  | .type t =>
    match t.refresh s with
    | (t, s) => (.type t, s)

def serveAll (s : Supply) : List Request → List Reply × Supply
  | [] => ([], s)
  | request :: requests =>
    match s.serve request with
    | (reply, s) =>
      match s.serveAll requests with
      | (replies, s) => (reply :: replies, s)

end Supply

end Anatomy
