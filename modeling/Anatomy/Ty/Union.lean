import Anatomy.Ty.Basic

namespace Anatomy

section eraseDupsBy

variable {α : Type} {same : α → α → Bool}

theorem eraseDupsBy_induct {P : List α → List α → Prop} (nil : P [] [])
    (cons : ∀ a as, P (as.filter fun b => same b a = false)
      ((as.filter fun b => same b a = false).eraseDupsBy same) →
      P (a :: as) (a :: (as.filter fun b => same b a = false).eraseDupsBy same))
    (as : List α) : P as (as.eraseDupsBy same) := by
  induction hn : as.length using Nat.strongRecOn generalizing as with
  | ind n ih =>
    subst hn
    cases as with
    | nil =>
      rw [List.eraseDupsBy_nil]
      exact nil
    | cons a as =>
      rw [List.eraseDupsBy_cons]
      exact cons a as (ih _ (Nat.lt_succ_of_le (List.length_filter_le _ _)) _ rfl)

theorem eraseDupsBy_sublist (as : List α) : (as.eraseDupsBy same).Sublist as := by
  refine eraseDupsBy_induct (P := fun as kept => kept.Sublist as) .slnil ?_ as
  intro a as h
  exact (h.trans List.filter_sublist).cons_cons a

end eraseDupsBy

/-- How two plain values are compared: by kind and value, or by what they are worth. -/
inductive Measure
  | kind
  | worth
  deriving DecidableEq, Inhabited

def Measure.agree : Measure → Scalar → Scalar → Bool
  | .kind, a, b => a.same b
  | .worth, a, b => a.sameWorth b

namespace Ty

mutual

/-- Equality of types. Plain values among the parameters of a type count by kind and value; a bound
of a variable or the body of a layer that is itself a plain value counts by its worth. The measure
says which of the two holds for the types at hand. -/
def agree (m : Measure) : Ty → Ty → Bool
  | .nominal name as, .nominal name' bs => decide (name = name') && agreeAll as bs
  | .tuple as, .tuple bs => agreeAll as bs
  | .union as, .union bs => agreeAll as bs
  | .var name lower upper, .var name' lower' upper' =>
    name == name' && agree .worth lower lower' && agree .worth upper upper'
  | .unionAll name lower upper body, .unionAll name' lower' upper' body' =>
    name == name' && agree .worth lower lower' && agree .worth upper upper' &&
      agree .worth body body'
  | .vararg element count, .vararg element' count' =>
    agree .kind element element' && agree .kind count count'
  | .symbol a, .symbol b => a == b
  | .bareName a, .bareName b => decide (a = b)
  | .value a, .value b => m.agree a b
  | _, _ => false

def agreeAll : List Ty → List Ty → Bool
  | [], [] => true
  | a :: as, b :: bs => agree .kind a b && agreeAll as bs
  | _, _ => false

end

def same : Ty → Ty → Bool :=
  agree .kind

end Ty

def TypeVar.same (v w : TypeVar) : Bool :=
  v.toTy.same w.toTy

namespace Ty

/-- Members of a union come in the order of their kinds, and within a kind in the order of their
displayed forms, both by code point. -/
def precedes (a b : Ty) : Bool :=
  decide (a.label < b.label) || (a.label == b.label && !decide (b.inspect < a.inspect))

def flatten : List Ty → List Ty
  | [] => []
  | .union members :: ts => members ++ flatten ts
  | t :: ts => t :: flatten ts

def canonicalMembers (members : List Ty) : List Ty :=
  ((flatten members).eraseDupsBy same).mergeSort precedes

@[simp]
theorem canonicalMembers_nil : canonicalMembers [] = [] := by
  rw [canonicalMembers]
  exact List.mergeSort_nil

def unionOf (members : List Ty) : Ty :=
  .union (canonicalMembers members)

def join (members : List Ty) : Ty :=
  match canonicalMembers members with
  | [member] => member
  | members => .union members

end Ty

end Anatomy
