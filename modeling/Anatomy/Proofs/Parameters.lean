import Mathlib.Data.List.Forall2
import Anatomy.Parts.Forward

namespace Anatomy.Node

/-- A symbol, or anything with a type behind it. The subject is what stands in the place of the name,
and the flag tells whether the type is that of any number of values. -/
inductive Bare : Node → Node → Bool → Prop
  | symbol (name : String) : Bare (.symbol name) (.symbol name) false
  | typed (subject type : Node) : Bare (.expr .ascription [subject, type]) subject type.isVararg

inductive Defaulted : Node → Node → Bool → Prop
  | bare {parameter subject : Node} {collects : Bool} (h : Bare parameter subject collects) :
      Defaulted parameter subject collects
  | keyword {parameter subject : Node} {collects : Bool} (h : Bare parameter subject collects)
      (value : Node) : Defaulted (.expr .keyword [parameter, value]) subject collects
  | assigned {parameter subject : Node} {collects : Bool} (h : Bare parameter subject collects)
      (value : Node) : Defaulted (.expr .assign [parameter, value]) subject collects

/-- A parameter with its subject. The flag tells whether it takes any number of values. -/
inductive Introduces : Node → Node → Bool → Prop
  | single {parameter subject : Node} {collects : Bool}
      (h : Defaulted parameter subject collects) : Introduces parameter subject collects
  | splatted {parameter subject : Node} {collects : Bool}
      (h : Defaulted parameter subject collects) : Introduces (.expr .splat [parameter]) subject true

def Named (parameter : Node) : Prop :=
  ∃ name collects, Introduces parameter (.symbol name) collects

def Misnamed (parameter : Node) : Prop :=
  ∃ subject collects, Introduces parameter subject collects ∧ ∀ name, subject ≠ .symbol name

variable {parameter subject argument : Node} {collects : Bool} {parameters arguments : List Node}

section Forms

theorem unsplat_cases (parameter : Node) :
    (∃ inner, parameter = .expr .splat [inner] ∧ parameter.unsplat = (true, inner)) ∨
      parameter.unsplat = (false, parameter) := by
  unfold unsplat
  split
  · exact .inl ⟨_, rfl, rfl⟩
  · exact .inr rfl

theorem undefault_cases (parameter : Node) :
    (∃ inner value, (parameter = .expr .keyword [inner, value] ∨
      parameter = .expr .assign [inner, value]) ∧ parameter.undefault = inner) ∨
      parameter.undefault = parameter := by
  unfold undefault
  split
  · exact .inl ⟨_, _, .inl rfl, rfl⟩
  · exact .inl ⟨_, _, .inr rfl, rfl⟩
  · exact .inr rfl

theorem Bare.undefault (h : Bare parameter subject collects) :
    parameter.undefault = parameter := by
  cases h <;> rfl

theorem defaulted_iff :
    Defaulted parameter subject collects ↔ Bare parameter.undefault subject collects := by
  constructor
  · intro h
    cases h with
    | bare h => rwa [h.undefault]
    | keyword h value => exact h
    | assigned h value => exact h
  · intro h
    obtain ⟨inner, value, rfl | rfl, hu⟩ | hu := parameter.undefault_cases
    · exact .keyword (hu ▸ h) value
    · exact .assigned (hu ▸ h) value
    · exact .bare (hu ▸ h)

theorem Defaulted.unsplat (h : Defaulted parameter subject collects) :
    parameter.unsplat = (false, parameter) := by
  cases h with
  | bare h => cases h <;> rfl
  | keyword h value => rfl
  | assigned h value => rfl

theorem introduces_iff : Introduces parameter subject collects ↔
    ∃ variadic, Defaulted parameter.unsplat.2 subject variadic ∧
      collects = (parameter.unsplat.1 || variadic) := by
  constructor
  · intro h
    cases h with
    | single h => exact ⟨collects, by rwa [h.unsplat], by rw [h.unsplat]; rfl⟩
    | splatted h => exact ⟨_, h, rfl⟩
  · rintro ⟨variadic, h, rfl⟩
    obtain ⟨inner, rfl, hu⟩ | hu := parameter.unsplat_cases
    · exact .splatted h
    · rw [hu] at h ⊢
      exact .single h

end Forms

section Passing

theorem forward_eq_ok_iff : parameter.forward = .ok argument ↔
    ∃ subject collects, Introduces parameter subject collects ∧
      argument = splatIf collects subject := by
  simp only [introduces_iff, defaulted_iff]
  rw [forward]
  obtain ⟨splatted, inner⟩ := parameter.unsplat
  dsimp only
  generalize inner.undefault = bare
  constructor
  · intro h
    split at h
    · next name =>
      exact ⟨.symbol name, splatted, ⟨false, .symbol name, by simp⟩, (Except.ok.inj h).symm⟩
    · next subject type =>
      exact ⟨subject, _, ⟨_, .typed subject type, rfl⟩, (Except.ok.inj h).symm⟩
    · cases h
  · rintro ⟨subject, collects, ⟨variadic, h, rfl⟩, rfl⟩
    cases h with
    | symbol name => rw [Bool.or_false]
    | typed subject type => rfl

theorem forwardAll_eq_ok_iff : forwardAll parameters = .ok arguments ↔
    List.Forall₂ (fun parameter argument => parameter.forward = .ok argument)
      parameters arguments := by
  induction parameters generalizing arguments with
  | nil => simp [forwardAll, eq_comm]
  | cons parameter parameters ih =>
    rw [forwardAll, List.forall₂_cons_left_iff]
    cases parameter.forward with
    | error u => simp
    | ok argument =>
      cases hs : forwardAll parameters with
      | error u => simp [← ih, hs]
      | ok rest => simp [← ih, hs, eq_comm (a := arguments)]

theorem exists_forwardAll_iff : (∃ arguments, forwardAll parameters = .ok arguments) ↔
    ∀ parameter ∈ parameters, ∃ argument, parameter.forward = .ok argument := by
  simp only [forwardAll_eq_ok_iff]
  induction parameters with
  | nil => simp
  | cons parameter parameters ih => simp [List.forall₂_cons_left_iff, ← ih]

theorem exists_forward_iff :
    (∃ argument, parameter.forward = .ok argument) ↔ Named parameter ∨ Misnamed parameter := by
  simp only [forward_eq_ok_iff]
  constructor
  · rintro ⟨_, subject, collects, h, -⟩
    by_cases hs : ∃ name, subject = .symbol name
    · obtain ⟨name, rfl⟩ := hs
      exact .inl ⟨name, collects, h⟩
    · exact .inr ⟨subject, collects, h, not_exists.mp hs⟩
  · rintro (⟨name, collects, h⟩ | ⟨subject, collects, h, -⟩)
    · exact ⟨_, .symbol name, collects, h, rfl⟩
    · exact ⟨_, subject, collects, h, rfl⟩

theorem forwardTuple_eq_ok_iff {tree : Node} : forwardTuple parameters = .ok tree ↔
    ∃ arguments, tree = .expr .tuple arguments ∧ forwardAll parameters = .ok arguments := by
  rw [forwardTuple]
  cases forwardAll parameters <;> simp [eq_comm]

theorem exists_forwardTuple_iff : (∃ tree, forwardTuple parameters = .ok tree) ↔
    ∀ parameter ∈ parameters, Named parameter ∨ Misnamed parameter := by
  simp only [← exists_forward_iff, ← exists_forwardAll_iff, forwardTuple_eq_ok_iff]
  rw [exists_comm]
  simp

end Passing

/-- Parameters are passed on if each of them has a subject, be it a name or not; where none has a
subject that is no name, this means that each of them has a name. They are passed on by their
subjects, in order, each of which is splatted if its parameter takes any number of values. -/
theorem forwardTuple_iff_named (parameters : List Node) :
    ((∃ tree, forwardTuple parameters = .ok tree) ↔
      ∀ parameter ∈ parameters, Named parameter ∨ Misnamed parameter) ∧
    ((∀ parameter ∈ parameters, ¬Misnamed parameter) →
      ((∃ tree, forwardTuple parameters = .ok tree) ↔
        ∀ parameter ∈ parameters, Named parameter)) ∧
    (∀ tree, forwardTuple parameters = .ok tree ↔ ∃ arguments, tree = .expr .tuple arguments ∧
      List.Forall₂ (fun parameter argument => ∃ subject collects,
        Introduces parameter subject collects ∧ argument = splatIf collects subject)
        parameters arguments) ∧
    ((∃ parameter ∈ parameters, ¬Named parameter ∧ ¬Misnamed parameter) →
      ∃ u, forwardTuple parameters = .error u) := by
  refine ⟨exists_forwardTuple_iff, fun hm => ?_, fun tree => ?_, ?_⟩
  · rw [exists_forwardTuple_iff]
    exact forall₂_congr fun parameter hp => or_iff_left (hm parameter hp)
  · rw [forwardTuple_eq_ok_iff]
    simp only [forwardAll_eq_ok_iff, forward_eq_ok_iff]
  · rintro ⟨parameter, hp, hn⟩
    cases h : forwardTuple parameters with
    | error u => exact ⟨u, rfl⟩
    | ok tree => exact absurd (exists_forwardTuple_iff.mp ⟨tree, h⟩ parameter hp) (not_or.mpr hn)

theorem forwardTuple_iff_named_mixed : forwardTuple
    [.symbol "x",
      .expr .keyword [.expr .ascription [.symbol "y", .symbol "Int"], .literal (.int 1)],
      .expr .splat [.symbol "z"], .expr .ascription [.symbol "w", .symbol "Vararg"]] =
    .ok (.expr .tuple
      [.symbol "x", .symbol "y", .expr .splat [.symbol "z"], .expr .splat [.symbol "w"]]) := by
  refine ((forwardTuple_iff_named _).2.2.1 _).mpr ⟨_, rfl, ?_⟩
  refine .cons ⟨_, _, .single (.bare (.symbol "x")), rfl⟩ ?_
  refine .cons ⟨_, _, .single (.keyword (.typed (.symbol "y") (.symbol "Int")) _), rfl⟩ ?_
  refine .cons ⟨_, _, .splatted (.bare (.symbol "z")), rfl⟩ ?_
  exact .cons ⟨_, _, .single (.bare (.typed (.symbol "w") (.symbol "Vararg"))), rfl⟩ .nil

/-- The parameter `f(x)::Int` is passed on as the call, although it has no name. -/
theorem exists_forwardTuple_not_named : ∃ parameter tree,
    forwardTuple [parameter] = .ok tree ∧ ¬Named parameter ∧
      tree = .expr .tuple [.expr .call [.symbol "f", .symbol "x"]] := by
  refine ⟨.expr .ascription [.expr .call [.symbol "f", .symbol "x"], .symbol "Int"], _, rfl, ?_, rfl⟩
  rintro ⟨name, collects, h⟩
  obtain ⟨variadic, h, -⟩ := introduces_iff.mp h
  cases defaulted_iff.mp h

end Anatomy.Node
