import Mathlib.Data.List.Basic
import Mathlib.Data.List.TakeWhile
import Anatomy.Proofs.Quoting
import Anatomy.Proofs.Numerals
import Anatomy.Proofs.Traversal

namespace Anatomy

open Text.Quoted Text.Sequence

theorem toList_close : ")".toList = [')'] := by
  decide

namespace TypeName

theorem toList_inspect (n : TypeName) :
    n.inspect.toList = "TypeName".toList ++ '(' :: ("name=".toList ++ ((quote n.name).toList ++
      ',' :: (" module=".toList ++ ((quote n.home).toList ++ [')'])))) := by
  have h : n.inspect = "TypeName(name=" ++ quote n.name ++ ", module=" ++ quote n.home ++ ")" := rfl
  have hname : "TypeName(name=".toList = "TypeName".toList ++ '(' :: "name=".toList := by decide
  have hhome : ", module=".toList = ',' :: " module=".toList := by decide
  rw [h]
  simp only [String.toList_append, hname, hhome, toList_close, List.append_assoc, List.cons_append]

theorem inspect_append_inj {n n' : TypeName} {r r' : List Char}
    (h : n.inspect.toList ++ r = n'.inspect.toList ++ r') : n = n' ∧ r = r' := by
  simp only [toList_inspect, List.append_assoc, List.cons_append] at h
  have h := List.append_cancel_left (List.cons.inj (List.append_cancel_left h)).2
  obtain ⟨hname, h⟩ := quote_append_inj h
  obtain ⟨hhome, h⟩ := quote_append_inj (List.append_cancel_left (List.cons.inj h).2)
  refine ⟨?_, (List.cons.inj h).2⟩
  cases n
  cases n'
  rw [TypeName.mk.injEq]
  exact ⟨hname, hhome⟩

end TypeName

namespace Scalar

/-- A plain value as far as it is displayed. -/
def shown : Scalar → Scalar
  | .float x => .float x.shown
  | scalar => scalar

theorem inspect_shown (scalar : Scalar) : scalar.shown.inspect = scalar.inspect := by
  cases scalar with
  | float x => exact congrArg String.ofList x.write_shown
  | _ => rfl

end Scalar

namespace Ty

mutual

/-- A type as far as it is displayed. -/
def shown : Ty → Ty
  | .nominal name params => .nominal name (shownAll params)
  | .tuple params => .tuple (shownAll params)
  | .union members => .union (shownAll members)
  | .var name lower upper => .var name (shown lower) (shown upper)
  | .unionAll name lower upper body => .unionAll name (shown lower) (shown upper) (shown body)
  | .vararg element count => .vararg (shown element) (shown count)
  | .symbol name => .symbol name
  | .bareName name => .bareName name
  | .value scalar => .value scalar.shown

def shownAll : List Ty → List Ty
  | [] => []
  | t :: ts => shown t :: shownAll ts

end

theorem shownAll_eq_map (ts : List Ty) : shownAll ts = ts.map shown := by
  induction ts with
  | nil => rfl
  | cons t ts ih => rw [shownAll, ih, List.map_cons]

/-- The characters of the displayed form of a type. -/
def chars (t : Ty) : List Char :=
  t.inspect.toList

def charsAll (ts : List Ty) : List Char :=
  (parenthesized (inspectAll ts)).toList

section Equations

-- The defining equations of `inspect`, with every delimiter apart.

theorem chars_nominal (name : TypeName) (params : List Ty) :
    chars (.nominal name params) = "DataType".toList ++ '(' :: ("name=".toList ++
      (name.inspect.toList ++ ',' :: (" parameters=".toList ++ (charsAll params ++ [')'])))) := by
  have h : chars (.nominal name params) = ("DataType(name=" ++ name.inspect ++
    ", parameters=" ++ parenthesized (inspectAll params) ++ ")").toList := rfl
  have hname : "DataType(name=".toList = "DataType".toList ++ '(' :: "name=".toList := by decide
  have hparams : ", parameters=".toList = ',' :: " parameters=".toList := by decide
  rw [h, charsAll]
  simp only [String.toList_append, hname, hparams, toList_close, List.append_assoc,
    List.cons_append]

theorem chars_tuple (params : List Ty) :
    chars (.tuple params) = "TupleType".toList ++ '(' :: ("parameters=".toList ++
      (charsAll params ++ [')'])) := by
  have h : chars (.tuple params) =
    ("TupleType(parameters=" ++ parenthesized (inspectAll params) ++ ")").toList := rfl
  have hparams : "TupleType(parameters=".toList =
    "TupleType".toList ++ '(' :: "parameters=".toList := by decide
  rw [h, charsAll]
  simp only [String.toList_append, hparams, toList_close, List.append_assoc, List.cons_append]

theorem chars_union (members : List Ty) :
    chars (.union members) = "UnionType".toList ++ '(' :: ("members=".toList ++
      (charsAll members ++ [')'])) := by
  have h : chars (.union members) =
    ("UnionType(members=" ++ parenthesized (inspectAll members) ++ ")").toList := rfl
  have hmembers : "UnionType(members=".toList =
    "UnionType".toList ++ '(' :: "members=".toList := by decide
  rw [h, charsAll]
  simp only [String.toList_append, hmembers, toList_close, List.append_assoc, List.cons_append]

theorem chars_toTy (v : TypeVar) :
    chars v.toTy = "TypeVar".toList ++ '(' :: ("name=".toList ++ ((quote v.name).toList ++
      ',' :: (" lb=".toList ++ (chars v.lower ++
        ',' :: (" ub=".toList ++ (chars v.upper ++ [')'])))))) := by
  have h : chars v.toTy = ("TypeVar(name=" ++ quote v.name ++ ", lb=" ++ v.lower.inspect ++
    ", ub=" ++ v.upper.inspect ++ ")").toList := rfl
  have hname : "TypeVar(name=".toList = "TypeVar".toList ++ '(' :: "name=".toList := by decide
  have hlower : ", lb=".toList = ',' :: " lb=".toList := by decide
  have hupper : ", ub=".toList = ',' :: " ub=".toList := by decide
  rw [h, chars, chars]
  simp only [String.toList_append, hname, hlower, hupper, toList_close, List.append_assoc,
    List.cons_append]

theorem chars_over (v : TypeVar) (body : Ty) :
    chars (v.over body) = "UnionAll".toList ++ '(' :: ("var=".toList ++ (chars v.toTy ++
      ',' :: (" body=".toList ++ (chars body ++ [')'])))) := by
  have h : chars (v.over body) =
    ("UnionAll(var=" ++ v.toTy.inspect ++ ", body=" ++ body.inspect ++ ")").toList := rfl
  have hvar : "UnionAll(var=".toList = "UnionAll".toList ++ '(' :: "var=".toList := by decide
  have hbody : ", body=".toList = ',' :: " body=".toList := by decide
  rw [h, chars, chars]
  simp only [String.toList_append, hvar, hbody, toList_close, List.append_assoc, List.cons_append]

theorem chars_vararg (element count : Ty) :
    chars (.vararg element count) = "Vararg".toList ++ '(' :: ("element=".toList ++
      (chars element ++ ',' :: (" count=".toList ++ (chars count ++ [')'])))) := by
  have h : chars (.vararg element count) =
    ("Vararg(element=" ++ element.inspect ++ ", count=" ++ count.inspect ++ ")").toList := rfl
  have helement : "Vararg(element=".toList = "Vararg".toList ++ '(' :: "element=".toList := by
    decide
  have hcount : ", count=".toList = ',' :: " count=".toList := by decide
  rw [h, chars, chars]
  simp only [String.toList_append, helement, hcount, toList_close, List.append_assoc,
    List.cons_append]

theorem chars_symbol (name : String) :
    chars (.symbol name) = "Symbol".toList ++ '(' :: ("name=".toList ++
      ((quote name).toList ++ [')'])) := by
  have h : chars (.symbol name) = ("Symbol(name=" ++ quote name ++ ")").toList := rfl
  have hname : "Symbol(name=".toList = "Symbol".toList ++ '(' :: "name=".toList := by decide
  rw [h]
  simp only [String.toList_append, hname, toList_close, List.append_assoc, List.cons_append]

theorem chars_value (scalar : Scalar) : chars (.value scalar) = scalar.inspect.toList := rfl

theorem charsAll_nil : charsAll [] = ['(', ')'] := by
  have h : charsAll [] = ("(" ++ "" ++ ")").toList := rfl
  rw [h]
  decide

theorem charsAll_single (t : Ty) : charsAll [t] = '(' :: (chars t ++ [',', ')']) := by
  have h : charsAll [t] = ("(" ++ t.inspect ++ ",)").toList := rfl
  have ho : "(".toList = ['('] := by decide
  have hc : ",)".toList = [',', ')'] := by decide
  rw [h, chars]
  simp only [String.toList_append, ho, hc, List.cons_append, List.nil_append]

def charsRest : List Ty → List Char
  | [] => [')']
  | t :: ts => ',' :: ' ' :: (chars t ++ charsRest ts)

theorem charsAll_cons_cons (t u : Ty) (ts : List Ty) :
    charsAll (t :: u :: ts) = '(' :: (chars t ++ charsRest (u :: ts)) := by
  have hsep : ", ".toList = [',', ' '] := by decide
  have hj : ∀ u us, (", ".intercalate (inspectAll (u :: us))).toList ++ [')'] =
      chars u ++ charsRest us := by
    intro u us
    induction us generalizing u with
    | nil => rfl
    | cons w us ih =>
      have h : ", ".intercalate (inspectAll (u :: w :: us)) =
          u.inspect ++ ", " ++ ", ".intercalate (inspectAll (w :: us)) :=
        String.intercalate_cons_cons
      rw [h, charsRest, ← ih w, chars]
      simp only [String.toList_append, hsep, List.append_assoc, List.cons_append, List.nil_append]
  have h : charsAll (t :: u :: ts) =
    ("(" ++ ", ".intercalate (inspectAll (t :: u :: ts)) ++ ")").toList := rfl
  have ho : "(".toList = ['('] := by decide
  rw [h, ← hj]
  simp only [String.toList_append, ho, toList_close, List.cons_append, List.nil_append]

end Equations

/-- Two types of one kind. Plain values are of one kind whatever they hold. -/
inductive SameKind : Ty → Ty → Prop
  | nominal {n n' : TypeName} {ps ps' : List Ty} : SameKind (.nominal n ps) (.nominal n' ps')
  | tuple {ps ps' : List Ty} : SameKind (.tuple ps) (.tuple ps')
  | union {ms ms' : List Ty} : SameKind (.union ms) (.union ms')
  | var {n n' : String} {l l' u u' : Ty} : SameKind (.var n l u) (.var n' l' u')
  | layer {n n' : String} {l l' u u' b b' : Ty} :
      SameKind (.unionAll n l u b) (.unionAll n' l' u' b')
  | vararg {e e' c c' : Ty} : SameKind (.vararg e c) (.vararg e' c')
  | symbol {n n' : String} : SameKind (.symbol n) (.symbol n')
  | bareName {n n' : TypeName} : SameKind (.bareName n) (.bareName n')
  | value {s s' : Scalar} : SameKind (.value s) (.value s')

/-- The characters of a displayed form before its first delimiter. They are the word for the kind
of a compound type, and the whole form of a plain value that is no text. -/
def lead : Ty → List Char
  | .value (.text _) => []
  | .value scalar => scalar.inspect.toList
  | t => t.label.toList

def isNan : Ty → Bool
  | .value (.float x) => x.isNan
  | _ => false

def delimiters : List Char :=
  ['(', ')', ',', apostrophe, doubleQuote]

/-- What may follow a displayed form. -/
inductive Stops : List Char → Prop
  | nil : Stops []
  | comma {cs : List Char} : Stops (',' :: cs)
  | close {cs : List Char} : Stops (')' :: cs)

def kindWords : List String :=
  ["DataType", "TupleType", "UnionType", "TypeVar", "UnionAll", "Vararg", "Symbol", "TypeName"]

theorem value_or_kindWord (t : Ty) :
    (∃ scalar, t = .value scalar) ∨ t.label ∈ kindWords ∧ t.lead = t.label.toList := by
  cases t with
  | value scalar => exact .inl ⟨scalar, rfl⟩
  | _ => exact .inr ⟨by simp [label, TypeVar.toTy, TypeVar.over, kindWords], rfl⟩

inductive Figure (c : Char) : Prop
  | digit (h : c.isDigit = true)
  | sign (h : c ∈ ['.', 'e', '-', '+', 'i', 'n', 'f', 'a'])

-- Decided member by member: the characters as a whole are too many.
theorem forall_mem_of_all {p : Char → Prop} [DecidablePred p] {cs : List Char}
    (h : cs.all (fun c => decide (p c)) = true) : ∀ c ∈ cs, p c := by
  simpa only [List.all_eq_true, decide_eq_true_iff] using h

theorem Figure.notMem {c : Char} (h : Figure c) {cs : List Char}
    (hcs : ∀ d ∈ cs, d.isDigit = false ∧ d ∉ ['.', 'e', '-', '+', 'i', 'n', 'f', 'a']) :
    c ∉ cs := by
  intro hc
  obtain ⟨hd, hs⟩ := hcs c hc
  cases h with
  | digit h => rw [h] at hd; cases hd
  | sign h => exact hs h

theorem figure_of_mem_int {n : Int} {c : Char} (h : c ∈ lead (.value (.int n))) : Figure c := by
  obtain h | rfl := chars_toString h
  · exact .digit h
  · exact .sign (by decide)

theorem lead_float (x : FloatLit) : lead (.value (.float x)) = x.write :=
  String.toList_ofList

theorem figure_of_mem_float {x : FloatLit} {c : Char} (h : c ∈ lead (.value (.float x))) :
    Figure c := by
  rw [lead_float] at h
  obtain h | h := FloatLit.chars_write h
  · exact .digit h
  · exact .sign h

theorem notMem_delimiters_of_mem_lead {t : Ty} {c : Char} (hc : c ∈ t.lead) :
    c ∉ delimiters := by
  have hfig : Figure c → c ∉ delimiters := fun h => h.notMem (forall_mem_of_all (by decide))
  obtain ⟨scalar, rfl⟩ | ⟨hw, hl⟩ := value_or_kindWord t
  · cases scalar with
    | null => exact forall_mem_of_all (by decide : "None".toList.all (· ∉ delimiters) = true) c hc
    | bool b =>
      cases b with
      | true => exact forall_mem_of_all (by decide : "True".toList.all (· ∉ delimiters) = true) c hc
      | false =>
        exact forall_mem_of_all (by decide : "False".toList.all (· ∉ delimiters) = true) c hc
    | int n => exact hfig (figure_of_mem_int hc)
    | float x => exact hfig (figure_of_mem_float hc)
    | text s => cases hc
  · have hall : ∀ w ∈ kindWords, w.toList.all (· ∉ delimiters) = true := by decide
    rw [hl] at hc
    exact forall_mem_of_all (hall _ hw) c hc

theorem exists_chars_eq_lead_append (t : Ty) :
    ∃ rest, t.chars = t.lead ++ rest ∧ (rest = [] ∨ ∃ c ∈ delimiters, ∃ cs, rest = c :: cs) := by
  have hopen : '(' ∈ delimiters := by decide
  cases t with
  | nominal name params => exact ⟨_, chars_nominal name params, .inr ⟨_, hopen, _, rfl⟩⟩
  | tuple params => exact ⟨_, chars_tuple params, .inr ⟨_, hopen, _, rfl⟩⟩
  | union members => exact ⟨_, chars_union members, .inr ⟨_, hopen, _, rfl⟩⟩
  | var v => exact ⟨_, chars_toTy v, .inr ⟨_, hopen, _, rfl⟩⟩
  | layer v body => exact ⟨_, chars_over v body, .inr ⟨_, hopen, _, rfl⟩⟩
  | vararg element count => exact ⟨_, chars_vararg element count, .inr ⟨_, hopen, _, rfl⟩⟩
  | symbol name => exact ⟨_, chars_symbol name, .inr ⟨_, hopen, _, rfl⟩⟩
  | bareName name => exact ⟨_, name.toList_inspect, .inr ⟨_, hopen, _, rfl⟩⟩
  | value scalar =>
    cases scalar with
    | text s =>
      obtain ⟨cs, h | h⟩ := exists_quote_eq_cons s
      · exact ⟨_, h, .inr ⟨_, by decide, cs, rfl⟩⟩
      · exact ⟨_, h, .inr ⟨_, by decide, cs, rfl⟩⟩
    | _ => exact ⟨[], (List.append_nil _).symm, .inl rfl⟩

/-- The leading word can be read off a displayed form. -/
theorem takeWhile_chars_append (t : Ty) {r : List Char} (hr : Stops r) :
    (t.chars ++ r).takeWhile (fun c => decide (c ∉ delimiters)) = t.lead := by
  have hlead : ∀ c ∈ t.lead, decide (c ∉ delimiters) = true := by
    intro c hc
    exact decide_eq_true (notMem_delimiters_of_mem_lead hc)
  obtain ⟨rest, h, hrest⟩ := exists_chars_eq_lead_append t
  rw [h, List.append_assoc, List.takeWhile_append_of_pos hlead]
  have hnil : (rest ++ r).takeWhile (fun c => decide (c ∉ delimiters)) = [] := by
    obtain rfl | ⟨c, hc, cs, rfl⟩ := hrest
    · cases hr <;> rfl
    · rw [List.cons_append, List.takeWhile_cons_of_neg]
      simpa using hc
  rw [hnil, List.append_nil]

theorem lead_ne_nil {t : Ty} (ht : ∀ s, t ≠ .value (.text s)) : t.lead ≠ [] := by
  obtain ⟨scalar, rfl⟩ | ⟨hw, hl⟩ := value_or_kindWord t
  · cases scalar with
    | null => exact (by decide : "None".toList ≠ [])
    | bool b =>
      cases b with
      | true => exact (by decide : "True".toList ≠ [])
      | false => exact (by decide : "False".toList ≠ [])
    | int n => exact toString_ne_nil n
    | float x =>
      obtain ⟨c, hc, -⟩ := x.exists_mem_write
      rw [lead_float]
      exact List.ne_nil_of_mem hc
    | text s => exact absurd rfl (ht s)
  · have hall : ∀ w ∈ kindWords, w.toList ≠ [] := by decide
    rw [hl]
    exact hall _ hw

theorem sameKind_of_label {a b : Ty} (ha : a.label ∈ kindWords) (hb : b.label ∈ kindWords)
    (h : a.label = b.label) : SameKind a b := by
  have hvalue : ∀ scalar, (Ty.value scalar).label ∉ kindWords := by
    intro scalar
    cases scalar <;> simp only [label] <;> decide
  cases a <;> cases b <;> first
    | constructor
    | exact absurd ha (hvalue _)
    | exact absurd hb (hvalue _)
    | simp [label, TypeVar.toTy, TypeVar.over] at h

theorem lead_value_ne {scalar : Scalar} {w : String} (hw : w ∈ kindWords) :
    lead (.value scalar) ≠ w.toList := by
  intro h
  have hfig : ¬∀ c ∈ lead (.value scalar), Figure c := by
    intro hall
    have hcap : ∀ w ∈ kindWords, w.toList.any (· ∈ ['D', 'T', 'U', 'V', 'S']) = true := by decide
    obtain ⟨c, hc, hcap⟩ := List.any_eq_true.mp (hcap w hw)
    exact (hall c (h ▸ hc)).notMem (forall_mem_of_all (by decide)) (of_decide_eq_true hcap)
  cases scalar with
  | null => exact (by decide : ∀ w ∈ kindWords, "None".toList ≠ w.toList) w hw h
  | bool b =>
    cases b with
    | true => exact (by decide : ∀ w ∈ kindWords, "True".toList ≠ w.toList) w hw h
    | false => exact (by decide : ∀ w ∈ kindWords, "False".toList ≠ w.toList) w hw h
  | int n => exact hfig fun c => figure_of_mem_int
  | float x => exact hfig fun c => figure_of_mem_float
  | text s => exact hfig fun c hc => absurd hc List.not_mem_nil

theorem sameKind_of_lead {a b : Ty} (h : a.lead = b.lead) : SameKind a b := by
  obtain ⟨scalar, rfl⟩ | ⟨ha, hla⟩ := value_or_kindWord a
  · obtain ⟨scalar', rfl⟩ | ⟨hb, hlb⟩ := value_or_kindWord b
    · exact .value
    · rw [hlb] at h
      exact absurd h (lead_value_ne hb)
  · obtain ⟨scalar', rfl⟩ | ⟨hb, hlb⟩ := value_or_kindWord b
    · rw [hla] at h
      exact absurd h.symm (lead_value_ne ha)
    · rw [hla, hlb] at h
      exact sameKind_of_label ha hb (String.toList_inj.mp h)

/-- No number is written like `None`, `True` or `False`. -/
theorem exists_mem_lead_not_figure {s : Scalar} (h : s = .null ∨ ∃ b, s = .bool b) :
    ∃ c ∈ lead (.value s), ¬Figure c := by
  have hcap : ∀ {c}, c ∈ ['N', 'T', 'F'] → ¬Figure c := by
    intro c hc hf
    exact hf.notMem (forall_mem_of_all (by decide)) hc
  obtain rfl | ⟨b, rfl⟩ := h
  · exact ⟨'N', by decide, hcap (by decide)⟩
  · cases b with
    | true => exact ⟨'T', by decide, hcap (by decide)⟩
    | false => exact ⟨'F', by decide, hcap (by decide)⟩

theorem lead_int_ne_float {n : Int} {x : FloatLit} :
    lead (.value (.int n)) ≠ lead (.value (.float x)) := by
  intro h
  obtain ⟨c, hc, hd, hm⟩ := x.exists_mem_write
  rw [← lead_float, ← h] at hc
  obtain h | h := chars_toString hc
  · rw [h] at hd
    cases hd
  · exact hm h

theorem scalar_shown_of_lead {s s' : Scalar} (ht : ∀ text, s ≠ .text text)
    (h : lead (.value s) = lead (.value s')) : s.shown = s'.shown := by
  have htext : ∀ text, s' ≠ .text text := by
    rintro text rfl
    exact lead_ne_nil (fun text he => ht text (Ty.value.inj he)) h
  have hword : (s = .null ∨ ∃ b, s = .bool b) → ∃ c ∈ lead (.value s'), ¬Figure c :=
    fun hw => h ▸ exists_mem_lead_not_figure hw
  have hword' : (s' = .null ∨ ∃ b, s' = .bool b) → ∃ c ∈ lead (.value s), ¬Figure c :=
    fun hw => h ▸ exists_mem_lead_not_figure hw
  cases s with
  | null =>
    obtain ⟨c, hc, hf⟩ := hword (.inl rfl)
    cases s' with
    | null => rfl
    | bool b => cases b <;> exact absurd h (by decide)
    | int n => exact absurd (figure_of_mem_int hc) hf
    | float x => exact absurd (figure_of_mem_float hc) hf
    | text text => exact absurd rfl (htext text)
  | bool b =>
    obtain ⟨c, hc, hf⟩ := hword (.inr ⟨b, rfl⟩)
    cases s' with
    | null => cases b <;> exact absurd h (by decide)
    | bool b' =>
      cases b <;> cases b' <;> first
        | rfl
        | exact absurd h (by decide)
    | int n => exact absurd (figure_of_mem_int hc) hf
    | float x => exact absurd (figure_of_mem_float hc) hf
    | text text => exact absurd rfl (htext text)
  | int n =>
    cases s' with
    | null =>
      obtain ⟨c, hc, hf⟩ := hword' (.inl rfl)
      exact absurd (figure_of_mem_int hc) hf
    | bool b =>
      obtain ⟨c, hc, hf⟩ := hword' (.inr ⟨b, rfl⟩)
      exact absurd (figure_of_mem_int hc) hf
    | int n' => rw [toString_inj h]
    | float x => exact absurd h lead_int_ne_float
    | text text => exact absurd rfl (htext text)
  | float x =>
    cases s' with
    | null =>
      obtain ⟨c, hc, hf⟩ := hword' (.inl rfl)
      exact absurd (figure_of_mem_float hc) hf
    | bool b =>
      obtain ⟨c, hc, hf⟩ := hword' (.inr ⟨b, rfl⟩)
      exact absurd (figure_of_mem_float hc) hf
    | int n => exact absurd h.symm lead_int_ne_float
    | float x' =>
      rw [lead_float, lead_float] at h
      exact congrArg Scalar.float (FloatLit.write_inj h)
    | text text => exact absurd rfl (htext text)
  | text text => exact absurd rfl (ht text)

theorem lead_eq_of_chars {a b : Ty} {r r' : List Char} (hr : Stops r) (hr' : Stops r')
    (h : a.chars ++ r = b.chars ++ r') : a.lead = b.lead := by
  rw [← takeWhile_chars_append a hr, ← takeWhile_chars_append b hr', h]

theorem value_append_inj {s s' : Scalar} {r r' : List Char} (hr : Stops r) (hr' : Stops r')
    (h : chars (.value s) ++ r = chars (.value s') ++ r') : s.shown = s'.shown ∧ r = r' := by
  have hlead := lead_eq_of_chars hr hr' h
  by_cases ht : ∃ text, s = .text text
  · obtain ⟨text, rfl⟩ := ht
    by_cases ht' : ∃ text', s' = .text text'
    · obtain ⟨text', rfl⟩ := ht'
      obtain ⟨rfl, hr⟩ := quote_append_inj h
      exact ⟨rfl, hr⟩
    · have hne : lead (.value s') ≠ [] :=
        lead_ne_nil fun text' he => ht' ⟨text', Ty.value.inj he⟩
      exact absurd hlead.symm hne
  · have hs := scalar_shown_of_lead (fun text he => ht ⟨text, he⟩) hlead
    have hchars : chars (.value s) = chars (.value s') := by
      rw [chars_value, chars_value, ← s.inspect_shown, hs, s'.inspect_shown]
    rw [hchars] at h
    exact ⟨hs, List.append_cancel_left h⟩

theorem chars_append_ne_close (t : Ty) (r cs : List Char) : t.chars ++ r ≠ ')' :: cs := by
  intro h
  by_cases ht : ∃ s, t = .value (.text s)
  · obtain ⟨s, rfl⟩ := ht
    obtain ⟨ds, hq | hq⟩ := exists_quote_eq_cons s
    · have h' : (quote s).toList ++ r = ')' :: cs := h
      rw [hq] at h'
      exact absurd (List.cons.inj h').1 (by decide)
    · have h' : (quote s).toList ++ r = ')' :: cs := h
      rw [hq] at h'
      exact absurd (List.cons.inj h').1 (by decide)
  · obtain ⟨rest, hc, -⟩ := exists_chars_eq_lead_append t
    obtain ⟨c, lead, hl⟩ := List.exists_cons_of_ne_nil (lead_ne_nil fun s he => ht ⟨s, he⟩)
    rw [hc, hl] at h
    have hmem : ')' ∈ t.lead := by
      rw [hl, ← (List.cons.inj h).1]
      exact List.mem_cons_self
    exact notMem_delimiters_of_mem_lead hmem (by decide)

/-- The displayed form of `a` tells it from every type that looks different. -/
def Told (a : Ty) : Prop :=
  ∀ (b : Ty) (r r' : List Char), Stops r → Stops r' → a.chars ++ r = b.chars ++ r' →
    a.shown = b.shown ∧ r = r'

theorem stops_charsRest (ts : List Ty) (r : List Char) : Stops (charsRest ts ++ r) := by
  cases ts with
  | nil => exact .close
  | cons t ts => exact .comma

theorem charsRest_append_inj {as bs : List Ty} {r r' : List Char} (has : ∀ a ∈ as, Told a)
    (h : charsRest as ++ r = charsRest bs ++ r') : as.map shown = bs.map shown ∧ r = r' := by
  induction as generalizing bs with
  | nil =>
    cases bs with
    | nil => exact ⟨rfl, List.append_cancel_left h⟩
    | cons b bs => exact absurd (List.cons.inj h).1 (by decide)
  | cons a as ih =>
    cases bs with
    | nil => exact absurd (List.cons.inj h).1 (by decide)
    | cons b bs =>
      rw [List.forall_mem_cons] at has
      simp only [charsRest, List.cons_append, List.append_assoc, List.cons.injEq, true_and] at h
      obtain ⟨ha, hrest⟩ := has.1 b _ _ (stops_charsRest as r) (stops_charsRest bs r') h
      obtain ⟨has, hr⟩ := ih has.2 hrest
      exact ⟨by rw [List.map_cons, List.map_cons, ha, has], hr⟩

def charsAfter : List Ty → List Char
  | [] => [',', ')']
  | t :: ts => charsRest (t :: ts)

theorem charsAll_cons (t : Ty) (ts : List Ty) :
    charsAll (t :: ts) = '(' :: (chars t ++ charsAfter ts) := by
  cases ts with
  | nil => exact charsAll_single t
  | cons u us => exact charsAll_cons_cons t u us

theorem charsAll_append_inj {as bs : List Ty} {r r' : List Char} (has : ∀ a ∈ as, Told a)
    (h : charsAll as ++ r = charsAll bs ++ r') : shownAll as = shownAll bs ∧ r = r' := by
  have hstops : ∀ ts r, Stops (charsAfter ts ++ r) := by
    intro ts r
    cases ts <;> exact .comma
  cases as with
  | nil =>
    cases bs with
    | nil => exact ⟨rfl, List.append_cancel_left h⟩
    | cons b bs =>
      rw [charsAll_nil, charsAll_cons] at h
      simp only [List.cons_append, List.append_assoc] at h
      exact absurd (List.cons.inj h).2.symm (chars_append_ne_close b _ _)
  | cons a as =>
    cases bs with
    | nil =>
      rw [charsAll_nil, charsAll_cons] at h
      simp only [List.cons_append, List.append_assoc] at h
      exact absurd (List.cons.inj h).2 (chars_append_ne_close a _ _)
    | cons b bs =>
      rw [List.forall_mem_cons] at has
      simp only [charsAll_cons, List.cons_append, List.append_assoc, List.cons.injEq,
        true_and] at h
      obtain ⟨ha, hafter⟩ := has.1 b _ _ (hstops as r) (hstops bs r') h
      rw [shownAll, shownAll, ha]
      cases as with
      | nil =>
        cases bs with
        | nil => exact ⟨rfl, List.append_cancel_left hafter⟩
        | cons b' bs => exact absurd (List.cons.inj (List.cons.inj hafter).2).1 (by decide)
      | cons a' as =>
        cases bs with
        | nil => exact absurd (List.cons.inj (List.cons.inj hafter).2).1 (by decide)
        | cons b' bs =>
          obtain ⟨he, hr⟩ := charsRest_append_inj has.2 hafter
          exact ⟨by rw [shownAll_eq_map, shownAll_eq_map, he], hr⟩

theorem toTy_append_inj {v w : TypeVar} {r r' : List Char} (hl : Told v.lower)
    (hu : Told v.upper) (h : v.toTy.chars ++ r = w.toTy.chars ++ r') :
    (v.name = w.name ∧ v.lower.shown = w.lower.shown ∧ v.upper.shown = w.upper.shown) ∧
      r = r' := by
  simp only [chars_toTy, List.append_assoc, List.cons_append] at h
  have h := List.append_cancel_left (List.cons.inj (List.append_cancel_left h)).2
  obtain ⟨hname, h⟩ := quote_append_inj h
  have h := List.append_cancel_left (List.cons.inj h).2
  obtain ⟨hlower, h⟩ := hl _ _ _ .comma .comma h
  have h := List.append_cancel_left (List.cons.inj h).2
  obtain ⟨hupper, h⟩ := hu _ _ _ .close .close h
  exact ⟨⟨hname, hlower, hupper⟩, (List.cons.inj h).2⟩

theorem told (a : Ty) : Told a := by
  induction a with
  | nominal name params ih =>
    intro b r r' hr hr' h
    cases sameKind_of_lead (lead_eq_of_chars hr hr' h)
    rename_i name' params'
    simp only [chars_nominal, List.append_assoc, List.cons_append] at h
    have h := List.append_cancel_left (List.cons.inj (List.append_cancel_left h)).2
    obtain ⟨hname, h⟩ := TypeName.inspect_append_inj h
    have h := List.append_cancel_left (List.cons.inj h).2
    obtain ⟨hparams, h⟩ := charsAll_append_inj ih h
    exact ⟨by rw [shown, shown, hname, hparams], (List.cons.inj h).2⟩
  | tuple params ih =>
    intro b r r' hr hr' h
    cases sameKind_of_lead (lead_eq_of_chars hr hr' h)
    simp only [chars_tuple, List.append_assoc, List.cons_append] at h
    have h := List.append_cancel_left (List.cons.inj (List.append_cancel_left h)).2
    obtain ⟨hparams, h⟩ := charsAll_append_inj ih h
    exact ⟨by rw [shown, shown, hparams], (List.cons.inj h).2⟩
  | union members ih =>
    intro b r r' hr hr' h
    cases sameKind_of_lead (lead_eq_of_chars hr hr' h)
    simp only [chars_union, List.append_assoc, List.cons_append] at h
    have h := List.append_cancel_left (List.cons.inj (List.append_cancel_left h)).2
    obtain ⟨hmembers, h⟩ := charsAll_append_inj ih h
    exact ⟨by rw [shown, shown, hmembers], (List.cons.inj h).2⟩
  | var v ihl ihu =>
    intro b r r' hr hr' h
    cases sameKind_of_lead (lead_eq_of_chars hr hr' h)
    rename_i name lower upper
    obtain ⟨⟨hname, hlower, hupper⟩, hr⟩ :=
      toTy_append_inj (w := ⟨name, lower, upper⟩) ihl ihu h
    exact ⟨by rw [TypeVar.toTy, shown, shown, hname, hlower, hupper], hr⟩
  | layer v body ihl ihu ihb =>
    intro b r r' hr hr' h
    cases sameKind_of_lead (lead_eq_of_chars hr hr' h)
    rename_i name lower upper body'
    let w : TypeVar := ⟨name, lower, upper⟩
    have h : (v.over body).chars ++ r = (w.over body').chars ++ r' := h
    simp only [chars_over, List.append_assoc, List.cons_append] at h
    have h := List.append_cancel_left (List.cons.inj (List.append_cancel_left h)).2
    obtain ⟨⟨hname, hlower, hupper⟩, h⟩ := toTy_append_inj ihl ihu h
    have h := List.append_cancel_left (List.cons.inj h).2
    obtain ⟨hbody, h⟩ := ihb _ _ _ .close .close h
    exact ⟨by rw [TypeVar.over, shown, shown, hname, hlower, hupper, hbody], (List.cons.inj h).2⟩
  | vararg element count ihe ihc =>
    intro b r r' hr hr' h
    cases sameKind_of_lead (lead_eq_of_chars hr hr' h)
    simp only [chars_vararg, List.append_assoc, List.cons_append] at h
    have h := List.append_cancel_left (List.cons.inj (List.append_cancel_left h)).2
    obtain ⟨helement, h⟩ := ihe _ _ _ .comma .comma h
    have h := List.append_cancel_left (List.cons.inj h).2
    obtain ⟨hcount, h⟩ := ihc _ _ _ .close .close h
    exact ⟨by rw [shown, shown, helement, hcount], (List.cons.inj h).2⟩
  | symbol name =>
    intro b r r' hr hr' h
    cases sameKind_of_lead (lead_eq_of_chars hr hr' h)
    simp only [chars_symbol, List.append_assoc, List.cons_append] at h
    have h := List.append_cancel_left (List.cons.inj (List.append_cancel_left h)).2
    obtain ⟨hname, h⟩ := quote_append_inj h
    exact ⟨by rw [hname], (List.cons.inj h).2⟩
  | bareName name =>
    intro b r r' hr hr' h
    cases sameKind_of_lead (lead_eq_of_chars hr hr' h)
    obtain ⟨hname, hr⟩ := TypeName.inspect_append_inj h
    exact ⟨by rw [hname], hr⟩
  | value scalar =>
    intro b r r' hr hr' h
    cases sameKind_of_lead (lead_eq_of_chars hr hr' h)
    obtain ⟨hscalar, hr⟩ := value_append_inj hr hr' h
    exact ⟨by rw [shown, shown, hscalar], hr⟩

theorem shown_of_inspect {a b : Ty} (h : a.inspect = b.inspect) : a.shown = b.shown := by
  have hchars : a.chars ++ [] = b.chars ++ [] := by rw [chars, chars, h]
  exact (told a b [] [] .nil .nil hchars).1

theorem charsAll_shownAll {ts : List Ty} (h : ∀ t ∈ ts, t.shown.chars = t.chars) :
    charsAll (shownAll ts) = charsAll ts := by
  have hinspect : inspectAll (shownAll ts) = inspectAll ts := by
    induction ts with
    | nil => rfl
    | cons t ts ih =>
      obtain ⟨ht, hts⟩ := List.forall_mem_cons.mp h
      rw [shownAll, inspectAll, inspectAll, String.toList_inj.mp ht, ih hts]
  rw [charsAll, charsAll, hinspect]

theorem chars_shown (t : Ty) : t.shown.chars = t.chars := by
  have htoTy : ∀ {v : TypeVar}, v.lower.shown.chars = v.lower.chars →
      v.upper.shown.chars = v.upper.chars →
        (TypeVar.mk v.name v.lower.shown v.upper.shown).toTy.chars = v.toTy.chars := by
    intro v hl hu
    rw [chars_toTy, chars_toTy, hl, hu]
  induction t with
  | nominal name params ih => rw [shown, chars_nominal, chars_nominal, charsAll_shownAll ih]
  | tuple params ih => rw [shown, chars_tuple, chars_tuple, charsAll_shownAll ih]
  | union members ih => rw [shown, chars_union, chars_union, charsAll_shownAll ih]
  | var v ihl ihu => exact htoTy ihl ihu
  | layer v body ihl ihu ihb =>
    have hover : (v.over body).shown =
        (TypeVar.mk v.name v.lower.shown v.upper.shown).over body.shown := rfl
    rw [hover, chars_over, chars_over, htoTy ihl ihu, ihb]
  | vararg element count ihe ihc => rw [shown, chars_vararg, chars_vararg, ihe, ihc]
  | symbol name => rfl
  | bareName name => rfl
  | value scalar => rw [shown, chars_value, chars_value, scalar.inspect_shown]

theorem inspect_shown (t : Ty) : t.shown.inspect = t.inspect :=
  String.toList_inj.mp t.chars_shown

def AllDefined (t : Ty) : Prop :=
  Everywhere (fun s => s.isNan = false) t

theorem shownAll_of_forall {ts : List Ty} (h : ∀ t ∈ ts, t.shown = t) : shownAll ts = ts := by
  rw [shownAll_eq_map]
  exact (List.map_congr_left h).trans (List.map_id' ts)

/-- Everything is shown of a type in which all numbers are defined. -/
theorem shown_of_allDefined {t : Ty} (h : AllDefined t) : t.shown = t := by
  induction t with
  | nominal name params ih =>
    rw [shown, shownAll_of_forall fun p hp => ih p hp ((everywhere_nominal.mp h).2 p hp)]
  | tuple params ih =>
    rw [shown, shownAll_of_forall fun p hp => ih p hp ((everywhere_tuple.mp h).2 p hp)]
  | union members ih =>
    rw [shown, shownAll_of_forall fun m hm => ih m hm ((everywhere_union.mp h).2 m hm)]
  | var v ihl ihu =>
    obtain ⟨-, hl, hu⟩ := everywhere_toTy.mp h
    rw [TypeVar.toTy, shown, ihl hl, ihu hu]
  | layer v body ihl ihu ihb =>
    obtain ⟨-, hl, hu, hb⟩ := everywhere_over.mp h
    rw [TypeVar.over, shown, ihl hl, ihu hu, ihb hb]
  | vararg element count ihe ihc =>
    obtain ⟨-, he, hc⟩ := everywhere_vararg.mp h
    rw [shown, ihe he, ihc hc]
  | symbol name => rfl
  | bareName name => rfl
  | value scalar =>
    cases scalar with
    | float x => rw [shown, Scalar.shown, FloatLit.shown_of_not_isNan h.node]
    | _ => rfl

theorem inspect_inj {a b : Ty} (ha : AllDefined a) (hb : AllDefined b)
    (h : a.inspect = b.inspect) : a = b := by
  rw [← shown_of_allDefined ha, ← shown_of_allDefined hb, shown_of_inspect h]

end Ty

end Anatomy
