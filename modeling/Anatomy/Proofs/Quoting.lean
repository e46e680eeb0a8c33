import Mathlib.Algebra.Group.Nat.Defs
import Mathlib.Data.List.Basic
import Anatomy.Text.Quoted

namespace Anatomy.Text.Quoted

theorem length_hexDigits (width n : Nat) : (hexDigits width n).length = width := by
  induction width generalizing n with
  | zero => rfl
  | succ width ih => simp [hexDigits, ih]

theorem digitChar_inj {m n : Nat} (hm : m < 16) (hn : n < 16)
    (h : Nat.digitChar m = Nat.digitChar n) : m = n := by
  have hall : ∀ m n : Fin 16, Nat.digitChar m = Nat.digitChar n → m = n := by decide
  exact congrArg Fin.val (hall ⟨m, hm⟩ ⟨n, hn⟩ h)

theorem hexDigits_inj {width m n : Nat} (hm : m < 16 ^ width) (hn : n < 16 ^ width)
    (h : hexDigits width m = hexDigits width n) : m = n := by
  induction width generalizing m n with
  | zero =>
    rw [Nat.pow_zero] at hm hn
    omega
  | succ width ih =>
    rw [hexDigits, hexDigits] at h
    obtain ⟨hq, hr⟩ := List.append_inj' h rfl
    have hq' := ih (Nat.div_lt_of_lt_mul (by omega)) (Nat.div_lt_of_lt_mul (by omega)) hq
    have hr' := digitChar_inj (Nat.mod_lt m (by decide)) (Nat.mod_lt n (by decide))
      (List.head_eq_of_cons_eq hr)
    omega

/-- The ways in which a character is spelled between two delimiters. -/
inductive Spelling (delim c : Char) : List Char → Prop
  | plain (hd : c ≠ delim) (hb : c ≠ backslash) : Spelling delim c [c]
  | marked (h : c = delim ∨ c = backslash) : Spelling delim c [backslash, c]
  | named (letter : Char) (h : (c, letter) ∈ [('\n', 'n'), ('\r', 'r'), ('\t', 't')]) :
      Spelling delim c [backslash, letter]
  | numbered (letter : Char) (width : Nat) (hw : (letter, width) ∈ [('x', 2), ('u', 4), ('U', 8)])
      (hn : c.toNat < 16 ^ width) :
      Spelling delim c (backslash :: letter :: hexDigits width c.toNat)

theorem spelling_escape (delim c : Char) : Spelling delim c (escape delim c) := by
  have hmax : c.toNat < 16 ^ 8 := by
    have hv : c.toNat < 0xD800 ∨ 0xDFFF < c.toNat ∧ c.toNat < 0x110000 := c.valid
    omega
  unfold escape
  by_cases h : c = delim ∨ c = backslash
  · rw [if_pos (by simpa using h)]
    exact .marked h
  rw [if_neg (by simpa using h)]
  obtain ⟨hd, hb⟩ := not_or.mp h
  split
  · exact .named 'n' (by simp [*])
  split
  · exact .named 'r' (by simp [*])
  split
  · exact .named 't' (by simp [*])
  split
  · exact .plain hd hb
  split
  · exact .numbered 'x' 2 (by simp) (by omega)
  split
  · exact .numbered 'u' 4 (by simp) (by omega)
  · exact .numbered 'U' 8 (by simp) hmax

/-- No spelling of a character is the beginning of that of another. -/
theorem Spelling.append_inj {delim c c' : Char} {s s' r r' : List Char}
    (hd : delim = apostrophe ∨ delim = doubleQuote) (h : Spelling delim c s)
    (h' : Spelling delim c' s') (he : s ++ r = s' ++ r') : c = c' ∧ r = r' := by
  have hm : ∀ {a : Char}, a = delim ∨ a = backslash → a ∉ ['n', 'r', 't', 'x', 'u', 'U'] := by
    rintro a (rfl | rfl)
    · obtain rfl | rfl := hd <;> decide
    · decide
  cases h with
  | plain _ hb =>
    cases h' with
    | plain _ _ => simpa using he
    | marked _ | named _ _ | numbered _ _ _ _ => exact absurd (List.head_eq_of_cons_eq he) hb
  | marked hc =>
    have hc := hm hc
    cases h' with
    | plain _ hb => exact absurd (List.head_eq_of_cons_eq he).symm hb
    | marked _ => simpa using he
    | named _ _ | numbered _ _ _ _ => grind
  | named letter hl =>
    cases h' with
    | plain _ hb => exact absurd (List.head_eq_of_cons_eq he).symm hb
    | marked hc =>
      have hc := hm hc
      grind
    | named _ _ | numbered _ _ _ _ => grind
  | numbered letter width hw hn =>
    cases h' with
    | plain _ hb => exact absurd (List.head_eq_of_cons_eq he).symm hb
    | marked hc =>
      have hc := hm hc
      grind
    | named _ _ => grind
    | numbered letter' width' hw' hn' =>
      simp only [List.cons_append, List.cons.injEq, true_and] at he
      obtain ⟨rfl, he⟩ := he
      obtain rfl : width = width' := by grind
      have hl : (hexDigits width c.toNat).length = (hexDigits width c'.toNat).length := by
        rw [length_hexDigits, length_hexDigits]
      obtain ⟨hx, hr⟩ := List.append_inj he hl
      exact ⟨Char.toNat_inj.mp (hexDigits_inj hn hn' hx), hr⟩

theorem delimiter_cases (cs : List Char) :
    delimiter cs = apostrophe ∨ delimiter cs = doubleQuote := by
  unfold delimiter
  split
  · exact .inr rfl
  · exact .inl rfl

theorem Spelling.ne_delimiter {delim c : Char} {s r r' : List Char}
    (hd : delim = apostrophe ∨ delim = doubleQuote) (h : Spelling delim c s) :
    s ++ r ≠ delim :: r' := by
  have hb : backslash ≠ delim := by obtain rfl | rfl := hd <;> decide
  intro he
  cases h with
  | plain hc _ => exact hc (List.head_eq_of_cons_eq he)
  | marked _ | named _ _ | numbered _ _ _ _ => exact hb (List.head_eq_of_cons_eq he)

theorem flatMap_escape_inj {delim : Char} (hd : delim = apostrophe ∨ delim = doubleQuote)
    {cs cs' r r' : List Char}
    (h : cs.flatMap (escape delim) ++ delim :: r = cs'.flatMap (escape delim) ++ delim :: r') :
    cs = cs' ∧ r = r' := by
  induction cs generalizing cs' with
  | nil =>
    cases cs' with
    | nil => simpa using h
    | cons c' cs' =>
      rw [List.flatMap_nil, List.nil_append, List.flatMap_cons, List.append_assoc] at h
      exact absurd h.symm ((spelling_escape delim c').ne_delimiter hd)
  | cons c cs ih =>
    rw [List.flatMap_cons, List.append_assoc] at h
    cases cs' with
    | nil => exact absurd h ((spelling_escape delim c).ne_delimiter hd)
    | cons c' cs' =>
      rw [List.flatMap_cons, List.append_assoc] at h
      obtain ⟨rfl, ht⟩ := (spelling_escape delim c).append_inj hd (spelling_escape delim c') h
      obtain ⟨rfl, hr⟩ := ih ht
      exact ⟨rfl, hr⟩

/-- A quoted text says where it ends and what it holds. -/
theorem quote_append_inj {s s' : String} {r r' : List Char}
    (h : (quote s).toList ++ r = (quote s').toList ++ r') : s = s' ∧ r = r' := by
  simp only [quote, quoteChars, String.toList_ofList, List.cons_append, List.append_assoc,
    List.nil_append, List.cons.injEq] at h
  obtain ⟨hd, h⟩ := h
  rw [← hd] at h
  obtain ⟨hs, hr⟩ := flatMap_escape_inj (delimiter_cases _) h
  exact ⟨String.toList_inj.mp hs, hr⟩

theorem exists_quote_eq_cons (s : String) : ∃ cs,
    (quote s).toList = apostrophe :: cs ∨ (quote s).toList = doubleQuote :: cs := by
  simp only [quote, quoteChars, String.toList_ofList]
  obtain hd | hd := delimiter_cases s.toList
  · rw [hd]
    exact ⟨_, .inl rfl⟩
  · rw [hd]
    exact ⟨_, .inr rfl⟩

end Anatomy.Text.Quoted
