import Anatomy.Settings
import Anatomy.Proofs.Unions

namespace Anatomy

namespace Text.Blank

structure Trimmed (text core : String) : Prop where
  blanks : ∃ front back, text.toList = front ++ core.toList ++ back ∧
    (∀ c ∈ front, isBlank c = true) ∧ ∀ c ∈ back, isBlank c = true
  first : ∀ c ∈ core.toList.head?, isBlank c = false
  last : ∀ c ∈ core.toList.getLast?, isBlank c = false

theorem dropWhile_isBlank_append {front rest : List Char} (hfront : ∀ c ∈ front, isBlank c = true)
    (hrest : ∀ c ∈ rest.head?, isBlank c = false) : (front ++ rest).dropWhile isBlank = rest := by
  rw [List.dropWhile_append_of_pos hfront]
  cases rest with
  | nil => rfl
  | cons c rest => simp [hrest c rfl]

theorem exists_eq_append_dropWhile (cs : List Char) :
    ∃ front, cs = front ++ cs.dropWhile isBlank ∧ (∀ c ∈ front, isBlank c = true) ∧
      ∀ c ∈ (cs.dropWhile isBlank).head?, isBlank c = false := by
  refine ⟨cs.takeWhile isBlank, List.takeWhile_append_dropWhile.symm, ?_, ?_⟩
  · exact List.all_eq_true.mp List.all_takeWhile
  · intro c hc
    have h := List.head?_dropWhile_not isBlank cs
    rwa [Option.mem_def.mp hc] at h

theorem trimChars_append {front core back : List Char} (hfront : ∀ c ∈ front, isBlank c = true)
    (hback : ∀ c ∈ back, isBlank c = true) (hfirst : ∀ c ∈ core.head?, isBlank c = false)
    (hlast : ∀ c ∈ core.getLast?, isBlank c = false) :
    trimChars (front ++ core ++ back) = core := by
  have hback' : ∀ c ∈ back.reverse, isBlank c = true := by simpa using hback
  rw [← List.head?_reverse] at hlast
  cases core with
  | nil =>
    have hall : ∀ c ∈ front ++ back, isBlank c = true :=
      fun c hc => (List.mem_append.mp hc).elim (hfront c) (hback c)
    have hnil : (front ++ back).dropWhile isBlank = [] := List.dropWhile_eq_nil_iff.mpr hall
    rw [List.append_nil, trimChars, hnil]
    rfl
  | cons c core =>
    rw [trimChars, List.append_assoc, dropWhile_isBlank_append hfront (by simpa using hfirst),
      List.reverse_append, dropWhile_isBlank_append hback' hlast,
      List.reverse_reverse]

theorem trimmed_trim (text : String) : Trimmed text (trim text) := by
  obtain ⟨front, hfront, hblank, hfirst⟩ := exists_eq_append_dropWhile text.toList
  obtain ⟨back, hback, hblank', hlast⟩ :=
    exists_eq_append_dropWhile (text.toList.dropWhile isBlank).reverse
  have hcore : (trim text).toList =
      ((text.toList.dropWhile isBlank).reverse.dropWhile isBlank).reverse := by
    rw [trim, String.toList_ofList, trimChars]
  have hrest : text.toList.dropWhile isBlank = (trim text).toList ++ back.reverse := by
    rw [hcore, ← List.reverse_append, ← hback, List.reverse_reverse]
  refine ⟨⟨front, back.reverse, ?_, hblank, by simpa using hblank'⟩, ?_, ?_⟩
  · rw [List.append_assoc, ← hrest]
    exact hfront
  · intro c hc
    apply hfirst c
    rw [hrest, List.head?_append, Option.mem_def.mp hc]
    rfl
  · rw [hcore, List.getLast?_reverse]
    exact hlast

theorem trimmed_iff {text core : String} : Trimmed text core ↔ trim text = core := by
  constructor
  · rintro ⟨⟨front, back, htext, hfront, hback⟩, hfirst, hlast⟩
    rw [trim, htext, trimChars_append hfront hback hfirst hlast, String.ofList_toList]
  · rintro rfl
    exact trimmed_trim text

theorem trimmed_self_of_trimmed {text core : String} (h : Trimmed text core) :
    Trimmed core core :=
  ⟨⟨[], [], by simp, nofun, nofun⟩, h.first, h.last⟩

end Text.Blank

namespace Text.Dotted

/-- The components of a path, between which its dots stand. -/
structure Splits (path : String) (parts : List String) : Prop where
  parts_ne_nil : parts ≠ []
  notMem : ∀ part ∈ parts, '.' ∉ part.toList
  joined : ".".intercalate parts = path

theorem splits_components (path : String) : Splits path (components path) :=
  ⟨components_ne_nil path, fun _ => notMem_components, intercalate_components path⟩

theorem Splits.eq_components {path : String} {parts : List String} (h : Splits path parts) :
    parts = components path := by
  rw [← h.joined, components_intercalate h.parts_ne_nil h.notMem]

theorem isSolid_iff {path : String} :
    isSolid path = true ↔ ∃ parts, Splits path parts ∧ "" ∉ parts := by
  have hsolid : isSolid path = true ↔ "" ∉ components path := by
    simp only [isSolid, List.all_eq_true, Bool.not_eq_true', String.isEmpty_eq_false_iff]
    exact ⟨fun h hmem => h "" hmem rfl, fun h part hpart he => h (he ▸ hpart)⟩
  rw [hsolid]
  constructor
  · intro h
    exact ⟨_, splits_components path, h⟩
  · rintro ⟨parts, hparts, h⟩
    rwa [← hparts.eq_components]

end Text.Dotted

namespace Text.Sequence

theorem pairwise_textSet (texts : List String) : (textSet texts).Pairwise (· ≤ ·) := by
  have htrans : ∀ s t u : String, decide (s ≤ t) = true → decide (t ≤ u) = true →
      decide (s ≤ u) = true := by
    simpa using fun s t u => String.le_trans
  have htotal : ∀ s t : String, (decide (s ≤ t) || decide (t ≤ s)) = true := by
    simpa using String.le_total
  exact (List.pairwise_mergeSort htrans htotal texts.eraseDups).imp of_decide_eq_true

theorem nodup_textSet (texts : List String) : (textSet texts).Nodup :=
  (List.mergeSort_perm _ _).nodup_iff.mpr (nodup_eraseDupsBy beq_self_eq_true texts)

theorem mem_textSet {texts : List String} {t : String} : t ∈ textSet texts ↔ t ∈ texts := by
  rw [textSet, List.mem_mergeSort, List.mem_eraseDups]

theorem textSet_eq {texts sorted : List String} (h : ∀ t, t ∈ texts ↔ t ∈ sorted)
    (hnodup : sorted.Nodup) (hsorted : sorted.Pairwise (· ≤ ·)) : textSet texts = sorted := by
  have hperm : (textSet texts).Perm sorted := by
    apply (List.perm_ext_iff_of_nodup (nodup_textSet texts) hnodup).mpr
    intro t
    rw [mem_textSet, h]
  exact hperm.eq_of_pairwise (fun s t _ _ => String.le_antisymm) (pairwise_textSet texts) hsorted

theorem textSet_congr {texts texts' : List String} (h : ∀ t, t ∈ texts ↔ t ∈ texts') :
    textSet texts = textSet texts' :=
  textSet_eq (fun t => (h t).trans mem_textSet.symm) (nodup_textSet texts')
    (pairwise_textSet texts')

end Text.Sequence

namespace Settings

open Text.Blank Text.Dotted Text.Sequence

def IsPath (path : String) : Prop :=
  path ≠ "" ∧ ∃ parts, Splits path parts ∧ "" ∉ parts

/-- A text is the path of a module with blanks around it. -/
def Legible (text : String) : Prop :=
  ∃ path, Trimmed text path ∧ IsPath path

/-- The description of settings in which only the visible modules are given. -/
def visibleModules (texts : List String) : Property :=
  .object [("visible_modules", .list (texts.map .text))]

theorem isPath_iff {path : String} : IsPath path ↔ isSolid path = true := by
  rw [IsPath, isSolid_iff, and_iff_right_iff_imp]
  rintro ⟨parts, hparts, hempty⟩ rfl
  have hone : parts = [""] := hparts.eq_components
  exact hempty (hone ▸ List.mem_singleton_self "")

theorem legible_iff {text : String} : Legible text ↔ modulePath? text = some (trim text) := by
  simp only [Legible, trimmed_iff, exists_eq_left', isPath_iff, modulePath?]
  split <;> simp [*]

theorem modulePaths_of_legible {texts : List String} (h : ∀ text ∈ texts, Legible text) :
    modulePaths texts = .ok (textSet (texts.map trim)) := by
  have hpaths : texts.filterMap modulePath? = texts.map trim := by
    rw [← List.filterMap_eq_map]
    exact List.filterMap_congr fun text ht => legible_iff.mp (h text ht)
  have hnone : texts.find? (fun text => (modulePath? text).isNone) = none := by
    rw [List.find?_eq_none]
    intro text ht
    simp [legible_iff.mp (h text ht)]
  rw [modulePaths, hnone, hpaths]

theorem modulePaths_of_not_legible {texts : List String} (h : ¬∀ text ∈ texts, Legible text) :
    ∃ text ∈ texts, ¬Legible text ∧ modulePaths texts = .error text := by
  cases hfind : texts.find? (fun text => (modulePath? text).isNone) with
  | some text =>
    refine ⟨text, List.mem_of_find?_eq_some hfind, ?_, by rw [modulePaths, hfind]⟩
    have hnone := List.find?_some hfind
    intro hlegible
    rw [legible_iff.mp hlegible] at hnone
    cases hnone
  | none =>
    refine absurd (fun text ht => ?_) h
    have hsome := List.find?_eq_none.mp hfind text ht
    rw [legible_iff]
    unfold modulePath? at hsome ⊢
    split at hsome <;> simp_all

theorem readVisible_texts (texts : List String) :
    readVisible (.list (texts.map .text)) =
      (modulePaths texts).mapError fun path => [⟨["visible_modules"], .badModulePath path⟩] := by
  have hissues : textIssues (texts.map .text) = [] := by
    rw [textIssues, List.filterMap_eq_nil_iff]
    intro entry hentry
    obtain ⟨i, hi, rfl⟩ := List.mem_mapIdx.mp hentry
    simp [textItem?]
  have hitems : (texts.map Property.text).filterMap textItem? = texts := by
    rw [List.filterMap_map]
    exact List.filterMap_some
  rw [readVisible, hissues, hitems]
  cases modulePaths texts <;> rfl

theorem read_visibleModules_eq (texts : List String) :
    Profile.render.read (visibleModules texts) =
      match modulePaths texts with
      | .ok paths => .ok { visible := paths }
      | .error text => .error ⟨.render, [⟨["visible_modules"], .badModulePath text⟩]⟩ := by
  simp only [Profile.read, visibleModules, readProperties, readProperty, readVisible_texts]
  cases modulePaths texts with
  | ok paths => rfl
  | error text => simp [Except.mapError]

theorem read_of_legible {texts : List String} (h : ∀ text ∈ texts, Legible text) :
    Profile.render.read (visibleModules texts) =
      .ok { visible := textSet (texts.map trim) } := by
  rw [read_visibleModules_eq, modulePaths_of_legible h]

theorem exists_read_error {texts : List String} (h : ¬∀ text ∈ texts, Legible text) :
    ∃ text ∈ texts, ¬Legible text ∧ Profile.render.read (visibleModules texts) =
      .error ⟨.render, [⟨["visible_modules"], .badModulePath text⟩]⟩ := by
  obtain ⟨text, ht, hillegible, hpaths⟩ := modulePaths_of_not_legible h
  exact ⟨text, ht, hillegible, by rw [read_visibleModules_eq, hpaths]⟩

theorem legible_of_read {texts : List String} {settings : Settings}
    (h : Profile.render.read (visibleModules texts) = .ok settings) :
    ∀ text ∈ texts, Legible text := by
  by_contra hlegible
  obtain ⟨text, -, -, herror⟩ := exists_read_error hlegible
  rw [herror] at h
  cases h

/-- What is read depends on the set of the paths alone. -/
theorem read_congr {texts texts' : List String} (h : ∀ text ∈ texts, Legible text)
    (h' : ∀ text ∈ texts', Legible text)
    (hpaths : ∀ path, path ∈ texts'.map trim ↔ path ∈ texts.map trim) :
    Profile.render.read (visibleModules texts') = Profile.render.read (visibleModules texts) := by
  rw [read_of_legible h, read_of_legible h', textSet_congr hpaths]

theorem legible_trim {text : String} (h : Legible text) :
    Legible (trim text) ∧ trim (trim text) = trim text := by
  obtain ⟨path, htrimmed, hpath⟩ := h
  have hself := trimmed_self_of_trimmed htrimmed
  obtain rfl := trimmed_iff.mp htrimmed
  exact ⟨⟨_, hself, hpath⟩, trimmed_iff.mp hself⟩

/-- A list of texts is read if each of them is the path of a module with blanks around it, and an
offending text is named if not. The visible modules are then the set of the paths. It depends
neither on the order nor on repetitions in the list, and is read from any list of its members. -/
theorem read_visibleModules (texts : List String) :
    ((∃ settings, Profile.render.read (visibleModules texts) = .ok settings) ↔
      ∀ text ∈ texts, Legible text) ∧
    (¬(∀ text ∈ texts, Legible text) →
      ∃ text ∈ texts, ¬Legible text ∧ Profile.render.read (visibleModules texts) =
        .error ⟨.render, [⟨["visible_modules"], .badModulePath text⟩]⟩) ∧
    ∀ settings, Profile.render.read (visibleModules texts) = .ok settings →
      settings = { visible := settings.visible } ∧ settings.visible.Nodup ∧
      (∀ path, path ∈ settings.visible ↔ ∃ text ∈ texts, Trimmed text path) ∧
      (∀ texts', (∀ text, text ∈ texts' ↔ text ∈ texts) →
        Profile.render.read (visibleModules texts') = .ok settings) ∧
      ∀ texts', (∀ text, text ∈ texts' ↔ text ∈ settings.visible) →
        Profile.render.read (visibleModules texts') = .ok settings := by
  refine ⟨⟨?_, ?_⟩, exists_read_error, ?_⟩
  · rintro ⟨settings, h⟩
    exact legible_of_read h
  · intro h
    exact ⟨_, read_of_legible h⟩
  · intro settings hread
    have hlegible := legible_of_read hread
    obtain rfl : { visible := textSet (texts.map trim) } = settings :=
      Except.ok.inj ((read_of_legible hlegible).symm.trans hread)
    refine ⟨rfl, nodup_textSet _, ?_, ?_, ?_⟩
    · intro path
      simp only [mem_textSet, List.mem_map, trimmed_iff]
    · intro texts' hsame
      rw [← hread]
      apply read_congr hlegible (fun text ht => hlegible text ((hsame text).mp ht))
      simp only [List.mem_map, hsame, implies_true]
    · intro texts' hsame
      have hmem : ∀ path, path ∈ texts' ↔ path ∈ texts.map trim :=
        fun path => (hsame path).trans mem_textSet
      have htrim : ∀ path ∈ texts', Legible path ∧ trim path = path := by
        intro path hpath
        obtain ⟨text, ht, rfl⟩ := List.mem_map.mp ((hmem path).mp hpath)
        exact legible_trim (hlegible text ht)
      have hself : texts'.map trim = texts' :=
        (List.map_congr_left fun path hpath => (htrim path hpath).2).trans (List.map_id _)
      rw [← hread]
      apply read_congr hlegible (fun path hpath => (htrim path hpath).1)
      rwa [hself]

theorem read_visibleModules_shapes :
    (∀ text ∈ ["\tMain.Shapes\u2003", "Core", "Main.Shapes"], Legible text) ∧
    Profile.render.read (visibleModules ["\tMain.Shapes\u2003", "Core", "Main.Shapes"]) =
      .ok { visible := ["Core", "Main.Shapes"] } ∧
    Profile.render.read (visibleModules ["Main.Shapes", "Core", "Core"]) =
      .ok { visible := ["Core", "Main.Shapes"] } ∧
    ¬∀ text ∈ ["Core", " .Main "], Legible text := by
  have hlegible : ∀ text ∈ ["\tMain.Shapes\u2003", "Core", "Main.Shapes"], Legible text := by
    simp only [legible_iff]
    decide
  have hset : textSet (["\tMain.Shapes\u2003", "Core", "Main.Shapes"].map trim) =
      ["Core", "Main.Shapes"] := by
    have htrim : ["\tMain.Shapes\u2003", "Core", "Main.Shapes"].map trim =
        ["Main.Shapes", "Core", "Main.Shapes"] := by decide
    rw [htrim]
    exact textSet_eq (by simp [or_comm]) (by decide) (by decide)
  have hread : Profile.render.read
      (visibleModules ["\tMain.Shapes\u2003", "Core", "Main.Shapes"]) =
        .ok { visible := ["Core", "Main.Shapes"] } := by
    rw [read_of_legible hlegible, hset]
  have herror : Profile.render.read (visibleModules ["Core", " .Main "]) =
      .error ⟨.render, [⟨["visible_modules"], .badModulePath " .Main "⟩]⟩ := by
    have hpaths : modulePaths ["Core", " .Main "] = .error " .Main " := by rfl
    rw [read_visibleModules_eq, hpaths]
  refine ⟨(read_visibleModules _).1.mp ⟨_, hread⟩, hread, ?_, ?_⟩
  · apply ((read_visibleModules _).2.2 _ hread).2.2.2.2
    intro text
    simp [or_comm]
  · intro h
    obtain ⟨settings, hok⟩ := (read_visibleModules _).1.mpr h
    rw [herror] at hok
    cases hok

end Settings

end Anatomy
