namespace Anatomy.Text.Dotted

def components (path : String) : List String :=
  (path.toList.splitOn '.').map String.ofList

theorem components_ne_nil (path : String) : components path ≠ [] := by
  rw [components, ne_eq, List.map_eq_nil_iff]
  exact List.splitOn_ne_nil '.' path.toList

theorem intercalate_components (path : String) : ".".intercalate (components path) = path := by
  have hdot : ".".toList = ['.'] := by decide
  rw [← String.toList_inj, String.toList_intercalate, components, List.map_map, hdot]
  simp only [Function.comp_def, String.toList_ofList, List.map_id']
  exact List.intercalate_splitOn '.'

theorem components_append (home name : String) :
    components (home ++ "." ++ name) = components home ++ components name := by
  have hpath : (home ++ "." ++ name).toList = home.toList ++ '.' :: name.toList := by simp
  rw [components, hpath, List.splitOn_append_cons_self, List.map_append, components, components]

theorem notMem_of_mem_splitOn {part cs : List Char} (h : part ∈ cs.splitOn '.') : '.' ∉ part := by
  induction cs generalizing part with
  | nil =>
    obtain rfl := List.mem_singleton.mp (List.splitOn_nil '.' ▸ h)
    exact List.not_mem_nil
  | cons c cs ih =>
    rw [List.splitOn_cons_eq_if_modifyHead] at h
    split at h
    · obtain rfl | h := List.mem_cons.mp h
      · exact List.not_mem_nil
      · exact ih h
    · next hc =>
      obtain ⟨first, rest, hparts⟩ := List.exists_cons_of_ne_nil (List.splitOn_ne_nil '.' cs)
      rw [hparts] at h ih
      obtain rfl | h := List.mem_cons.mp h
      · rw [List.mem_cons, not_or]
        exact ⟨fun he => hc (beq_iff_eq.mpr he.symm), ih List.mem_cons_self⟩
      · exact ih (List.mem_cons_of_mem _ h)

theorem notMem_components {path part : String} (h : part ∈ components path) :
    '.' ∉ part.toList := by
  obtain ⟨cs, hcs, rfl⟩ := List.mem_map.mp h
  rw [String.toList_ofList]
  exact notMem_of_mem_splitOn hcs

theorem components_of_notMem {path : String} (h : '.' ∉ path.toList) :
    components path = [path] := by
  rw [components, List.splitOn_eq_singleton h, List.map_singleton, String.ofList_toList]

theorem components_intercalate {parts : List String} (hne : parts ≠ [])
    (h : ∀ part ∈ parts, '.' ∉ part.toList) : components (".".intercalate parts) = parts := by
  have hdot : ".".toList = ['.'] := by decide
  rw [components, String.toList_intercalate, hdot, List.splitOn_intercalate '.' ?_ ?_, List.map_map]
  · simp [Function.comp_def]
  · exact List.forall_mem_map.mpr h
  · rwa [ne_eq, List.map_eq_nil_iff]

/-- No component is empty; in particular the path itself is not. -/
def isSolid (path : String) : Bool :=
  (components path).all fun part => !part.isEmpty

end Anatomy.Text.Dotted
