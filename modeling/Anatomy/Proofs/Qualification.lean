import Anatomy.Proofs.Forwarding

namespace Anatomy

namespace Text.Dotted

theorem notMem_last (path : String) : '.' ∉ (last path).toList :=
  notMem_components (List.getLast_mem (components_ne_nil path))

theorem last_eq_self_iff {path : String} : last path = path ↔ '.' ∉ path.toList := by
  constructor
  · intro h
    have hlast := notMem_last path
    rwa [h] at hlast
  · intro h
    simp only [last, components_of_notMem h, List.getLast_singleton]

end Text.Dotted

open Text

theorem Node.qualified_append (home name : String) :
    qualified (home ++ "." ++ name) =
      (Dotted.components name).foldl member (qualified home) := by
  obtain ⟨first, rest, hparts⟩ := List.exists_cons_of_ne_nil (Dotted.components_ne_nil home)
  have happend : Dotted.components (home ++ "." ++ name) =
      first :: (rest ++ Dotted.components name) := by
    rw [Dotted.components_append, hparts, List.cons_append]
  rw [qualified_eq happend, qualified_eq hparts, List.foldl_append]

namespace TypeName

/-- A hidden name is written as the members that its components make behind the path of its home.
It is the member of that path, and is shown under the name that it has where its home is visible,
if and only if it has no dot. -/
theorem render_hidden_iff (n : TypeName) {hidden : List String} (h : n.home ∉ hidden) :
    n.render hidden = (Dotted.components n.name).foldl Node.member (Node.qualified n.home) ∧
    (n.render hidden = Node.member (Node.qualified n.home) n.name ↔ '.' ∉ n.name.toList) ∧
    ∀ visible, n.home ∈ visible →
      ((n.render hidden).lastMember = n.render visible ↔ '.' ∉ n.name.toList) := by
  have hchain := (render_of_notMem h).trans (Node.qualified_append n.home n.name)
  have hlast : (n.render hidden).lastMember = .symbol n.name ↔ '.' ∉ n.name.toList := by
    rw [lastMember_render_of_notMem h, Node.symbol.injEq, Dotted.last_eq_self_iff]
  refine ⟨hchain, ⟨?_, ?_⟩, ?_⟩
  · intro he
    rw [← hlast, he]
    rfl
  · intro hn
    rw [hchain, Dotted.components_of_notMem hn]
    rfl
  · intro visible hv
    rw [render_of_mem hv]
    exact hlast

theorem render_hidden_iff_operator :
    (ofFunction "+" "Main.Shapes").home ∉ ["Base", "Core", "Main"] ∧
    (ofFunction "+" "Main.Shapes").render ["Base", "Core", "Main"] =
      Node.member (Node.member (.symbol "Main") "Shapes") "typeof(+)" := by
  have h : (ofFunction "+" "Main.Shapes").home ∉ ["Base", "Core", "Main"] := by decide
  exact ⟨h, ((ofFunction "+" "Main.Shapes").render_hidden_iff h).2.1.mpr (by decide)⟩

/-- The type of the operator `..` falls into three pieces. -/
theorem exists_render_hidden_ne : ∃ (n : TypeName) (hidden : List String), n.home ∉ hidden ∧
    n.render hidden = Node.member (Node.member (Node.member (.symbol "Intervals") "typeof(") "") ")" ∧
    n.render hidden ≠ Node.member (Node.qualified n.home) n.name := by
  have hrender : (ofFunction ".." "Intervals").render ["Base", "Core", "Main"] =
      Node.member (Node.member (Node.member (.symbol "Intervals") "typeof(") "") ")" := by decide
  refine ⟨ofFunction ".." "Intervals", ["Base", "Core", "Main"], by decide, hrender, ?_⟩
  rw [hrender]
  decide

end TypeName

end Anatomy
