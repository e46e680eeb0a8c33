import Anatomy.Proofs.Canonical
import Anatomy.Proofs.Hygiene
import Anatomy.Proofs.Rendering

namespace Anatomy

namespace Signature

variable {visible : List String}

theorem parameter_ne_keywords {name : String} {type : Ty} {node : Node}
    (h : parameter visible name type = .ok node) (keywords : List Node) :
    node ≠ .expr .parameters keywords := by
  unfold parameter at h
  split at h
  · obtain ⟨inner, -, rfl⟩ := map_eq_ok.mp h
    nofun
  · split at h
    · cases h
      nofun
    · obtain ⟨inner, -, rfl⟩ := map_eq_ok.mp h
      nofun

theorem head_parameters_ne_keywords {named : List (String × Ty)} {node : Node}
    {nodes : List Node} (h : parameters visible named = .ok (node :: nodes))
    (keywords : List Node) : node ≠ .expr .parameters keywords := by
  cases named with
  | nil => cases h
  | cons entry named =>
    obtain ⟨first, hfirst, h⟩ := bind_eq_ok.mp h
    obtain ⟨rest, -, ⟨⟩⟩ := bind_eq_ok.mp h
    exact parameter_ne_keywords hfirst keywords

theorem absentIfEmpty_eq_some {nodes nodes' : List Node} (h : absentIfEmpty nodes = some nodes') :
    nodes' = nodes ∧ nodes' ≠ [] := by
  cases nodes with
  | nil => cases h
  | cons node nodes =>
    cases h
    exact ⟨rfl, List.cons_ne_nil node nodes⟩

theorem listable_of_parameters {named : List (String × Ty)} {nodes : List Node} {p : Parts}
    (h : parameters visible named = .ok nodes) (hp : p.args = absentIfEmpty nodes) :
    p.Listable := by
  constructor
  · intro ha
    exact (absentIfEmpty_eq_some (hp.symm.trans ha)).2 rfl
  · intro _ keywords items ha
    obtain ⟨rfl, -⟩ := absentIfEmpty_eq_some (hp.symm.trans ha)
    exact head_parameters_ne_keywords h keywords rfl

/-- A record with a name that shows no type parameters, and without the slots that no type
tells. -/
structure Titled (p : Parts) : Prop where
  head : p.head = none
  anonHead : p.anonHead = none
  rtype : p.rtype = none
  body : p.body = none
  name : ∃ name, p.name = some name ∧ ∀ base params, name ≠ .expr .curly (base :: params)

/-- What is known of a signature, whatever its name was read off. -/
structure Extracted (visible : List String) (type : Ty) (p : Parts) : Prop extends Titled p where
  listable : p.Listable
  whereParams : type.whereParameters visible = .ok p.whereParams

theorem Titled.complete {type : Ty} {named : List (String × Ty)} {p q : Parts} (hp : Titled p)
    (h : complete visible type named p = .ok q) : Extracted visible type q := by
  obtain ⟨nodes, hnodes, h⟩ := bind_eq_ok.mp h
  obtain ⟨constraints, hconstraints, ⟨⟩⟩ := bind_eq_ok.mp h
  exact ⟨⟨hp.head, hp.anonHead, hp.rtype, hp.body, hp.name⟩, listable_of_parameters hnodes rfl,
    hconstraints⟩

theorem ne_curly_of_isName {node : Node} (h : node.isName = true) (base : Node)
    (params : List Node) : node ≠ .expr .curly (base :: params) := by
  rintro rfl
  cases h

theorem titled_nameParts {name : String} {callee : Ty} {p : Parts}
    (h : nameParts visible name callee = .ok p) : Titled p := by
  unfold nameParts at h
  split at h
  · cases h
    exact ⟨rfl, rfl, rfl, rfl, _, rfl, nofun⟩
  · next made params _ =>
    split at h
    · cases h
    · cases h
      exact ⟨rfl, rfl, rfl, rfl, _, rfl, ne_curly_of_isName (made.isName_render visible)⟩

theorem extracted_of_mapError {type : Ty} {named : List (String × Ty)} {p q : Parts}
    (hp : Titled p)
    (h : (complete visible type named p).mapError SignatureFault.unrenderable = .ok q) :
    Extracted visible type q := by
  cases hc : complete visible type named p with
  | error u =>
    rw [hc] at h
    cases h
  | ok r =>
    rw [hc] at h
    cases h
    exact hp.complete hc

theorem extracted_ofCallee {m : Method} {type callee : Ty} {types : List Ty} {p : Parts}
    (h : ofCallee visible m type callee types = .ok p) : Extracted visible type p := by
  unfold ofCallee at h
  split at h
  · cases h
  · next hq =>
    split at h
    · cases h
    · have ht := titled_nameParts hq
      apply extracted_of_mapError _ h
      exact ⟨ht.head, ht.anonHead, ht.rtype, ht.body, ht.name⟩

theorem extracted_ofType {type callee : Ty} {types : List Ty} {p : Parts}
    (h : ofType visible type callee types = .ok p) : Extracted visible type p := by
  unfold ofType at h
  split at h
  · cases h
  · apply extracted_of_mapError _ h
    exact ⟨rfl, rfl, rfl, rfl, _, rfl, nofun⟩

end Signature

namespace Extractor

def Request.signatureType : Request → Ty
  | .method m => m.signatureType
  | .type t => t

theorem signatureOfType_eq (x : Extractor) (type : Ty) :
    (x.signatureOfType type).1 = (do
      let (callee, types) ← Signature.split (x.prepare type).1
      Signature.ofType x.settings.visible (x.prepare type).1 callee types) := by
  rw [← settings_prepare x type, signatureOfType]
  generalize x.prepare type = prepared
  obtain ⟨type, y⟩ := prepared
  simp only
  cases Signature.split type <;> rfl

theorem extracted_of_answer {x : Extractor} {request : Request} {p : Parts}
    (h : (x.answer request).1 = .ok p) :
    Signature.Extracted x.settings.visible (x.prepare request.signatureType).1 p := by
  cases request with
  | method m =>
    rw [answer, signature_eq] at h
    obtain ⟨⟨callee, types⟩, -, h⟩ := bind_eq_ok.mp h
    exact Signature.extracted_ofCallee h
  | type type =>
    rw [answer, signatureOfType_eq] at h
    obtain ⟨⟨callee, types⟩, -, h⟩ := bind_eq_ok.mp h
    exact Signature.extracted_ofType h

end Extractor

namespace Parts

theorem dissect_assemble_of_name {p : Parts} {form : Form} {name : Node} (ha : form ≠ .arrow)
    (hh : p.head = some (.known form.head)) (hn : p.name = some name)
    (hc : ∀ base params, name ≠ .expr .curly (base :: params)) (hi : p.anonHead = none)
    (hb : p.body ≠ none) (hl : p.Listable) :
    ∃ tree, p.assemble = .ok tree ∧ tree.dissect = .ok p := by
  have hf : p.HasForm form := .inl hh
  obtain ⟨callee, hd, hcallee⟩ := exists_displayName hn fun _ => hc
  have hr := Node.Reads.call form callee p.parameterNodes ha
  rw [parameterList_parameterNodes hl, hcallee] at hr
  obtain ⟨tree, htree, hdissect⟩ :=
    dissect_assemble_of_reads hf hi hd hb (fun he => absurd he ha) hr rfl
  refine ⟨tree, htree, ?_⟩
  rw [hdissect, hf.leadingHead, ← hh]

end Parts

namespace Extractor

/-- A signature with the head and the body of a named definition is put together, and the
definition is taken apart into the same record. -/
theorem dissect_assemble_signature {x : Extractor} {request : Request} {p : Parts}
    (h : (x.answer request).1 = .ok p) {form : Form} (hform : form = .long ∨ form = .short)
    (body : Node) :
    ∃ tree,
      { p with head := some (.known form.head), body := some body }.assemble = .ok tree ∧
        tree.dissect = .ok { p with head := some (.known form.head), body := some body } := by
  have hp := extracted_of_answer h
  obtain ⟨name, hn, hc⟩ := hp.name
  have ha : form ≠ .arrow := by
    rintro rfl
    obtain h | h := hform <;> cases h
  exact Parts.dissect_assemble_of_name ha rfl hn hc hp.anonHead nofun
    ⟨hp.listable.args_ne_nil, hp.listable.not_keywords⟩

open Ty.Example in
def boxMethod : Method where
  name := "Box"
  slotNames := ["#self#", "x", "#unused#"]
  signatureType := item.over (.tuple
    [.typeOf (.nominal ⟨"Box", "Main"⟩ [item.toTy]), item.toTy, .vararg item.toTy (.value .null)])
  keywordNames := some ["size", "options..."]

theorem dissect_assemble_signature_boxMethod :
    ∃ p, (({} : Extractor).answer (.method boxMethod)).1 = .ok p ∧
      p.params = some [.symbol "T"] ∧ p.whereParams = some [.symbol "T"] ∧
      ∃ tree,
        { p with head := some (.known .assign), body := some (.symbol "x") }.assemble = .ok tree ∧
          tree.dissect =
            .ok { p with head := some (.known .assign), body := some (.symbol "x") } := by
  have h : ∃ p, (({} : Extractor).answer (.method boxMethod)).1 = .ok p ∧
      p.params = some [.symbol "T"] ∧ p.whereParams = some [.symbol "T"] := ⟨_, rfl, rfl, rfl⟩
  obtain ⟨p, hp, hparams, hwhere⟩ := h
  exact ⟨p, hp, hparams, hwhere, dissect_assemble_signature hp (.inr rfl) (.symbol "x")⟩

end Extractor

end Anatomy
