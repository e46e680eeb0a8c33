import Mathlib.Data.List.Flatten
import Anatomy.Proofs.Signatures
import Anatomy.Proofs.Tangles

namespace Anatomy

namespace Supply

open Ty

/-- The names are derived with numbers from `k` up to `k'`, no two with the same one. -/
structure DrawnOnce (k k' : Nat) (names : List String) : Prop where
  nodup : names.Nodup
  drawn : ∀ name ∈ names, Drawn k k' name

/-- The names are derived with the numbers from `k` up to `k'`, and none is left out. -/
structure Issued (k k' : Nat) (names : List String) : Prop extends DrawnOnce k k' names where
  count : k + names.length = k'

section DrawnOnce

variable {k k₁ k₂ : Nat} {ms ns : List String}

theorem DrawnOnce.nil (k k' : Nat) : DrawnOnce k k' [] :=
  ⟨List.nodup_nil, nofun⟩

theorem DrawnOnce.mono (h : DrawnOnce k₁ k₂ ns) {k k' : Nat} (hk : k ≤ k₁) (hk' : k₂ ≤ k') :
    DrawnOnce k k' ns :=
  ⟨h.nodup, fun name hname => (h.drawn name hname).mono hk hk'⟩

theorem DrawnOnce.append (hm : DrawnOnce k k₁ ms) (hn : DrawnOnce k₁ k₂ ns) (hk : k ≤ k₁)
    (hk' : k₁ ≤ k₂) : DrawnOnce k k₂ (ms ++ ns) := by
  constructor
  · apply hm.nodup.append hn.nodup
    intro name hname hname'
    exact (hm.drawn name hname).disjoint (hn.drawn name hname') (Nat.le_refl k₁)
  · intro name hname
    obtain hname | hname := List.mem_append.mp hname
    · exact (hm.drawn name hname).mono (Nat.le_refl k) hk'
    · exact (hn.drawn name hname).mono hk (Nat.le_refl k₂)

theorem DrawnOnce.sublist (h : DrawnOnce k k₁ ns) (hs : ms.Sublist ns) : DrawnOnce k k₁ ms :=
  ⟨h.nodup.sublist hs, fun name hname => h.drawn name (hs.mem hname)⟩

theorem DrawnOnce.perm (h : DrawnOnce k k₁ ns) (hp : ms.Perm ns) : DrawnOnce k k₁ ms :=
  ⟨hp.nodup_iff.mpr h.nodup, fun name hname => h.drawn name (hp.mem_iff.mp hname)⟩

theorem drawnOnce_mark (name : String) (k : Nat) : DrawnOnce k (k + 1) [mark name k] := by
  constructor
  · exact List.nodup_singleton _
  · intro drawn hdrawn
    obtain rfl := List.mem_singleton.mp hdrawn
    exact ⟨name, k, Nat.le_refl k, Nat.lt_succ_self k, rfl⟩

theorem Issued.le (h : Issued k k₁ ns) : k ≤ k₁ := by
  have := h.count
  omega

theorem Issued.nil (k : Nat) : Issued k k [] :=
  ⟨.nil k k, rfl⟩

theorem Issued.append (hm : Issued k k₁ ms) (hn : Issued k₁ k₂ ns) : Issued k k₂ (ms ++ ns) := by
  refine ⟨hm.toDrawnOnce.append hn.toDrawnOnce hm.le hn.le, ?_⟩
  rw [List.length_append, ← Nat.add_assoc, hm.count, hn.count]

theorem Issued.perm (h : Issued k k₁ ns) (hp : ms.Perm ns) : Issued k k₁ ms :=
  ⟨h.toDrawnOnce.perm hp, by rw [hp.length_eq, h.count]⟩

theorem issued_mark (name : String) (k : Nat) : Issued k (k + 1) [mark name k] :=
  ⟨drawnOnce_mark name k, rfl⟩

end DrawnOnce

/-- From one supply to the other, every number was drawn for a name in the list or for a variable
whose new name was noted. -/
def Accounts (s : Supply) (names : List String) (s' : Supply) : Prop :=
  ∃ entries, s'.renamed = s.renamed ++ entries ∧
    Issued s.next s'.next (names ++ entries.map Renamed.new)

theorem Accounts.refl (s : Supply) : Accounts s [] s :=
  ⟨[], (List.append_nil _).symm, .nil s.next⟩

theorem Accounts.trans {s s₁ s₂ : Supply} {ms ns : List String} (h : Accounts s ms s₁)
    (h' : Accounts s₁ ns s₂) : Accounts s (ms ++ ns) s₂ := by
  obtain ⟨entries, hlog, hissued⟩ := h
  obtain ⟨entries', hlog', hissued'⟩ := h'
  refine ⟨entries ++ entries', ?_, ?_⟩
  · rw [hlog', hlog, List.append_assoc]
  · apply (hissued.append hissued').perm
    rw [List.map_append, List.append_assoc, List.append_assoc]
    exact (List.perm_append_comm_assoc _ _ _).append_left ms

theorem accounts_fresh (s : Supply) (name : String) :
    Accounts s [(s.fresh name).1] (s.fresh name).2 :=
  ⟨[], (List.append_nil _).symm, issued_mark name s.next⟩

theorem accounts_layer {s s₁ s₂ : Supply} (name : String)
    (h : Accounts (s.fresh name).2 [] s₁)
    (h' : Accounts (s₁.record name (s.fresh name).1) [] s₂) : Accounts s [] s₂ := by
  obtain ⟨entries, hlog, hissued⟩ := h
  obtain ⟨entries', hlog', hissued'⟩ := h'
  refine ⟨entries ++ ⟨name, (s.fresh name).1⟩ :: entries', ?_, ?_⟩
  · rw [hlog', record, hlog, List.append_assoc, List.append_assoc, List.singleton_append]
    rfl
  · apply ((issued_mark name s.next).append (hissued.append hissued')).perm
    rw [List.map_append, List.map_cons]
    exact List.perm_middle

end Supply

namespace Ty

open Supply

theorem accounts_refresh (t : Ty) (s : Supply) : Accounts s [] (t.refresh s).2 := by
  refine refresh.induct (fun t s => Accounts s [] (t.refresh s).2)
    (fun ts s => Accounts s [] (refreshAll ts s).2) ?layer ?nominal ?tuple ?union ?vararg ?leaf ?nil
    ?cons t s
  case layer =>
    intro s name lower upper body freshName s₁ hfresh lower' s₂ hlower upper' s₃ hupper body' s₄
      hbody hl hu hb
    rw [hlower] at hl
    rw [hupper] at hu
    rw [hbody] at hb
    have hend : ((unionAll name lower upper body).refresh s).2 = s₄ := by
      rw [refresh, hfresh]
      simp only [hlower, hupper, hbody]
    cases hfresh
    rw [hend]
    exact accounts_layer name (hl.trans hu) hb
  case nominal =>
    intro s name params params' s' _ h
    rw [refresh]
    exact h
  case tuple =>
    intro s params params' s' _ h
    rw [refresh]
    exact h
  case union =>
    intro s members members' s' _ h
    rw [refresh]
    exact h
  case vararg =>
    intro s element count element' s' _ h
    rw [refresh]
    exact h
  case leaf =>
    intro s t hlayer hnominal htuple hunion hvararg
    rw [refresh]
    · exact .refl s
    all_goals assumption
  case nil =>
    intro s
    rw [refreshAll]
    exact .refl s
  case cons =>
    intro s t ts t' s₁ ht ts' s₂ hts h hs
    rw [ht] at h
    rw [refreshAll, ht]
    exact h.trans hs

mutual

/-- The names that the layers of a type bind. The bounds of a variable that a layer binds are
entered, those of an occurrence are not. -/
def binders : Ty → List String
  | .nominal _ params => bindersAll params
  | .tuple params => bindersAll params
  | .union members => bindersAll members
  | .var _ _ _ => []
  | .unionAll name lower upper body => name :: (binders lower ++ (binders upper ++ binders body))
  | .vararg element count => binders element ++ binders count
  | .symbol _ => []
  | .bareName _ => []
  | .value _ => []

def bindersAll : List Ty → List String
  | [] => []
  | t :: ts => binders t ++ bindersAll ts

end

theorem bindersAll_eq_flatMap (ts : List Ty) : bindersAll ts = ts.flatMap binders := by
  induction ts with
  | nil => rfl
  | cons t ts ih => rw [bindersAll, ih, List.flatMap_cons]

theorem bindersAll_flatten (ts : List Ty) : bindersAll (flatten ts) = bindersAll ts := by
  induction ts with
  | nil => rfl
  | cons t ts ih =>
    cases t with
    | union members =>
      rw [flatten, bindersAll_eq_flatMap, List.flatMap_append, ← bindersAll_eq_flatMap,
        ← bindersAll_eq_flatMap, ih, bindersAll, binders]
    | _ => exact congrArg (binders _ ++ ·) ih

theorem exists_perm_binders_unionOf (ts : List Ty) :
    ∃ names, (unionOf ts).binders.Perm names ∧ names.Sublist (bindersAll ts) := by
  refine ⟨bindersAll ((flatten ts).eraseDupsBy same), ?_, ?_⟩
  · rw [unionOf, binders, bindersAll_eq_flatMap, bindersAll_eq_flatMap]
    exact (List.mergeSort_perm _ _).flatMap_right _
  · rw [← bindersAll_flatten ts, bindersAll_eq_flatMap, bindersAll_eq_flatMap]
    exact (eraseDupsBy_sublist _).flatMap _

theorem RenamesAll.drawnOnce {ts ts' : List Ty} {k k' : Nat}
    (h : RenamesAll (fun t k t' k' => Counted t → DrawnOnce k k' t'.binders) ts k ts' k')
    (hts : ∀ t ∈ ts, Counted t) : DrawnOnce k k' (bindersAll ts') := by
  induction h with
  | nil => exact .nil _ _
  | cons hr hd hs ih =>
    obtain ⟨ht, hts⟩ := List.forall_mem_cons.mp hts
    exact (hd ht).append (ih hts) hr.named.le hs.le

theorem binders_count {element count : Ty} (h : IsCounted (.vararg element count)) :
    count.binders = [] := by
  cases count with
  | var v => rfl
  | value scalar => rfl
  | _ => cases h

theorem Renames.drawnOnce {t t' : Ty} {k k' : Nat} (h : Renames t k t' k') (ht : Counted t) :
    DrawnOnce k k' t'.binders := by
  revert ht
  refine h.induct (P := fun t k t' k' => Counted t → DrawnOnce k k' t'.binders) ?leaf ?nominal
    ?tuple ?union ?vararg ?layer
  case leaf =>
    intro t k hleaf _
    cases t with
    | var v => exact .nil k k
    | symbol name => exact .nil k k
    | bareName name => exact .nil k k
    | value scalar => exact .nil k k
    | _ => cases hleaf
  case nominal =>
    intro name ps k ps' k' h ht
    exact h.drawnOnce (everywhere_nominal.mp ht).2
  case tuple =>
    intro ps k ps' k' h ht
    exact h.drawnOnce (everywhere_tuple.mp ht).2
  case union =>
    intro ms k ms' k' h ht
    obtain ⟨names, hperm, hsub⟩ := exists_perm_binders_unionOf ms'
    exact ((h.drawnOnce (everywhere_union.mp ht).2).sublist hsub).perm hperm
  case vararg =>
    intro e c k e' k' _ he ht
    obtain ⟨hc, hte, -⟩ := everywhere_vararg.mp ht
    rw [binders, binders_count hc, List.append_nil]
    exact he hte
  case layer =>
    intro v v' b k k₁ k₂ b' k' hname hrl hru hrb hl hu hb ht
    obtain ⟨-, htl, htu, htb⟩ := everywhere_over.mp ht
    have hv' : Counted v'.toTy :=
      everywhere_toTy.mpr ⟨trivial, hrl.counted htl, hru.counted htu⟩
    have hkl := hrl.named.le
    have hku := hru.named.le
    have hkb := hrb.named.le
    have hrest : DrawnOnce (k + 1) k' (v'.lower.binders ++ (v'.upper.binders ++ b'.binders)) :=
      (hl htl).append ((hu htu).append (hb (Counted.substitute htb hv')) hku hkb) hkl (by omega)
    rw [TypeVar.over, binders, hname]
    exact (drawnOnce_mark v.name k).append hrest (Nat.le_succ k) (by omega)

def layers : Ty → List String
  | .unionAll name _ _ body => name :: layers body
  | _ => []

theorem Renames.drawnOnce_layers {t t' : Ty} {k k' : Nat} (h : Renames t k t' k') :
    DrawnOnce k k' t'.layers := by
  refine h.induct (P := fun _ k t' k' => DrawnOnce k k' t'.layers) ?leaf ?nominal ?tuple ?union
    ?vararg ?layer
  case leaf =>
    intro t k hleaf
    cases t with
    | layer v b => cases hleaf
    | _ => exact .nil k k
  case layer =>
    intro v v' b k k₁ k₂ b' k' hname hrl hru hrb _ _ hb
    have hkl := hrl.named.le
    have hku := hru.named.le
    have hkb := hrb.named.le
    rw [TypeVar.over, layers, hname]
    exact (drawnOnce_mark v.name k).append (hb.mono (by omega) (Nat.le_refl k')) (Nat.le_succ k)
      (by omega)
  all_goals
    intros
    exact .nil _ _

end Ty

/-- The variable that a constraint of a where clause declares. -/
def Node.declared? : Node → Option String
  | .symbol name => some name
  | .expr .subtype [.symbol name, _] => some name
  | .expr .supertype [.symbol name, _] => some name
  | .expr .comparison [_, _, .symbol name, _, _] => some name
  | _ => none

namespace Ty

variable {visible : List String}

theorem declared?_declarationNode (name : String) (lower upper : Option Node) :
    (declarationNode name lower upper).declared? = some name := by
  cases lower <;> cases upper <;> rfl

theorem declared?_of_constraint {v : TypeVar} {node : Node} (h : v.constraint visible = .ok node) :
    node.declared? = some v.name := by
  obtain ⟨lower, -, h⟩ := bind_eq_ok.mp h
  obtain ⟨upper, -, ⟨⟩⟩ := bind_eq_ok.mp h
  exact declared?_declarationNode v.name lower upper

theorem declared?_of_constraints {t : Ty} {nodes : List Node}
    (h : t.constraints visible = .ok nodes) :
    nodes.map Node.declared? = t.layers.map some := by
  induction t generalizing nodes with
  | layer v body _ _ ih =>
    obtain ⟨node, hnode, h⟩ := bind_eq_ok.mp h
    obtain ⟨rest, hrest, ⟨⟩⟩ := bind_eq_ok.mp h
    rw [TypeVar.over, layers, List.map_cons, List.map_cons, declared?_of_constraint hnode,
      ih hrest]
  | _ =>
    cases h
    rfl

theorem declared?_of_whereParameters {t : Ty} {nodes? : Option (List Node)}
    (h : t.whereParameters visible = .ok nodes?) :
    (nodes?.getD []).map Node.declared? = t.layers.map some := by
  cases t with
  | layer v body =>
    obtain ⟨nodes, hnodes, rfl⟩ := map_eq_ok.mp h
    exact declared?_of_constraints hnodes
  | _ =>
    cases h
    rfl

end Ty

namespace Supply

def Reply.name? : Reply → Option String
  | .name drawn => some drawn
  | .type _ => none

theorem accounts_serve (s : Supply) (request : Request) :
    Accounts s (s.serve request).1.name?.toList (s.serve request).2 := by
  cases request with
  | name stem => exact accounts_fresh s stem
  | type t => exact t.accounts_refresh s

theorem accounts_serveAll (s : Supply) (requests : List Request) :
    Accounts s ((s.serveAll requests).1.filterMap Reply.name?) (s.serveAll requests).2 := by
  induction requests generalizing s with
  | nil => exact .refl s
  | cons request requests ih =>
    have h := (s.accounts_serve request).trans (ih (s.serve request).2)
    rw [serveAll, List.filterMap_cons]
    cases hreply : (s.serve request).1.name? with
    | none =>
      rw [hreply] at h
      exact h
    | some name =>
      rw [hreply] at h
      exact h

end Supply

def Event.newName? : Event → Option String
  | .renamed entry => some entry.new
  | _ => none

namespace Extractor

open Ty Supply

def newNames (x : Extractor) : List String :=
  x.journal.filterMap Event.newName?

def constraints : Except SignatureFault Parts → List Node
  | .ok p => p.whereParams.getD []
  | .error _ => []

/-- From one state to the other, every number was drawn for a variable whose new name was noted,
and the constraints declare variables whose names were drawn on the way. -/
structure Advances (x : Extractor) (nodes : List Node) (y : Extractor) : Prop where
  settings : y.settings = x.settings
  journal : ∃ names, y.newNames = x.newNames ++ names ∧ Issued x.next y.next names
  declared : ∃ names, nodes.map Node.declared? = names.map some ∧ DrawnOnce x.next y.next names

theorem Advances.le {x y : Extractor} {nodes : List Node} (h : Advances x nodes y) :
    x.next ≤ y.next := by
  obtain ⟨names, -, hissued⟩ := h.journal
  exact hissued.le

theorem Advances.refl (x : Extractor) : Advances x [] x :=
  ⟨rfl, ⟨[], (List.append_nil _).symm, .nil x.next⟩, ⟨[], rfl, .nil _ _⟩⟩

theorem Advances.trans {x y z : Extractor} {as bs : List Node} (h : Advances x as y)
    (h' : Advances y bs z) : Advances x (as ++ bs) z := by
  obtain ⟨names, hnames, hissued⟩ := h.journal
  obtain ⟨names', hnames', hissued'⟩ := h'.journal
  obtain ⟨declared, hdeclared, honce⟩ := h.declared
  obtain ⟨declared', hdeclared', honce'⟩ := h'.declared
  refine ⟨h'.settings.trans h.settings, ⟨names ++ names', ?_, hissued.append hissued'⟩,
    ⟨declared ++ declared', ?_, honce.append honce' h.le h'.le⟩⟩
  · rw [hnames', hnames, List.append_assoc]
  · rw [List.map_append, List.map_append, hdeclared, hdeclared']

theorem newNames_note (x : Extractor) (events : List Event) :
    (x.note events).newNames = x.newNames ++ events.filterMap Event.newName? :=
  List.filterMap_append

theorem prepare_of_hygiene {x : Extractor} (hx : x.settings.hygiene = true) (type : Ty) :
    x.prepare type = ((type.refresh { next := x.next }).1,
      { x with next := (type.refresh { next := x.next }).2.next }.note
        ((type.refresh { next := x.next }).2.renamed.map .renamed)) := by
  rw [prepare, if_pos hx]

theorem filterMap_newName?_renamed (entries : List Renamed) :
    (entries.map Event.renamed).filterMap Event.newName? = entries.map Renamed.new := by
  rw [List.filterMap_map]
  exact congrFun List.filterMap_eq_map _

/-- A request goes on from the prepared type, and draws no further name. -/
theorem exists_answer_eq (x : Extractor) (request : Request) :
    ∃ events, (x.answer request).2 = (x.prepare request.signatureType).2.note events ∧
      events.filterMap Event.newName? = [] := by
  have hnote : ∀ y : Extractor, y = y.note [] := by
    intro y
    rw [note, List.append_nil]
  cases request with
  | method m =>
    rw [answer, signature, Request.signatureType]
    generalize x.prepare m.signatureType = prepared
    obtain ⟨type, y⟩ := prepared
    simp only
    cases Signature.split type with
    | error fault => exact ⟨[], hnote y, rfl⟩
    | ok pair =>
      refine ⟨constructionEvents pair.1, rfl, ?_⟩
      rw [constructionEvents]
      split <;> rfl
  | type t =>
    rw [answer, signatureOfType, Request.signatureType]
    generalize x.prepare t = prepared
    obtain ⟨type, y⟩ := prepared
    simp only
    cases Signature.split type with
    | error fault => exact ⟨[], hnote y, rfl⟩
    | ok pair => exact ⟨[], hnote y, rfl⟩

theorem advances_answer {x : Extractor} (hx : x.settings.hygiene = true) (request : Request) :
    Advances x (constraints (x.answer request).1) (x.answer request).2 := by
  obtain ⟨events, hy, hevents⟩ := x.exists_answer_eq request
  have hprepare := prepare_of_hygiene hx request.signatureType
  have hnext : (x.answer request).2.next =
      (request.signatureType.refresh { next := x.next }).2.next := by
    rw [hy, hprepare]
    rfl
  obtain ⟨entries, hlog, hissued⟩ := request.signatureType.accounts_refresh { next := x.next }
  refine ⟨?_, ⟨entries.map Renamed.new, ?_, ?_⟩, ?_⟩
  · rw [hy]
    exact settings_prepare x request.signatureType
  · rw [hy, newNames_note, hevents, List.append_nil, hprepare, newNames_note,
      filterMap_newName?_renamed, hlog]
    rfl
  · rw [hnext]
    exact hissued
  · rw [hnext]
    cases hresult : (x.answer request).1 with
    | error fault => exact ⟨[], rfl, .nil _ _⟩
    | ok p =>
      have hp := extracted_of_answer hresult
      rw [hprepare] at hp
      refine ⟨_, declared?_of_whereParameters hp.whereParams, ?_⟩
      exact (renames_refresh request.signatureType { next := x.next }).drawnOnce_layers

theorem advances_answerAll {x : Extractor} (hx : x.settings.hygiene = true)
    (requests : List Request) :
    Advances x ((x.answerAll requests).1.flatMap constraints) (x.answerAll requests).2 := by
  induction requests generalizing x with
  | nil => exact .refl x
  | cons request requests ih =>
    have h := advances_answer hx request
    rw [answerAll, List.flatMap_cons]
    exact h.trans (ih (by rw [h.settings, hx]))

end Extractor

/-- No name is drawn twice: in a run of a supply, in a run of an extractor with hygiene, and for
the layers of a type. -/
theorem names_drawn_once (s : Supply) (requests : List Supply.Request) {x : Extractor}
    (hx : x.settings.hygiene = true) (inquiries : List Extractor.Request) {t : Ty}
    (ht : t.Counted) :
    s.Accounts ((s.serveAll requests).1.filterMap Supply.Reply.name?) (s.serveAll requests).2 ∧
      x.Advances ((x.answerAll inquiries).1.flatMap Extractor.constraints)
        (x.answerAll inquiries).2 ∧
      Supply.DrawnOnce s.next (t.refresh s).2.next (t.refresh s).1.binders :=
  ⟨s.accounts_serveAll requests, Extractor.advances_answerAll hx inquiries,
    (Ty.renames_refresh t s).drawnOnce ht⟩

namespace Ty.Example

open Extractor

def nameRequests : List Supply.Request :=
  [.name "T#1", .type rebound, .name "T"]

/-- The type in the middle has no callee, which is found after a name was drawn for its layer. -/
def signatureRequests : List Extractor.Request :=
  [.method pairMethod, .type (outer.over (.tuple [])), .method boxMethod]

end Ty.Example

open Ty.Example in
theorem names_drawn_once_rebound :
    Supply.Accounts {} ((Supply.serveAll {} nameRequests).1.filterMap Supply.Reply.name?)
        (Supply.serveAll {} nameRequests).2 ∧
      Extractor.Advances { settings := { hygiene := true } }
        ((Extractor.answerAll { settings := { hygiene := true } } signatureRequests).1.flatMap
          Extractor.constraints)
        (Extractor.answerAll { settings := { hygiene := true } } signatureRequests).2 ∧
      Supply.DrawnOnce 1 (rebound.refresh {}).2.next (rebound.refresh {}).1.binders :=
  names_drawn_once {} _ rfl _ (Ty.plain_of_everywhere plain_rebound).2.2

end Anatomy
