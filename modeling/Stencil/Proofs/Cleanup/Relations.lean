import Stencil.Proofs.Arena.Shape

/-! # What cleanup keeps

The relations between an arena before and after a part of it has been cleaned up: elements stay what they
are but for texts and for places that no run shows, and the shapes that are left run like those before. -/

namespace Stencil

open Execution

/-! ### Elements -/

/-- Elements that are both texts, or of one kind and in one place where that shows. Texts are trimmed only
when blanks are stripped. -/
inductive SameElement (strip : Bool) (e e' : Element) : Prop
  | text (hstrip : strip = true) (text text' : String) (trimmed trimmed' : Bool)
    (h : e.kind = .text text trimmed)
    (h' : e'.kind = .text text' trimmed')
  | other (kind : e'.kind = e.kind)
    (location : (e.kind.isSite || e.kind.isTraced) = true → e'.location = e.location)

section
variable {strip : Bool}

theorem SameElement.trans {e e' e'' : Element} (h : SameElement strip e e') (h' : SameElement strip e' e'') :
    SameElement strip e e'' := by
  cases h with
  | text hstrip t t' b b' ht ht' =>
    cases h' with
    | text _ _ u _ c _ hu => exact .text hstrip t u b c ht hu
    | other kind _ => exact .text hstrip t t' b b' ht (kind.trans ht')
  | other kind location =>
    cases h' with
    | text hstrip u u' c c' hu hu' => exact .text hstrip u u' c c' (kind.symm.trans hu) hu'
    | other kind' location' =>
      refine .other (kind'.trans kind) fun hshown => ?_
      rw [location' (kind ▸ hshown), location hshown]

theorem SameElement.node {e e' : Element} (h : SameElement strip e e') (text : String)
    (inBlock inBlock' : Bool) (children children' : List Tree) :
    SameNode ⟨e.kind.withText text, e.location, inBlock, children⟩
      ⟨e'.kind.withText text, e'.location, inBlock', children'⟩ := by
  cases h with
  | text hstrip t t' b b' ht ht' =>
    rw [ht, ht']
    exact ⟨.text text b b', fun hshown => by cases hshown⟩
  | other kind location =>
    rw [kind]
    refine ⟨Kind.Like.self (fun _ => rfl) _, fun hshown => (location ?_).symm⟩
    revert hshown
    cases e.kind <;> exact id

theorem SameElement.isLeaf {e e' : Element} (h : SameElement strip e e') (hleaf : Kind.IsLeaf e'.kind) :
    Kind.IsLeaf e.kind := by
  cases h with
  | text hstrip t t' b b' ht ht' => rw [ht]; exact .text t b
  | other kind _ => rwa [← kind]

theorem SameElement.kind_iff {e e' : Element} (h : SameElement strip e e') {kind : Kind}
    (hleaf : ¬ Kind.IsLeaf kind) :
    e'.kind = kind ↔ e.kind = kind := by
  cases h with
  | text hstrip t t' b b' ht ht' =>
    rw [ht, ht']
    constructor
    · rintro rfl
      exact absurd (.text _ _) hleaf
    · rintro rfl
      exact absurd (.text _ _) hleaf
  | other same _ => rw [same]

/-- The elements of an arena are the same elements in another. -/
structure Evolves (strip : Bool) (a a' : Arena) : Prop where
  size : a'.size = a.size
  element (x : ElementId) : SameElement strip (a.get x) (a'.get x)

theorem Evolves.trans {a a' a'' : Arena} (h : Evolves strip a a') (h' : Evolves strip a' a'') :
    Evolves strip a a'' :=
  ⟨h'.size.trans h.size, fun x => (h.element x).trans (h'.element x)⟩

theorem Evolves.kind {a a' : Arena} (h : Evolves strip a a') (x : ElementId) (hstrip : strip = false) :
    (a'.get x).kind = (a.get x).kind := by
  cases h.element x with
  | text htrue => rw [hstrip] at htrue; cases htrue
  | other kind _ => exact kind

theorem Evolves.of_sameNodes {a a' : Arena} (h : a.SameNodes a') : Evolves strip a a' :=
  ⟨h.1, fun x => .other (h.2 x).1 fun _ => (h.2 x).2⟩

end

/-! ### Shapes -/

namespace Shape

/-- Comments and texts have no children, and if blocks hold nothing but branches. -/
def Formed (a : Arena) : List Shape → Prop
  | [] => True
  | ⟨id, parts⟩ :: ss => (Kind.IsLeaf (a.get id).kind → parts = []) ∧
    ((a.get id).kind = .ifBlock → ∀ s ∈ parts, ∃ branch condition, (a.get s.root).kind =
      .conditional branch condition) ∧
    Formed a parts ∧ Formed a ss

variable {a a' a'' : Arena}

theorem not_isLeaf_conditional {branch : Branch} {condition : Option Expr} :
    ¬ Kind.IsLeaf (.conditional branch condition) := by rintro ⟨⟩

theorem not_isLeaf_ifBlock : ¬ Kind.IsLeaf .ifBlock := by rintro ⟨⟩

theorem Formed.evolves {strip : Bool} {ss : List Shape} (h : Formed a ss) (he : Evolves strip a a') :
    Formed a' ss := by
  induction ss using forest_induction with
  | nil => rwa [Formed] at h ⊢
  | cons id parts ss ihParts ih =>
    rw [Formed] at h ⊢
    obtain ⟨hleaf, hblock, hparts, hss⟩ := h
    refine ⟨fun h => hleaf ((he.element id).isLeaf h), fun h s hs => ?_, ihParts hparts, ih hss⟩
    obtain ⟨branch, condition, hkind⟩ := hblock (((he.element id).kind_iff not_isLeaf_ifBlock).1 h) s hs
    exact ⟨branch, condition, ((he.element s.root).kind_iff not_isLeaf_conditional).2 hkind⟩

theorem formed_append {ss us : List Shape} : Formed a (ss ++ us) ↔ Formed a ss ∧ Formed a us := by
  induction ss with
  | nil => simp [Formed]
  | cons s ss ih =>
    obtain ⟨id, parts⟩ := s
    simp only [List.cons_append, Formed, ih, and_assoc]

theorem formed_cons {s : Shape} {ss : List Shape} : Formed a (s :: ss) ↔ Formed a [s] ∧ Formed a ss := by
  rw [← formed_append, List.singleton_append]

theorem Formed.leaves {ss : List Shape} (h : Formed a ss) (texts : ElementId → String) (inBlock : Bool) :
    Leaves (trees a texts inBlock ss) := by
  induction ss using forest_induction generalizing inBlock with
  | nil => rw [trees]; rintro t ⟨⟩
  | cons id parts ss ihParts ih =>
    rw [Formed] at h
    obtain ⟨hleaf, -, hparts, hss⟩ := h
    rw [trees, leaves_cons]
    refine ⟨fun h => ?_, ihParts hparts _, ih hss _⟩
    have hnone : parts = [] := by
      refine hleaf ?_
      generalize (a.get id).kind = kind at h
      cases kind with
      | text text trimmed => exact .text text trimmed
      | comment text => exact h
      | _ => cases h
    rw [hnone, trees]

/-- What a text can be if it is dropped: empty, or its own if blanks are not stripped. -/
def Lost (a : Arena) (strip : Bool) (texts : ElementId → String) (x : ElementId) : Prop :=
  texts x = "" ∨ strip = false ∧ ∀ text trimmed, (a.get x).kind = .text text trimmed → texts x = text

theorem Lost.of_kind {strip : Bool} {texts : ElementId → String} {x : ElementId} (h : Lost a strip texts x)
    (hsame : strip = false → (a'.get x).kind = (a.get x).kind) : Lost a' strip texts x := by
  rcases h with h | ⟨hstrip, h⟩
  · exact .inl h
  · exact .inr ⟨hstrip, by rwa [hsame hstrip]⟩

/-- What is left of some shapes runs like what there was, if the texts that are gone are empty or write
nothing of their own. -/
def Cleans (strip : Bool) (a a' : Arena) (branches : Bool) (ss ss' : List Shape) : Prop :=
  ∀ (texts : ElementId → String), (∀ x ∈ ids ss, x ∉ ids ss' → Lost a strip texts x) → ∀ inBlock inBlock',
    SameRun branches (trees a texts inBlock ss) (trees a' texts inBlock' ss')

variable {strip : Bool}

theorem Cleans.sameNodes {branches : Bool} {ss ss' : List Shape} (h : Cleans strip a a' branches ss ss')
    (hsame : a'.SameNodes a'') : Cleans strip a a'' branches ss ss' := by
  intro texts htexts inBlock inBlock'
  rw [trees_congr fun x _ => hsame.2 x]
  exact h texts htexts inBlock inBlock'

/-- What is cleaned up later leaves what was cleaned up before. -/
theorem Cleans.append {branches : Bool} {ss ss' us us' : List Shape} (h : Cleans strip a a' branches ss ss')
    (h' : Cleans strip a' a'' branches us us')
    (huntouched : ∀ x ∈ ids us, (a'.get x).kind = (a.get x).kind ∧ (a'.get x).location = (a.get x).location)
    (hkept : ∀ x ∈ ids ss', (a''.get x).kind = (a'.get x).kind ∧ (a''.get x).location = (a'.get x).location)
    (hdisjoint : ∀ x ∈ ids ss, x ∉ ids us) (hss : ∀ x ∈ ids ss', x ∈ ids ss)
    (hus : ∀ x ∈ ids us', x ∈ ids us) :
    Cleans strip a a'' branches (ss ++ us) (ss' ++ us') := by
  intro texts htexts inBlock inBlock'
  rw [ids_append, ids_append] at htexts
  have hfirst : ∀ x ∈ ids ss, x ∉ ids ss' → Lost a strip texts x := by
    intro x hx hnot
    refine htexts x (List.mem_append_left _ hx) fun hin => ?_
    exact (List.mem_append.1 hin).elim hnot fun hin => hdisjoint x hx (hus x hin)
  have hsecond : ∀ x ∈ ids us, x ∉ ids us' → Lost a' strip texts x := by
    intro x hx hnot
    refine (htexts x (List.mem_append_right _ hx) fun hin => ?_).of_kind fun _ => (huntouched x hx).1
    exact (List.mem_append.1 hin).elim (fun hin => hdisjoint x (hss x hin) hx) hnot
  have hsame : trees a' texts inBlock us = trees a texts inBlock us := trees_congr huntouched
  rw [trees_append, trees_append, trees_congr hkept, ← hsame]
  exact (h texts hfirst inBlock inBlock').append (h' texts hsecond inBlock inBlock')

end Shape

end Stencil
