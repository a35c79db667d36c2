import Stencil.Proofs.Arena.Links
import Stencil.Proofs.Execution.Rewrites

/-! # Shapes

The part of an arena below some elements, as the tree of their numbers. A shape says which elements hang
together; what they are is looked up in the arena. -/

namespace Stencil

/-- An element by its number, with the shapes of its children. -/
inductive Shape
  | mk (id : ElementId) (parts : List Shape)

namespace Shape

/-- The number of the topmost element. -/
def root : Shape → ElementId
  | ⟨id, _⟩ => id

/-- The numbers of all elements of some shapes. -/
def ids : List Shape → List ElementId
  | [] => []
  | ⟨id, parts⟩ :: ss => id :: (ids parts ++ ids ss)

/-- The children of the elements of an arena are as some shapes say. -/
def Spans (a : Arena) : List Shape → Prop
  | [] => True
  | ⟨id, parts⟩ :: ss => a.children id = parts.map root ∧ Spans a parts ∧ Spans a ss

end Shape

namespace Shape

/-- The trees of some shapes in an arena, where every text is what `texts` says. -/
def trees (a : Arena) (texts : ElementId → String) (inBlock : Bool) : List Shape → List Tree
  | [] => []
  | ⟨id, parts⟩ :: ss =>
    ⟨(a.get id).kind.withText (texts id), (a.get id).location, inBlock,
      trees a texts (a.get id).kind.isIfBlock parts⟩ :: trees a texts inBlock ss

@[elab_as_elim]
theorem forest_induction {motive : List Shape → Prop} (nil : motive [])
    (cons : ∀ id parts ss, motive parts → motive ss → motive (⟨id, parts⟩ :: ss)) : ∀ ss, motive ss
  | [] => nil
  | ⟨id, parts⟩ :: ss => cons id parts ss (forest_induction nil cons parts) (forest_induction nil cons ss)

section
variable {a a' : Arena} {texts : ElementId → String} {inBlock : Bool}

@[simp] theorem ids_nil : ids [] = [] := by rw [ids]

@[simp] theorem trees_nil : trees a texts inBlock [] = [] := by rw [trees]

@[simp] theorem spans_nil : Spans a [] := by rw [Spans]; trivial

theorem ids_append (ss us : List Shape) : ids (ss ++ us) = ids ss ++ ids us := by
  induction ss with
  | nil => simp
  | cons s ss ih =>
    obtain ⟨id, parts⟩ := s
    simp only [List.cons_append, ids, ih, List.append_assoc]

theorem mem_ids_cons {x id : ElementId} {parts ss : List Shape} :
    x ∈ ids (⟨id, parts⟩ :: ss) ↔ x = id ∨ x ∈ ids parts ∨ x ∈ ids ss := by
  rw [ids, List.mem_cons, List.mem_append]

theorem forall_mem_ids_cons {P : ElementId → Prop} {id : ElementId} {parts ss : List Shape} :
    (∀ x ∈ ids (⟨id, parts⟩ :: ss), P x) ↔ P id ∧ (∀ x ∈ ids parts, P x) ∧ ∀ x ∈ ids ss, P x := by
  rw [ids, List.forall_mem_cons, List.forall_mem_append]

theorem root_mem_ids {s : Shape} {ss : List Shape} (h : s ∈ ss) : s.root ∈ ids ss := by
  induction ss with
  | nil => cases h
  | cons u us ih =>
    obtain ⟨id, parts⟩ := u
    rw [ids]
    rcases List.mem_cons.1 h with rfl | h
    · exact List.mem_cons_self
    · exact List.mem_cons_of_mem _ (List.mem_append_right _ (ih h))

theorem roots_sublist_ids (ss : List Shape) : (ss.map root).Sublist (ids ss) := by
  induction ss with
  | nil => exact List.nil_sublist _
  | cons s ss ih =>
    obtain ⟨id, parts⟩ := s
    rw [List.map_cons, ids]
    exact (ih.trans (List.sublist_append_right _ _)).cons_cons _

theorem spans_append {ss us : List Shape} : Spans a (ss ++ us) ↔ Spans a ss ∧ Spans a us := by
  induction ss with
  | nil => simp
  | cons s ss ih =>
    obtain ⟨id, parts⟩ := s
    simp only [List.cons_append, Spans, ih, and_assoc]

theorem trees_append (ss us : List Shape) :
    trees a texts inBlock (ss ++ us) = trees a texts inBlock ss ++ trees a texts inBlock us := by
  induction ss with
  | nil => simp
  | cons s ss ih =>
    obtain ⟨id, parts⟩ := s
    simp only [List.cons_append, trees, ih]

theorem ids_singleton (p : ElementId) (ss : List Shape) : ids [⟨p, ss⟩] = p :: ids ss := by
  rw [ids, ids, List.append_nil]

theorem spans_singleton {p : ElementId} {ss : List Shape} :
    Spans a [⟨p, ss⟩] ↔ a.children p = ss.map root ∧ Spans a ss := by
  simp only [Spans, and_true]

theorem trees_singleton (texts : ElementId → String) (inBlock : Bool) (p : ElementId) (ss : List Shape) :
    trees a texts inBlock [⟨p, ss⟩] = [⟨(a.get p).kind.withText (texts p), (a.get p).location, inBlock,
      trees a texts (a.get p).kind.isIfBlock ss⟩] := by
  rw [trees, trees_nil]

theorem ids_cons (s : Shape) (ss : List Shape) : ids (s :: ss) = ids [s] ++ ids ss := ids_append [s] ss

theorem spans_cons {s : Shape} {ss : List Shape} : Spans a (s :: ss) ↔ Spans a [s] ∧ Spans a ss := by
  rw [← spans_append, List.singleton_append]

theorem trees_cons (texts : ElementId → String) (inBlock : Bool) (s : Shape) (ss : List Shape) :
    trees a texts inBlock (s :: ss) = trees a texts inBlock [s] ++ trees a texts inBlock ss :=
      trees_append [s] ss

/-- Only the children of the elements of a shape count. -/
theorem Spans.of_children {ss : List Shape} (h : Spans a ss)
    (hsame : ∀ x ∈ ids ss, a'.children x = a.children x) :
    Spans a' ss := by
  induction ss using forest_induction with
  | nil => rwa [Spans] at h ⊢
  | cons id parts ss ihParts ih =>
    rw [Spans] at h ⊢
    obtain ⟨hchildren, hparts, hss⟩ := h
    obtain ⟨hself, hsameParts, hsameRest⟩ := forall_mem_ids_cons.1 hsame
    exact ⟨hself.trans hchildren, ihParts hparts hsameParts, ih hss hsameRest⟩

/-- Only what the elements of a shape are counts. -/
theorem trees_congr {ss : List Shape} (hsame : ∀ x ∈ ids ss, (a'.get x).kind = (a.get x).kind ∧
    (a'.get x).location = (a.get x).location) : trees a' texts inBlock ss = trees a texts inBlock ss := by
  induction ss using forest_induction generalizing inBlock with
  | nil => simp
  | cons id parts ss ihParts ih =>
    obtain ⟨⟨hkind, hlocation⟩, hparts, hrest⟩ := forall_mem_ids_cons.1 hsame
    rw [trees, trees, hkind, hlocation, ihParts hparts, ih hrest]

end

end Shape

end Stencil
