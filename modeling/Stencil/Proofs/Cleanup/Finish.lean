import Stencil.Proofs.Cleanup.Pass
import Mathlib.Data.List.Perm.Subperm

/-! # Finished templates

The end of a cleanup, when what takes the root's place is cut off from all others, and the tree that can
be read off the arena then. -/

namespace Stencil

open Execution Shape

section
variable {strip : Bool} {a b : Arena} {used : ElementId → Prop} {p : ElementId} {ss : List Shape}

/-! ### The end of the pass -/

/-- No part of an arena has more elements than the arena. -/
theorem Tidy.length_ids_le (h : Tidy a used p ss) : (ids [⟨p, ss⟩]).length ≤ a.size := by
  have hsub : ids [⟨p, ss⟩] ⊆ List.range a.size := by
    intro x hx
    rw [ids_singleton] at hx
    rw [List.mem_range]
    rcases List.mem_cons.1 hx with rfl | hx
    · exact h.sound.inside h.root
    · exact h.inside hx
  have hlength := (List.subperm_of_subset h.nodup hsub).length_le
  rwa [List.length_range] at hlength

theorem exists_clean (strip : Bool) (h : Tidy a used p ss) (hformed : Formed a [⟨p, ss⟩]) :
    ∃ b used' p' ss', Edit.clean strip p a = .ok p' b ∧ Cleaned strip a b used used' p ss p' ss' := by
  have hsize := h.length_ids_le
  obtain ⟨b, used', p', ss', hedit, hcleaned⟩ := cleansUp_cleanWithin strip a.size h hformed (by omega)
  refine ⟨b, used', p', ss', ?_, hcleaned⟩
  simp only [Edit.clean, Edit.bind_ok (Edit.get_ok a)]
  exact hedit

theorem Arena.get_detach (a : Arena) {r : ElementId} (hr : r < a.size) (x : ElementId) :
    (a.detach r).get x = if x = r then { a.get r with parent := none, index := 0 } else a.get x :=
  a.get_update r x _ hr

theorem Arena.children_detach (a : Arena) (r x : ElementId) : (a.detach r).children x = a.children x := by
  by_cases hr : r < a.size
  · rw [Arena.children, a.get_detach hr]
    split
    · next h => rw [h]; rfl
    · rfl
  · rw [Arena.children, Arena.detach, a.get_update_of_size_le _ (Nat.le_of_not_lt hr)]
    rfl

theorem Arena.preorder_detach (a : Arena) (r x : ElementId) : (a.detach r).preorder x = a.preorder x := by
  have hwithin : ∀ depth x, (a.detach r).preorderWithin depth x = a.preorderWithin depth x := by
    intro depth
    induction depth with
    | zero => exact fun _ => rfl
    | succ depth ih =>
      intro x
      rw [preorderWithin, preorderWithin, a.children_detach, List.flatMap_congr fun y _ => ih y]
  rw [preorder, preorder, hwithin, detach, size_update]

/-- Cutting off what takes the place of an element without parent, the element goes out of use. -/
theorem Arena.Sound.detach (h : a.Sound used) {r : ElementId} (hr : used r) (hp : used p)
    (hroot : (a.get p).parent = none) (hplace : r = p ∨ r ≠ p ∧ a.children p = [r]) :
    (a.detach r).Sound fun x => used x ∧ (x = p → r = p) := by
  have hin := h.inside hr
  -- The root is nobody's child, and what takes its place is at most the root's.
  have hnot : ∀ {q : ElementId} {i : Nat} {d : ElementId}, used q → (q = p → r = p) →
      (a.children q)[i]? = some d → d ≠ r ∧ (d = p → r = p) := by
    intro q i d hq hqp hd
    obtain ⟨-, hparent, -⟩ := h.child hq hd
    refine ⟨?_, ?_⟩
    · rintro rfl
      rcases hplace with rfl | ⟨hne, honly⟩
      · rw [hroot] at hparent
        cases hparent
      · have hparent' := (h.child_mem hp (honly ▸ List.mem_singleton_self d)).2
        exact hne (hqp (Option.some.inj (hparent.symm.trans hparent')))
    · rintro rfl
      rw [hroot] at hparent
      cases hparent
  refine ⟨fun hx => by rw [Arena.detach, Arena.size_update]; exact h.inside hx.1, ?_, ?_⟩
  · rintro q d i ⟨hq, hqp⟩ hd
    rw [a.children_detach] at hd
    obtain ⟨hdr, hdp⟩ := hnot hq hqp hd
    obtain ⟨hdused, hparent, hindex⟩ := h.child hq hd
    rw [a.get_detach hin, if_neg hdr]
    exact ⟨⟨hdused, hdp⟩, hparent, hindex⟩
  · rintro d q ⟨hd, hdp⟩ hparent
    rw [a.get_detach hin] at hparent ⊢
    by_cases hdr : d = r
    · rw [if_pos hdr] at hparent
      cases hparent
    · rw [if_neg hdr] at hparent ⊢
      obtain ⟨hq, hslot⟩ := h.parent hd hparent
      refine ⟨⟨hq, ?_⟩, by rw [a.children_detach]; exact hslot⟩
      rintro rfl
      rcases hplace with h | ⟨-, honly⟩
      · exact h
      · rw [honly] at hslot
        exact absurd (List.mem_singleton.1 (List.mem_of_getElem? hslot)) hdr

/-- What takes the place of an element without parent is as tidy when it is cut off. -/
theorem Cleaned.tidy_detach {used' : ElementId → Prop} {r : ElementId} {us : List Shape}
    (h : Cleaned strip a b used used' p ss r us) (htidy : Tidy a used p ss)
    (hroot : (a.get p).parent = none) : Tidy (b.detach r) (fun x => used' x ∧ (x = p → r = p)) r us := by
  have hp : used' p := h.touches.still htidy.root htidy.notMem
  have hparent : (b.get p).parent = none := h.touches.place.1.trans hroot
  exact ⟨h.tidy.sound.detach h.tidy.root hp hparent h.place, ⟨h.tidy.root, id⟩,
    h.tidy.spans.of_children fun x _ => b.children_detach r x, h.tidy.nodup⟩

/-- Finishing a tree succeeds, and what is left runs like what there was and nests as that did. -/
theorem exists_finish (strip : Bool) (h : Tidy a used p ss) (hformed : Formed a [⟨p, ss⟩])
    (hroot : (a.get p).parent = none) :
    ∃ b used' p' ss', Edit.finish strip p a = .ok p' b ∧ Tidy b used' p' ss' ∧ (b.get p').parent = none ∧
      (∃ c, Steps strip a c ∧ c.SameNodes b) ∧ (ids [⟨p', ss'⟩]).Sublist (ids [⟨p, ss⟩]) ∧
      Cleans strip a b false [⟨p, ss⟩] [⟨p', ss'⟩] ∧ Settles a b [⟨p, ss⟩] [⟨p', ss'⟩] ∧
      Weeds strip b [⟨p, ss⟩] [⟨p', ss'⟩] := by
  obtain ⟨b, used', r, us, hclean, hcleaned⟩ := exists_clean strip h hformed
  have hnodes := Arena.sameNodes_detach b r
  refine ⟨b.detach r, _, r, us, ?_, hcleaned.tidy_detach h hroot, ?_,
    ⟨b, hcleaned.touches.steps, hnodes⟩, hcleaned.fewer,
    (hcleaned.run false (by rintro ⟨⟩)).sameNodes hnodes, hcleaned.settles.sameNodes hnodes,
    hcleaned.weeds.congr hcleaned.fewer.subset fun x _ => (hnodes.2 x).1⟩
  · simp only [Edit.finish, Edit.bind_ok hclean]
    rfl
  · rw [b.get_detach (hcleaned.tidy.sound.inside hcleaned.tidy.root), if_pos rfl]

/-! ### The tree in an arena -/

theorem Tidy.of_mem {q : ElementId} {parts : List Shape} (h : Tidy a used p ss) (hq : ⟨q, parts⟩ ∈ ss) :
    Tidy a used q parts ∧ (ids [⟨q, parts⟩]).Sublist (ids ss) := by
  obtain ⟨pre, post, rfl⟩ := List.append_of_mem hq
  refine ⟨h.part, ?_⟩
  rw [ids_append, ids_cons ⟨q, parts⟩ post]
  exact (List.sublist_append_left _ _).trans (List.sublist_append_right _ _)

theorem parentKind_of_mem {s : Shape} (h : Tidy a used p ss) (hs : s ∈ ss) :
    (a.parentKind? s.root == some .ifBlock) = (a.get p).kind.isIfBlock := by
  have hq : s.root ∈ a.children p := by rw [h.children]; exact List.mem_map_of_mem hs
  rw [Arena.parentKind?, (h.sound.child_mem h.root hq).2, Option.map_some]
  cases (a.get p).kind <;> rfl

theorem map_roots_eq_trees {texts : ElementId → String} {inBlock : Bool} {f : ElementId → Tree}
    {ss : List Shape} (h : ∀ s ∈ ss, [f s.root] = trees a texts inBlock [s]) :
    (ss.map root).map f = trees a texts inBlock ss := by
  induction ss with
  | nil => rw [trees_nil]; rfl
  | cons s ss ih =>
    rw [trees_cons, ← h s List.mem_cons_self, ← ih fun u hu => h u (List.mem_cons_of_mem s hu)]
    rfl

/-- The tree that is read off an arena, where every text is its own. -/
theorem treeWithin_eq_trees (depth : Nat) (h : Tidy a used p ss) (hdepth : (ids [⟨p, ss⟩]).length ≤ depth + 1)
    {texts : ElementId → String}
    (htexts : ∀ x ∈ ids [⟨p, ss⟩], (a.get x).kind.withText (texts x) = (a.get x).kind) :
    [a.treeWithin depth p] = trees a texts (a.parentKind? p == some .ifBlock) [⟨p, ss⟩] := by
  induction depth generalizing p ss with
  | zero =>
    obtain rfl : ss = [] := by
      cases ss with
      | nil => rfl
      | cons s ss =>
        obtain ⟨e, parts⟩ := s
        rw [ids_singleton, ids] at hdepth
        simp at hdepth
    rw [Arena.treeWithin, trees_singleton, trees_nil,
      htexts p (root_mem_ids (s := ⟨p, []⟩) (List.mem_singleton_self _))]
  | succ depth ih =>
    rw [ids_singleton, List.length_cons] at hdepth
    have hself := htexts p (root_mem_ids (s := ⟨p, ss⟩) (List.mem_singleton_self _))
    rw [ids_singleton] at htexts
    rw [Arena.treeWithin, trees_singleton, hself, h.children, map_roots_eq_trees]
    intro s hs
    obtain ⟨q, parts⟩ := s
    obtain ⟨hpart, hsub⟩ := h.of_mem hs
    have hlength := hsub.length_le
    have htree := ih hpart (by omega) fun x hx => htexts x (List.mem_cons_of_mem p (hsub.subset hx))
    rwa [← parentKind_of_mem h hs]

theorem tree_eq_trees (h : Tidy a used p ss) (hroot : (a.get p).parent = none) {texts : ElementId → String}
    (htexts : ∀ x ∈ ids [⟨p, ss⟩], (a.get x).kind.withText (texts x) = (a.get x).kind) :
    [a.tree p] = trees a texts false [⟨p, ss⟩] := by
  have hsize := h.length_ids_le
  have htree := treeWithin_eq_trees a.size h (by omega) htexts
  rwa [Arena.parentKind?, hroot] at htree

theorem flatMap_roots_eq_ids {f : ElementId → List ElementId} {ss : List Shape}
    (h : ∀ s ∈ ss, f s.root = ids [s]) :
    (ss.map root).flatMap f = ids ss := by
  induction ss with
  | nil => rw [ids_nil]; rfl
  | cons s ss ih =>
    rw [ids_cons, ← h s List.mem_cons_self, ← ih fun u hu => h u (List.mem_cons_of_mem s hu)]
    rfl

theorem preorderWithin_eq_ids (depth : Nat) (h : Tidy a used p ss)
    (hdepth : (ids [⟨p, ss⟩]).length ≤ depth + 1) :
    a.preorderWithin depth p = ids [⟨p, ss⟩] := by
  induction depth generalizing p ss with
  | zero =>
    rw [ids_singleton, List.length_cons] at hdepth
    rw [Arena.preorderWithin, ids_singleton, List.length_eq_zero_iff.1 (by omega : (ids ss).length = 0)]
  | succ depth ih =>
    rw [ids_singleton, List.length_cons] at hdepth
    rw [Arena.preorderWithin, ids_singleton, h.children, flatMap_roots_eq_ids]
    intro s hs
    obtain ⟨q, parts⟩ := s
    obtain ⟨hpart, hsub⟩ := h.of_mem hs
    exact ih hpart (Nat.le_trans hsub.length_le (by omega))

theorem preorder_eq_ids (h : Tidy a used p ss) : a.preorder p = ids [⟨p, ss⟩] := by
  have hsize := h.length_ids_le
  exact preorderWithin_eq_ids a.size h (by omega)

end

end Stencil
