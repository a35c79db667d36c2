import Stencil.Proofs.Cleanup.Meaning
import Stencil.Proofs.Reading.Spans
import Mathlib.Data.List.Chain

/-! # The innermost element

Where spans nest, the elements around a position are one below the other, and so the search for the innermost
one, which never goes back up, finds the last of them. -/

namespace Stencil

open Shape

/-! ### Elements around a position -/

/-- The elements among some whose spans contain a position. -/
def Arena.covering (a : Arena) (q : Position) (xs : List ElementId) : List ElementId :=
  xs.filter fun x => (a.get x).location.contains q

/-- The elements of a template whose spans contain a position, in the order of the document. -/
def Template.covering (t : Template) (q : Position) : List ElementId := t.arena.covering q t.elements

section
variable {a : Arena} {used : ElementId → Prop} {p x : ElementId} {q : Position}
  {ss us : List Shape} {s u : Shape}

namespace Shape

/-- Spans one after the other do not share a position. -/
theorem Precedes.disjoint (h : Precedes a s u) (hs : (a.get s.root).location.contains q = true) :
    ¬ (a.get u.root).location.contains q = true := by
  intro hu
  rw [Location.contains_iff] at hs hu
  exact hs.2 (h.trans_not hu.1)

/-- What contains a position is within a topmost element that does. -/
theorem Nested.exists_root (h : Nested a ss) (hx : x ∈ ids ss)
    (hcontains : (a.get x).location.contains q = true) :
    ∃ s ∈ ss, (a.get s.root).location.contains q = true := by
  induction h with
  | nil => rw [ids_nil] at hx; cases hx
  | @cons id parts ss _ within _ _ _ ihBody ih =>
    rcases mem_ids_cons.1 hx with rfl | hx | hx
    · exact ⟨_, List.mem_cons_self, hcontains⟩
    · obtain ⟨s, hs, hroot⟩ := ihBody hx
      exact ⟨_, List.mem_cons_self, (within s hs).2.contains hroot⟩
    · obtain ⟨s, hs, hroot⟩ := ih hx
      exact ⟨s, List.mem_cons_of_mem _ hs, hroot⟩

theorem Nested.covering_eq_nil (h : Nested a ss)
    (hnone : ∀ s ∈ ss, ¬ (a.get s.root).location.contains q = true) :
    a.covering q (ids ss) = [] := by
  refine List.filter_eq_nil_iff.2 fun x hx hcontains => ?_
  obtain ⟨s, hs, hroot⟩ := h.exists_root hx hcontains
  exact hnone s hs hroot

theorem covering_cons (q : Position) (s : Shape) (ss : List Shape) :
    a.covering q (ids (s :: ss)) = a.covering q (ids [s]) ++ a.covering q (ids ss) := by
  rw [ids_cons, Arena.covering, List.filter_append]
  rfl

theorem covering_singleton_of_contains {parts : List Shape} (h : (a.get p).location.contains q = true) :
    a.covering q (ids [⟨p, parts⟩]) = p :: a.covering q (ids parts) := by
  rw [ids_singleton]
  exact List.filter_cons_of_pos h

/-- The elements around a position are one below the other, from one of the topmost elements on. -/
theorem Nested.isChain_covering (h : Nested a ss) (hspans : Spans a ss)
    (horder : ss.Pairwise (Precedes a)) (q : Position) :
    (a.covering q (ids ss)).IsChain (fun x y => y ∈ a.children x) ∧
      ∀ x ∈ (a.covering q (ids ss)).head?, ∃ s ∈ ss, s.root = x := by
  induction h with
  | nil => rw [ids_nil]; exact ⟨.nil, nofun⟩
  | @cons id parts ss fits within order body tail ihBody ih =>
    rw [Spans] at hspans
    obtain ⟨hchildren, hparts, hss⟩ := hspans
    obtain ⟨hprecedes, horder⟩ := List.pairwise_cons.1 horder
    have hone : Nested a [⟨id, parts⟩] := .cons fits within order body .nil
    rw [covering_cons]
    by_cases hid : (a.get id).location.contains q = true
    · -- No later element contains the position, and below this one the elements go on.
      obtain ⟨hchain, hhead⟩ := ihBody hparts order
      rw [tail.covering_eq_nil fun s hs => (hprecedes s hs).disjoint hid, List.append_nil,
        covering_singleton_of_contains hid]
      refine ⟨List.isChain_cons.2 ⟨fun y hy => ?_, hchain⟩, fun x hx =>
        ⟨_, List.mem_cons_self, Option.some.inj hx⟩⟩
      obtain ⟨s, hs, rfl⟩ := hhead y hy
      exact hchildren ▸ List.mem_map_of_mem hs
    · obtain ⟨hchain, hhead⟩ := ih hss horder
      rw [hone.covering_eq_nil (List.forall_mem_singleton.2 hid), List.nil_append]
      refine ⟨hchain, fun x hx => ?_⟩
      obtain ⟨s, hs, hroot⟩ := hhead x hx
      exact ⟨s, List.mem_cons_of_mem _ hs, hroot⟩

/-- The children of every element lie within it, one after the other. -/
theorem Nested.children (h : Nested a ss) (hspans : Spans a ss) (hx : x ∈ ids ss) :
    (∀ c ∈ a.children x, ¬ (a.get c).location.last.Before (a.get c).location.first ∧
      (a.get c).location.Inside (a.get x).location) ∧
    (a.children x).Pairwise fun c d => (a.get c).location.last.Before (a.get d).location.first := by
  induction h with
  | nil => rw [ids_nil] at hx; cases hx
  | @cons id parts ss _ within order body _ ihBody ih =>
    rw [Spans] at hspans
    obtain ⟨hchildren, hparts, hss⟩ := hspans
    rcases mem_ids_cons.1 hx with rfl | hx | hx
    · rw [hchildren, List.pairwise_map]
      refine ⟨List.forall_mem_map.2 fun s hs => ⟨?_, (within s hs).2⟩, order⟩
      obtain ⟨id, parts⟩ := s
      exact (nested_singleton.1 (body.of_mem hs)).1.order (within _ hs).1
    · exact ihBody hparts hx
    · exact ih hss hx

end Shape

/-! ### The search -/

/-- Of the children the last one that finds an element is that of the last element found at all. -/
theorem findSome_covering {f : ElementId → Option ElementId}
    (h : ∀ s ∈ ss, f s.root = (a.covering q (ids [s])).getLast?) :
    (ss.map root).reverse.findSome? f = (a.covering q (ids ss)).getLast? := by
  induction ss with
  | nil => rw [ids_nil]; rfl
  | cons s ss ih =>
    obtain ⟨hs, hss⟩ := List.forall_mem_cons.1 h
    rw [List.map_cons, List.reverse_cons, List.findSome?_append, ih hss, List.findSome?_singleton, hs,
      covering_cons q s ss, List.getLast?_append]

/-- The search from an element on finds the last element around the position. -/
theorem innermostWithin_eq (depth : Nat) (h : Tidy a used p ss) (hnested : Nested a [⟨p, ss⟩])
    (hdepth : (ids [⟨p, ss⟩]).length ≤ depth + 1) (q : Position) :
    a.innermostWithin q depth p = (a.covering q (ids [⟨p, ss⟩])).getLast? := by
  have houtside {p : ElementId} {ss : List Shape} (hnested : Nested a [⟨p, ss⟩])
      (hp : ¬ (a.get p).location.contains q = true) :
      none = (a.covering q (ids [⟨p, ss⟩])).getLast? := by
    rw [hnested.covering_eq_nil (List.forall_mem_singleton.2 hp)]
    rfl
  induction depth generalizing p ss with
  | zero =>
    rw [ids_singleton, List.length_cons] at hdepth
    rw [Arena.innermostWithin]
    split
    · next hp =>
      rw [covering_singleton_of_contains hp, List.length_eq_zero_iff.1 (by omega : (ids ss).length = 0)]
      rfl
    · next hp => exact houtside hnested hp
  | succ depth ih =>
    rw [ids_singleton, List.length_cons] at hdepth
    rw [Arena.innermostWithin]
    split
    · next hp =>
      rw [covering_singleton_of_contains hp, List.getLast?_cons, h.children, findSome_covering]
      intro s hs
      obtain ⟨c, parts⟩ := s
      obtain ⟨hpart, hsub⟩ := h.of_mem hs
      exact ih hpart ((nested_singleton.1 hnested).2.2.2.of_mem hs) (Nat.le_trans hsub.length_le (by omega))
    · next hp => exact houtside hnested hp

theorem innermost_eq (h : Tidy a used p ss) (hnested : Nested a [⟨p, ss⟩]) (q : Position) :
    a.innermost? p q = (a.covering q (ids [⟨p, ss⟩])).getLast? := by
  have hsize := h.length_ids_le
  exact innermostWithin_eq a.size h hnested (by omega) q

end

/-! ### Finished templates -/

variable {name : Option String} {text : String} {strip : Bool} {t : Template}

/-- Cleanup leaves spans that nest. -/
theorem Template.exists_nested (h : Template.parse name text strip = .ok t) :
    ∃ used us, Tidy t.arena used t.root us ∧ Shape.Nested t.arena [⟨t.root, us⟩] := by
  obtain ⟨raw, parts, us, hraw, hfinished⟩ := exists_finished_of_parse h
  obtain ⟨used, htidy⟩ := hfinished.tidy
  exact ⟨used, us, htidy, (hfinished.settles (hfinished.holds.nested (Tree.nested_of_parse hraw))).nested⟩

/-- The spans of a template nest: those of the children of an element lie within its own, one strictly after
the other. So the elements around a position make up a way down from the root, each a child of the one
before, and the search finds the last of them, or none if there are none. -/
theorem Template.innermost_covering (h : Template.parse name text strip = .ok t) :
    (∀ x ∈ t.elements, (∀ c ∈ t.arena.children x,
        ¬ (t.arena.get c).location.last.Before (t.arena.get c).location.first ∧
        (t.arena.get c).location.Inside (t.arena.get x).location) ∧
      (t.arena.children x).Pairwise fun c d =>
        (t.arena.get c).location.last.Before (t.arena.get d).location.first) ∧
    ∀ q, (∀ x ∈ (t.covering q).head?, x = t.root) ∧
      (t.covering q).IsChain (fun x y => y ∈ t.arena.children x) ∧
      t.innermost? q = (t.covering q).getLast? ∧
      (t.innermost? q = none ↔ ∀ x ∈ t.elements, (t.arena.get x).location.contains q = false) := by
  obtain ⟨used, us, htidy, hnested⟩ := Template.exists_nested h
  have helements : t.elements = ids [⟨t.root, us⟩] := preorder_eq_ids htidy
  refine ⟨fun x hx => hnested.children htidy.spans (helements ▸ hx), fun q => ?_⟩
  obtain ⟨hchain, hhead⟩ := hnested.isChain_covering htidy.spans (List.pairwise_singleton _ _) q
  have hinnermost : t.innermost? q = (t.covering q).getLast? := by
    rw [Template.covering, helements]
    exact innermost_eq htidy hnested q
  refine ⟨fun x hx => ?_, by rwa [Template.covering, helements], hinnermost, ?_⟩
  · rw [Template.covering, helements] at hx
    obtain ⟨s, hs, rfl⟩ := hhead x hx
    rw [List.mem_singleton.1 hs]
    rfl
  · rw [hinnermost, List.getLast?_eq_none_iff, Template.covering, Arena.covering, List.filter_eq_nil_iff]
    simp only [Bool.not_eq_true]

/-- The position of an interpolation in the only branch of an if block, between texts that lose blanks. -/
theorem Template.innermost_covering_branch : ∃ t,
    Template.parse none "a\n  \x7b[#if x]\x7d\n b\x7b[ y ]\x7d\n  \x7b[/if]\x7d\nc" true = .ok t ∧
    t.covering ⟨3, 3⟩ = [7, 4, 2] ∧ t.root = 7 ∧ 4 ∈ t.arena.children 7 ∧ 2 ∈ t.arena.children 4 ∧
    t.innermost? ⟨3, 3⟩ = some 2 ∧
    (t.arena.get 4).location.Inside (t.arena.get 7).location ∧
    (t.arena.get 2).location.Inside (t.arena.get 4).location := by
  obtain ⟨t, ht, hcovering⟩ := exists_of_parses
    none "a\n  \x7b[#if x]\x7d\n b\x7b[ y ]\x7d\n  \x7b[/if]\x7d\nc" true
    (fun t => t.covering ⟨3, 3⟩ == [7, 4, 2]) (by decide +kernel)
  rw [beq_iff_eq] at hcovering
  obtain ⟨hnested, hposition⟩ := innermost_covering ht
  obtain ⟨hroot, hchain, hinnermost, -⟩ := hposition ⟨3, 3⟩
  have helement : ∀ x ∈ [7, 4, 2], x ∈ t.elements :=
    fun x hx => (List.mem_filter.1 (hcovering ▸ hx : x ∈ t.covering ⟨3, 3⟩)).1
  rw [hcovering] at hroot hchain hinnermost
  have hfour : 4 ∈ t.arena.children 7 := (List.isChain_cons_cons.1 hchain).1
  have htwo : 2 ∈ t.arena.children 4 := (List.isChain_cons_cons.1 (List.isChain_cons_cons.1 hchain).2).1
  exact ⟨t, ht, hcovering, (hroot 7 rfl).symm, hfour, htwo, hinnermost,
    ((hnested 7 (helement 7 (by simp))).1 4 hfour).2,
    ((hnested 4 (helement 4 (by simp))).1 2 htwo).2⟩

end Stencil
