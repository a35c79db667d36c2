import Stencil.Proofs.Cleanup.Removals

/-! # Where elements are after a pass

A pass over consistent elements comes to an end whatever they are, and nothing it takes for granted fails.
Of what it takes out of lists of children, what could go has let go of its parent; an element that has given
its place to another still names the parent, and is the only kind of element that is not where it says. -/

namespace Stencil

open Shape

section
variable {a : Arena} {x : ElementId}

/-- No element of a loaded tree stands below itself. -/
theorem Loaded.forest {t : Tree} {r : ElementId} {parts : List Shape}
    (h : Loaded {} a [t] [⟨r, parts⟩]) (x : ElementId) :
    ¬ a.Under x x := by
  by_cases hx : x < a.size
  · have hroot := List.mem_singleton_self (⟨r, parts⟩ : Shape)
    have htidy : Tidy a (· < a.size) r parts := ⟨h.sound, (h.new (root_mem_ids hroot)).2, h.spans, h.nodup⟩
    have hway := (htidy.of_mem_ids (h.roots hroot) (h.all (Nat.zero_le x) hx)).1
    exact fun hunder => hway.notMem (hway.mem_iff.2 hunder)
  · exact Arena.not_under_of_orphan (by rw [a.get_eq_default (Nat.le_of_not_lt hx)]; rfl)

/-- Cleanup stops nowhere. Whatever elements there are, if their links fit in both directions and none
stands below itself, every element and child that a pass asks for is there, its walks and loops come to an
end, a line number has room for one more, and it cuts texts where characters begin and end; so the pass with
all of that checked comes to the same as the pass without. What is cut off the two ends of a text does not
overlap, whatever stands around the text. -/
theorem Checked.clean_ends (strip : Bool) (links : a.Sound (· < a.size)) (forest : ∀ y, ¬ a.Under y y)
    (lines : ∀ y < a.size, (a.get y).location.first.line < Int32.maxValue.toInt) (hx : x < a.size) :
    (∃ g b removals, Checked.clean Int32.maxValue.toInt strip x ⟨a, []⟩ = .ok g ⟨b, removals⟩ ∧
      Edit.clean strip x a = .ok g b) ∧
    ∀ (b : Arena) (y : ElementId) (opening trailing : Nat), Checked.openingCut b y = .ok opening →
      Checked.trailingCut b y = .ok trailing →
      opening + trailing ≤ Checked.bytes (Checked.textOf (b.get y)) ∧
      ∃ front kept back, Checked.textOf (b.get y) = front ++ (kept ++ back) ∧ Checked.bytes front = opening ∧
        Checked.bytes back = trailing := by
  refine ⟨?_, fun b y opening trailing hopening htrailing => ?_⟩
  · obtain ⟨g, b, -, removals, hchecked, hplain, -, -⟩ :=
      (Tracks.start links forest lines).exists_clean strip hx
    exact ⟨g, b, removals, hchecked, hplain⟩
  · obtain ⟨front, kept, back, hsplit, rfl, rfl⟩ := Checked.cuts_apart hopening htrailing
    refine ⟨?_, front, kept, back, hsplit, rfl, rfl⟩
    rw [hsplit, Checked.bytes_append, Checked.bytes_append]
    omega

/-- An if block that holds a text, which moves to where the block is, and a sequence that has nothing left. -/
theorem Checked.clean_ends_block : ∃ a : Arena, a.Sound (· < a.size) ∧ (∀ y, ¬ a.Under y y) ∧
    (∀ y < a.size, (a.get y).location.first.line < Int32.maxValue.toInt) ∧ 5 < a.size ∧
    a.children 5 = [1, 4] ∧ (a.get 1).kind = .ifBlock ∧ (a.get 0).kind = .text " é\n  " false ∧
    ∃ g b removals, Checked.clean Int32.maxValue.toInt true 5 ⟨a, []⟩ = .ok g ⟨b, removals⟩ ∧
    Edit.clean true 5 a = .ok g b := by
  obtain ⟨parts, hloaded⟩ := exists_load (a := {}) ⟨.sequence, {}, false,
    [⟨.ifBlock, {}, false, [⟨.text " é\n  " false, {}, true, []⟩]⟩,
      ⟨.sequence, {}, false, [⟨.comment "c", {}, false, []⟩, ⟨.text "" false, {}, false, []⟩]⟩]⟩
        Arena.sound_empty
  have hlines : ∀ y < 6, ((Arena.load {} ⟨.sequence, {}, false,
      [⟨.ifBlock, {}, false, [⟨.text " é\n  " false, {}, true, []⟩]⟩,
        ⟨.sequence, {}, false, [⟨.comment "c", {}, false, []⟩, ⟨.text "" false, {}, false, []⟩]⟩]⟩).1.get
          y).location.first.line <
      Int32.maxValue.toInt := by decide +kernel
  exact ⟨_, hloaded.sound, hloaded.forest, hlines,
    by decide +kernel, by decide +kernel, by decide +kernel, by decide +kernel,
    (Checked.clean_ends true hloaded.sound hloaded.forest hlines (by decide +kernel)).1⟩

/-! ### What has left a list of children -/

/-- However far down the elements stand, some line is below them all. -/
theorem exists_greatest (a : Arena) : ∃ greatest :
    Int, ∀ y < a.size, (a.get y).location.first.line < greatest := by
  induction a.size with
  | zero => exact ⟨0, fun y hy => absurd hy (Nat.not_lt_zero y)⟩
  | succ n ih =>
    obtain ⟨greatest, hgreatest⟩ := ih
    refine ⟨max greatest ((a.get n).location.first.line + 1), fun y hy => ?_⟩
    rcases Nat.lt_succ_iff_lt_or_eq.1 hy with hy | rfl
    · exact Int.lt_of_lt_of_le (hgreatest y hy) (Int.le_max_left _ _)
    · exact Int.lt_of_lt_of_le (Int.lt_succ _) (Int.le_max_right _ _)

/-- A sequence with one text, and a text beside it, in a sequence. -/
theorem exists_nested : ∃ a b, Built a ∧ 0 < a.size ∧ a.children 0 = [1, 3] ∧ a.children 1 = [2] ∧
    Edit.clean false 0 a = .ok 0 b ∧
    b.children 0 = [2, 3] ∧ (b.get 1).parent = some 0 ∧ (b.get 1).index = 0 := by
  have hroot := @Built.ok _ _ (.create .sequence {}) .empty trivial rfl
  have hinner := @Built.ok _ _ (.create .sequence {}) hroot trivial rfl
  have htext := @Built.ok _ _ (.create (.text "a" false) {}) hinner trivial rfl
  have hother := @Built.ok _ _ (.create (.text "b" false) {}) htext trivial rfl
  have hfirst := @Built.ok _ _ (.add 1 2) hother
    ⟨by decide, by decide, rfl, by decide, Arena.not_under_of_orphan rfl⟩ rfl
  have hsecond := @Built.ok _ _ (.add 0 1) hfirst
    ⟨by decide, by decide, rfl, by decide, Arena.not_under_of_orphan rfl⟩ rfl
  have hthird := @Built.ok _ _ (.add 0 3) hsecond
    ⟨by decide, by decide, rfl, by decide, Arena.not_under_of_orphan rfl⟩ rfl
  exact ⟨_, _, hthird, by decide, rfl, rfl, rfl, rfl, rfl, rfl⟩

/-- Cleaning up consistent elements leaves everything in its place but what it takes out of lists of
children. What can go has no parent and no place any more. An element that has given its place to another
still names the parent that does not list it any more, and the place that it had; all others that name a
parent are its children at their places. -/
theorem Edit.clean_leaves (strip : Bool) (links : a.Sound (· < a.size))
    (forest : ∀ y, ¬ a.Under y y) (hx : x < a.size) :
    ∃ greatest g b removals, Checked.clean greatest strip x ⟨a, []⟩ = .ok g ⟨b, removals⟩ ∧
      Edit.clean strip x a = .ok g b ∧
      b.size = a.size ∧
      (∀ p y, .dropped p y ∈ removals → (b.get y).parent = none ∧ (b.get y).index = 0) ∧
      (∀ p i y g', .replaced p i y g' ∈ removals → (b.get y).parent = some p ∧
        (b.get y).index = i ∧ y ∉ b.children p) ∧
      ∀ y < b.size, (∀ p i g', .replaced p i y g' ∉ removals) → ∀ p, (b.get y).parent = some p →
        (b.children p)[(b.get y).index]? = some y := by
  obtain ⟨greatest, hgreatest⟩ := exists_greatest a
  obtain ⟨g, b, used, removals, hchecked, hplain, htracks, hsize⟩ :=
    (Tracks.start links forest hgreatest).exists_clean strip hx
  refine ⟨greatest, g, b, removals, hchecked, hplain, hsize, fun p y hin => (htracks.holds hin).2,
    fun p i y g' hin => ?_,
    fun y hy hkept p hparent => ?_⟩
  · obtain ⟨-, -, hholds⟩ := htracks.holds hin
    exact hholds
  · have hused : used y := by
      by_contra hnot
      obtain ⟨p, i, g', hin⟩ := htracks.replaced hy hnot
      exact hkept p i g' hin
    exact (htracks.sound.parent hused hparent).2

/-- What a pass leaves of a sequence in a sequence with one text, beside another text. -/
theorem Edit.clean_leaves_replaced : ∃ a :
    Arena, a.children 0 = [1, 3] ∧ a.children 1 = [2] ∧ a.Sound (· < a.size) ∧
    (∀ y, ¬ a.Under y y) ∧ 0 < a.size ∧
    ∃ greatest g b removals, Checked.clean greatest false 0 ⟨a, []⟩ = .ok g ⟨b, removals⟩ ∧
      Edit.clean false 0 a = .ok g b ∧
      b.size = a.size ∧
      (∀ p y, .dropped p y ∈ removals → (b.get y).parent = none ∧ (b.get y).index = 0) ∧
      (∀ p i y g', .replaced p i y g' ∈ removals → (b.get y).parent = some p ∧
        (b.get y).index = i ∧ y ∉ b.children p) ∧
      ∀ y < b.size, (∀ p i g', .replaced p i y g' ∉ removals) → ∀ p, (b.get y).parent = some p →
        (b.children p)[(b.get y).index]? = some y := by
  obtain ⟨a, b, hbuilt, hsize, hchildren, honly, -⟩ := exists_nested
  exact ⟨a, hchildren, honly, hbuilt.consistent.links, hbuilt.consistent.forest, hsize,
    Edit.clean_leaves false hbuilt.consistent.links hbuilt.consistent.forest hsize⟩

/-- A sequence whose place its only child has taken names the parent that does not list it any more. -/
theorem Edit.clean_keeps_parent : ∃ a b, Built a ∧ a.Consistent ∧ a.children 0 = [1, 3] ∧ a.children 1 = [2] ∧
    Edit.clean false 0 a = .ok 0 b ∧ b.children 0 = [2, 3] ∧ (b.get 1).parent = some 0 ∧
    (b.get 1).index = 0 := by
  obtain ⟨a, b, hbuilt, -, hchildren, honly, hclean, hlisted, hparent, hindex⟩ := exists_nested
  exact ⟨a, b, hbuilt, hbuilt.consistent, hchildren, honly, hclean, hlisted, hparent, hindex⟩

end

end Stencil
