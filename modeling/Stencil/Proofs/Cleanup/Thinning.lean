import Stencil.Proofs.Cleanup.Steps

/-! # What becomes of children

A pass takes children out of a list or puts others in their places, one at a time, and never moves a child
past another. So the neighbours of a child later on are told by those it had. -/

namespace Stencil

open Execution

/-- The children that are left of some: comments, texts and sequences may be gone, and others may
stand for those before. -/
inductive Arena.Thinned (a : Arena) : List ElementId → List ElementId → Prop
  | nil : Thinned a [] []
  | gone {x : ElementId} {xs ys : List ElementId}
    (goes : Kind.IsLeaf (a.get x).kind ∨ (a.get x).kind = .sequence)
    (rest : Thinned a xs ys) : Thinned a (x :: xs) ys
  | left {x g : ElementId} {xs ys : List ElementId} (stands : a.StandsFor g x) (rest : Thinned a xs ys) :
    Thinned a (x :: xs) (g :: ys)

section
variable {strip : Bool} {a b c : Arena} {x y g e : ElementId} {xs ys xs' ys' pre post : List ElementId}

namespace Arena

/-! ### Elements in the places of others -/

theorem StandsFor.trans (h : a.StandsFor x y) (h' : a.StandsFor y e) : a.StandsFor x e := by
  rcases h' with rfl | hsequence | ⟨hblock, branch, condition, hbranch⟩
  · exact h
  · exact .inr (.inl hsequence)
  · rcases h with rfl | hsequence | ⟨hblock', -⟩
    · exact .inr (.inr ⟨hblock, branch, condition, hbranch⟩)
    · rw [hbranch] at hsequence; cases hsequence
    · rw [hbranch] at hblock'; cases hblock'

theorem StandsFor.of_evolves (h : b.StandsFor x y) (he : Evolves strip a b) : a.StandsFor x y := by
  rcases h with rfl | hsequence | ⟨hblock, branch, condition, hbranch⟩
  · exact .inl rfl
  · exact .inr (.inl (((he.element y).kind_iff (by rintro ⟨⟩)).1 hsequence))
  · exact .inr (.inr ⟨((he.element y).kind_iff (by rintro ⟨⟩)).1 hblock, branch, condition,
      ((he.element x).kind_iff (by rintro ⟨⟩)).1 hbranch⟩)

/-- What stands for an element that is neither a sequence nor an if block is the element. -/
theorem StandsFor.eq (h : a.StandsFor x y) (hsequence : (a.get y).kind ≠ .sequence)
    (hblock : (a.get y).kind ≠ .ifBlock) : x = y := by
  rcases h with rfl | h | ⟨h, -⟩
  · rfl
  · exact absurd h hsequence
  · exact absurd h hblock

/-- A text stands for itself, or for a sequence. -/
theorem StandsFor.eq_of_isText (h : a.StandsFor x y) (hsequence : (a.get y).kind ≠ .sequence)
    (htext : (a.get x).kind.isText = true) :
    x = y := by
  rcases h with rfl | hsame | ⟨-, branch, condition, hbranch⟩
  · rfl
  · exact absurd hsame hsequence
  · rw [hbranch] at htext; cases htext

/-! ### Lists of children -/

namespace Thinned

theorem refl (a : Arena) (xs : List ElementId) : Thinned a xs xs := by
  induction xs with
  | nil => exact .nil
  | cons x xs ih => exact .left (.inl rfl) ih

theorem append (h : Thinned a xs ys) (h' : Thinned a xs' ys') : Thinned a (xs ++ xs') (ys ++ ys') := by
  induction h with
  | nil => exact h'
  | gone goes _ ih => exact .gone goes ih
  | left stands _ ih => exact .left stands ih

/-- A child that is left stands for one there was, and the lists before and after the
two are thinned likewise. -/
theorem exists_before (h : Thinned a xs (pre ++ g :: post)) :
    ∃ pre' x post', xs = pre' ++ x :: post' ∧ a.StandsFor g x ∧ Thinned a pre' pre ∧
    Thinned a post' post := by
  generalize hys : pre ++ g :: post = ys at h
  induction h generalizing pre with
  | nil => simp at hys
  | gone goes _ ih =>
    obtain ⟨pre', y, post', rfl, hstands, hpre, hpost⟩ := ih hys
    exact ⟨_ :: pre', y, post', rfl, hstands, .gone goes hpre, hpost⟩
  | @left x _ xs _ stands rest ih =>
    cases pre with
    | nil =>
      obtain ⟨rfl, rfl⟩ := List.cons.inj hys
      exact ⟨[], x, xs, rfl, stands, .nil, rest⟩
    | cons y pre =>
      obtain ⟨rfl, htail⟩ := List.cons.inj hys
      obtain ⟨pre', z, post', rfl, hstands, hpre, hpost⟩ := ih htail
      exact ⟨x :: pre', z, post', rfl, hstands, .left stands hpre, hpost⟩

theorem exists_append (h : Thinned a (pre ++ xs) ys) :
    ∃ pre' ys', ys = pre' ++ ys' ∧ Thinned a pre pre' ∧ Thinned a xs ys' := by
  induction pre generalizing ys with
  | nil => exact ⟨[], ys, rfl, .nil, h⟩
  | cons x pre ih =>
    cases h with
    | gone goes rest =>
      obtain ⟨pre', ys', rfl, hpre, hxs⟩ := ih rest
      exact ⟨pre', ys', rfl, .gone goes hpre, hxs⟩
    | left stands rest =>
      obtain ⟨pre', ys', rfl, hpre, hxs⟩ := ih rest
      exact ⟨_ :: pre', ys', rfl, .left stands hpre, hxs⟩

/-- Something is left of a child that cannot go. -/
theorem exists_after (h : Thinned a (pre ++ x :: post) ys)
    (hx : ¬ (Kind.IsLeaf (a.get x).kind ∨ (a.get x).kind = .sequence)) :
    ∃ pre' g post', ys = pre' ++ g :: post' ∧ a.StandsFor g x ∧ Thinned a pre pre' ∧
    Thinned a post post' := by
  obtain ⟨pre', ys', rfl, hpre, hrest⟩ := h.exists_append
  cases hrest with
  | gone goes _ => exact absurd goes hx
  | left stands hpost => exact ⟨pre', _, _, rfl, stands, hpre, hpost⟩

theorem length_le (h : Thinned a xs ys) : ys.length ≤ xs.length := by
  induction h with
  | nil => exact Nat.le_refl _
  | gone _ _ ih => exact Nat.le_succ_of_le ih
  | left _ _ ih => exact Nat.succ_le_succ ih

/-- A text that is left was there before. -/
theorem exists_text (h : Thinned a xs (pre ++ x :: post)) (hsequence : ∀ y ∈ xs, (a.get y).kind ≠ .sequence)
    (htext : (a.get x).kind.isText = true) :
    ∃ pre' post', xs = pre' ++ x :: post' ∧ Thinned a pre' pre ∧ Thinned a post' post := by
  obtain ⟨pre', y, post', rfl, hstands, hpre, hpost⟩ := h.exists_before
  obtain rfl := hstands.eq_of_isText (hsequence y (by simp)) htext
  exact ⟨pre', post', rfl, hpre, hpost⟩

theorem ne_sequence (h : Thinned a xs ys) (hsequence : ∀ x ∈ xs, (a.get x).kind ≠ .sequence) :
    ∀ y ∈ ys, (a.get y).kind ≠ .sequence := by
  intro y hy
  obtain ⟨pre, post, rfl⟩ := List.append_of_mem hy
  obtain ⟨pre', x, post', rfl, hstands, -, -⟩ := h.exists_before
  rcases hstands with rfl | hsame | ⟨-, branch, condition, hbranch⟩
  · exact hsequence y (by simp)
  · exact absurd hsame (hsequence x (by simp))
  · rw [hbranch]; exact Kind.noConfusion

/-- If none is gone, the last one stands for the last one there was. -/
theorem exists_getLast (h : Thinned a xs ys) (hlength : xs.length ≤ ys.length) (hy : y ∈ ys.getLast?) :
    ∃ x ∈ xs.getLast?, a.StandsFor y x := by
  obtain ⟨ys, rfl⟩ := List.getLast?_eq_some_iff.1 hy
  obtain ⟨pre, x, post, rfl, hstands, hpre, -⟩ := h.exists_before
  have hle := hpre.length_le
  rw [List.length_append, List.length_append, List.length_cons, List.length_singleton] at hlength
  obtain rfl : post = [] := List.length_eq_zero_iff.1 (by omega)
  exact ⟨x, by simp, hstands⟩

/-- If none is gone, the first one stands for the first one there was. -/
theorem exists_head (h : Thinned a xs ys) (hlength : xs.length ≤ ys.length) (hy : y ∈ ys.head?) :
    ∃ x ∈ xs.head?, a.StandsFor y x := by
  obtain ⟨ys, rfl⟩ := List.head?_eq_some_iff.1 hy
  have hbefore : Thinned a xs ([] ++ y :: ys) := h
  obtain ⟨pre, x, post, rfl, hstands, -, hpost⟩ := hbefore.exists_before
  have hle := hpost.length_le
  rw [List.length_append, List.length_cons, List.length_cons] at hlength
  obtain rfl : pre = [] := List.length_eq_zero_iff.1 (by omega)
  exact ⟨x, rfl, hstands⟩

theorem put (h : Thinned a xs (pre ++ e :: post)) (hstands : a.StandsFor g e) :
    Thinned a xs (pre ++ g :: post) := by
  obtain ⟨pre', x, post', rfl, he, hpre, hpost⟩ := h.exists_before
  exact hpre.append (.left (hstands.trans he) hpost)

theorem drop (h : Thinned a xs (pre ++ e :: post))
    (he : Kind.IsLeaf (a.get e).kind ∨ (a.get e).kind = .sequence) :
    Thinned a xs (pre ++ post) := by
  obtain ⟨pre', x, post', rfl, hstands, hpre, hpost⟩ := h.exists_before
  refine hpre.append (.gone ?_ hpost)
  rcases hstands with rfl | hsequence | ⟨-, branch, condition, hbranch⟩
  · exact he
  · exact .inr hsequence
  · rw [hbranch] at he
    rcases he with he | he <;> cases he

end Thinned

end Arena

/-! ### Steps -/

/-- What can go is a comment, a text or a sequence. -/
theorem goes_of_isIgnorable (h : b.isIgnorable e strip = .ok true) :
    Kind.IsLeaf (b.get e).kind ∨ (b.get e).kind = .sequence := by
  rw [Arena.isIgnorable] at h
  cases hkind : (b.get e).kind with
  | text text trimmed => exact .inl (.text text trimmed)
  | comment text => exact .inl (.comment text)
  | sequence => exact .inr rfl
  | _ => rw [hkind] at h; cases h

theorem Evolves.goes (h : Evolves strip a b)
    (hgoes : Kind.IsLeaf (b.get e).kind ∨ (b.get e).kind = .sequence) :
    Kind.IsLeaf (a.get e).kind ∨ (a.get e).kind = .sequence :=
  hgoes.imp (h.element e).isLeaf ((h.element e).kind_iff (by rintro ⟨⟩)).1

/-- No step does more to the children of an element than thin them. -/
theorem Steps.thinned (h : Steps strip a b) (q : ElementId) : a.Thinned (a.children q) (b.children q) := by
  induction h using Steps.links_induction with
  | start => exact .refl a _
  | same _ _ links ih => rwa [links.children]
  | @placed b c before _ p e g pre post children put stands ih =>
    by_cases hq : q = p
    · rw [hq] at ih ⊢
      rw [children] at ih
      rw [put.children]
      exact ih.put (stands.of_evolves before.evolves)
    · rwa [put.children_of_ne hq]
  | @dropped b c before _ p e pre post children out ignorable ih =>
    by_cases hq : q = p
    · rw [hq] at ih ⊢
      rw [children] at ih
      rw [out.children]
      exact ih.drop (before.evolves.goes (goes_of_isIgnorable ignorable))
    · rwa [out.children_of_ne hq]

/-- An element that cannot go keeps to have a parent. -/
theorem Steps.parent (h : Steps strip a b) (hx : ¬ (Kind.IsLeaf (a.get x).kind ∨ (a.get x).kind = .sequence))
    (hparent : (a.get x).parent ≠ none) : (b.get x).parent ≠ none := by
  induction h using Steps.links_induction with
  | start => exact hparent
  | same _ _ links ih => rwa [(links.place x).1]
  | @placed b c before _ p e g pre post children put stands ih =>
    by_cases hxg : x = g
    · rw [hxg, put.put]
      exact Option.some_ne_none p
    · rwa [(put.links hxg).1]
  | @dropped b c before _ p e pre post children out ignorable ih =>
    have hxe : x ≠ e := by
      rintro rfl
      exact hx (before.evolves.goes (goes_of_isIgnorable ignorable))
    by_cases hxpost : x ∈ post
    · obtain ⟨j, hj⟩ := List.getElem?_of_mem hxpost
      rw [out.after hj]
      exact Option.some_ne_none p
    · rwa [(out.links hxe hxpost).1]

/-- A text among the children at the end has been there all the time. -/
theorem Steps.mem_children (h : Steps strip a b) (h' : Steps strip b c) {q : ElementId}
    (hsequence : ∀ y ∈ a.children q, (a.get y).kind ≠ .sequence) (htext : (a.get x).kind.isText = true)
    (hx : x ∈ c.children q) :
    x ∈ b.children q := by
  obtain ⟨pre, post, hchildren⟩ := List.append_of_mem hx
  have hthinned := h'.thinned q
  rw [hchildren] at hthinned
  obtain ⟨pre', post', hbefore, -, -⟩ := hthinned.exists_text (fun y hy hsame =>
    (h.thinned q).ne_sequence hsequence y hy (((h.evolves.element y).kind_iff (by rintro ⟨⟩)).1 hsame))
      ((h.became x).isText.trans htext)
  rw [hbefore]
  simp

end

end Stencil
