import Stencil.Proofs.Cleanup.Meaning

/-! # Walks, and the text that begins a template

A text keeps its blanks only for an element that a walk from it meets on its line. No walk forward leads to
what begins a template, and a text that does is trimmed before anything else happens. -/

namespace Stencil

open Shape

/-! ### What a walk meets -/

namespace Arena

variable {a : Arena} {used : ElementId → Prop} {line : Int} {steps : Nat} {p x y z : ElementId}

/-- Blanks at the end of a line are kept for an element after them that begins on it. -/
theorem exists_of_heededAfter (h : a.heededAfter line steps (a.nextTerminal? x) = .ok true) :
    ∃ y z, a.nextTerminal? y = some z ∧ (a.get z).location.first.line = line ∧
    a.heedsTrailing z = .ok true := by
  induction steps generalizing x with
  | zero =>
    simp only [heededAfter, Except.ok.injEq, Bool.false_eq_true] at h
  | succ steps ih =>
    cases hz : a.nextTerminal? x with
    | none => simp only [hz, heededAfter, Except.ok.injEq, Bool.false_eq_true] at h
    | some z =>
      rw [hz, heededAfter] at h
      split at h
      · cases h
      · next hline =>
        obtain ⟨heeds, hheeds, h⟩ := exists_of_bind_eq_ok h
        cases heeds with
        | true => exact ⟨x, z, hz, not_not.1 hline, hheeds⟩
        | false => exact ih h

/-- Blanks at the beginning of a line are kept for an element before them that ends on it. -/
theorem exists_of_heededBefore {leaf : Option ElementId} (h : a.heededBefore line steps leaf = .ok true) :
    ∃ z, (a.get z).location.last.line = line ∧ a.heedsOpening z = .ok true := by
  induction steps generalizing leaf with
  | zero => simp only [heededBefore, Except.ok.injEq, Bool.false_eq_true] at h
  | succ steps ih =>
    cases leaf with
    | none => simp only [heededBefore, Except.ok.injEq, Bool.false_eq_true] at h
    | some z =>
      rw [heededBefore] at h
      split at h
      · cases h
      · next hline =>
        obtain ⟨heeds, hheeds, h⟩ := exists_of_bind_eq_ok h
        cases heeds with
        | true => exact ⟨z, not_not.1 hline, hheeds⟩
        | false =>
          obtain ⟨leaf, -, h⟩ := exists_of_bind_eq_ok h
          exact ih h

theorem heedsTrailing_of_ok (h : a.heedsTrailing x = .ok true) : (a.get x).kind.heedsTrailing = true := by
  obtain ⟨goes, -, h⟩ := exists_of_bind_eq_ok h
  exact (Bool.and_eq_true_iff.1 (Except.ok.inj h)).2

theorem heedsOpening_of_ok (h : a.heedsOpening x = .ok true) : (a.get x).kind.heedsOpening = true := by
  obtain ⟨goes, -, h⟩ := exists_of_bind_eq_ok h
  exact (Bool.and_eq_true_iff.1 (Except.ok.inj h)).2

/-! ### Walks forward -/

/-- The first leaf below an element is the element or the first child of an element below it. -/
theorem firstLeafWithin_cases (h : a.Sound used) (depth : Nat) (hy : used y)
    (hparent : (a.get y).parent ≠ none) :
    a.firstLeafWithin depth y = y ∨
      ∃ c, used c ∧ (a.get c).parent ≠ none ∧ a.firstLeafWithin depth y ∈ a.children c := by
  induction depth generalizing y with
  | zero => exact .inl rfl
  | succ depth ih =>
    rw [firstLeafWithin]
    split
    · exact .inl rfl
    · split
      · next c hc =>
        have hmem := List.mem_of_mem_head? hc
        obtain ⟨hused, hcparent⟩ := h.child_mem hy hmem
        refine .inr ((ih hused (by rw [hcparent]; exact Option.some_ne_none y)).elim (fun hself => ?_) id)
        exact ⟨y, hy, hparent, hself.symm ▸ hmem⟩
      · exact .inl rfl

theorem lt_size_of_parent (h : (a.get x).parent ≠ none) : x < a.size := by
  by_contra hout
  rw [a.get_eq_default (Nat.le_of_not_lt hout)] at h
  exact h rfl

/-- No walk forward leads to the first child of an element without parent. -/
theorem nextTerminal?_ne_first {rest : List ElementId} (h : a.Sound used) (hp : used p)
    (hroot : (a.get p).parent = none) (hchildren : a.children p = x :: rest)
    (hy : (a.get y).parent ≠ none → used y) : a.nextTerminal? y ≠ some x := by
  obtain ⟨-, hxparent, hxindex⟩ := h.child hp (i := 0) (by rw [hchildren]; rfl)
  unfold nextTerminal?
  generalize a.size + 1 = height
  induction height generalizing y with
  | zero => exact fun h => by cases h
  | succ height ih =>
    rw [nextTerminalWithin]
    split
    · next s hs =>
      obtain ⟨q, hq, hs⟩ := Option.bind_eq_some_iff.1 hs
      have hyused := hy (by rw [hq]; exact Option.some_ne_none q)
      obtain ⟨hsused, hsparent, hsindex⟩ := h.child (h.parent hyused hq).1 hs
      intro hx
      have hx : a.firstLeafWithin a.size s = x := Option.some.inj hx
      rcases firstLeafWithin_cases h a.size hsused
        (by rw [hsparent]; exact Option.some_ne_none q) with hself | ⟨c, hc, hcparent, hmem⟩
      · rw [← hx, hself, hsindex] at hxindex
        exact absurd hxindex (Nat.succ_ne_zero _)
      · rw [hx] at hmem
        obtain rfl : c = p := Option.some.inj ((h.child_mem hc hmem).2.symm.trans hxparent)
        exact hcparent hroot
    · split
      · next q hq =>
        have hyused := hy (by rw [hq]; exact Option.some_ne_none q)
        exact ih fun _ => (h.parent hyused hq).1
      · exact fun h => by cases h

end Arena

/-! ### The first text -/

section
variable {a : Arena} {used : ElementId → Prop} {p x : ElementId} {ss : List Shape} {text : String}
  {opening trailing : Nat}

/-- An element without children is simplified at once. -/
theorem cleanWithin_childless (strip : Bool) (depth : Nat) (h : a.childCount x = 0) :
    Edit.cleanWithin strip depth x a = Edit.simplify strip x a := by
  cases depth with
  | zero => rfl
  | succ depth => simp only [Edit.cleanWithin, Edit.bind_ok (Edit.get_ok a), h, Nat.lt_irrefl,
    if_false, gt_iff_lt]

theorem simplify_text (hkind : (a.get x).kind = .text text false)
    (hopening : a.openingStrip x text.toList = .ok opening)
    (htrailing : a.trailingStrip x text.toList = .ok trailing) :
    Edit.simplify true x a = .ok x (a.trimming x text opening trailing) := by
  simp only [Edit.simplify, Edit.bind_ok (Edit.get_ok a), hkind, Bool.not_false, Bool.and_self, if_true,
    Edit.bind_ok (trimText_ok hopening htrailing)]
  rfl

theorem simplify_trimmed (hkind : (a.get x).kind = .text text true) : Edit.simplify true x a = .ok x a := by
  simp only [Edit.simplify, Edit.bind_ok (Edit.get_ok a), hkind]
  rfl

/-- A text that begins a tree is trimmed first of all. -/
theorem finish_trimming (h : Tidy a used p (⟨x, []⟩ :: ss)) (hkind : (a.get x).kind = .text text false)
    (hopening : a.openingStrip x text.toList = .ok opening)
    (htrailing : a.trailingStrip x text.toList = .ok trailing) :
    Edit.finish true p a = Edit.finish true p (a.trimming x text opening trailing) := by
  have hlinks := a.sameLinks_trimming x text opening trailing
  have hx : x < a.size := h.inside (root_mem_ids (s := ⟨x, []⟩) List.mem_cons_self)
  have hkind' : ((a.trimming x text opening trailing).get x).kind =
      .text (.ofList (Arena.trimmedText text.toList opening trailing)) true := by
    rw [a.get_trimming hx]
  have hnone : ∀ {b : Arena}, Tidy b used p (⟨x, []⟩ :: ss) → b.child p 0 = .ok x ∧ b.childCount x = 0 := by
    intro b hb
    have hfirst : Tidy b used p ([] ++ ⟨x, []⟩ :: ss) := hb
    exact ⟨hfirst.child, hfirst.part.childCount⟩
  obtain ⟨hchild, hchildless⟩ := hnone h
  obtain ⟨hchild', hchildless'⟩ := hnone (h.sameLinks hlinks)
  -- Once the first child has been cleaned up there is no difference any more.
  have heach : ∀ depth n, Edit.cleanEach (Edit.cleanWithin true depth) p (List.range (n + 1)) a =
      Edit.cleanEach (Edit.cleanWithin true depth) p (List.range (n + 1))
        (a.trimming x text opening trailing) := by
    intro depth n
    rw [List.range_eq_range', List.range'_succ,
      cleanEach_cons hchild ((cleanWithin_childless true depth hchildless).trans
        (simplify_text hkind hopening htrailing)),
      cleanEach_cons hchild' ((cleanWithin_childless true depth hchildless').trans (simplify_trimmed hkind'))]
  have hcount : a.childCount p = ss.length + 1 := h.childCount
  have hcount' : (a.trimming x text opening trailing).childCount p = ss.length + 1 :=
    (h.sameLinks hlinks).childCount
  obtain ⟨depth, hdepth⟩ : ∃ depth, a.size = depth + 1 :=
    ⟨a.size - 1, (Nat.succ_pred_eq_of_pos (Nat.zero_lt_of_lt hx)).symm⟩
  have hwithin : Edit.cleanWithin true (depth + 1) p a =
      Edit.cleanWithin true (depth + 1) p (a.trimming x text opening trailing) := by
    simp only [Edit.cleanWithin, bind, EStateM.bind, Edit.get_ok, hcount, hcount', Nat.zero_lt_succ,
      if_true, gt_iff_lt, heach]
  have hclean : Edit.clean true p a = Edit.clean true p (a.trimming x text opening trailing) := by
    simp only [Edit.clean, Edit.bind_ok (Edit.get_ok _), hlinks.size, hdepth]
    exact hwithin
  simp only [Edit.finish, bind, EStateM.bind, hclean]

/-- All that happens to a template happens after the text that begins it has been trimmed. -/
theorem Finished.exists_trimming {raw : Tree} {t : Template} {us : List Shape}
    (h : Finished true raw t (⟨x, []⟩ :: ss) us)
    (hkind : ((Arena.load {} raw).1.get x).kind = .text text false) : ∃ opening trailing,
      (Arena.load {} raw).1.openingStrip x text.toList = .ok opening ∧
      (Arena.load {} raw).1.trailingStrip x text.toList = .ok trailing ∧
      ∃ c, Steps true ((Arena.load {} raw).1.trimming x text opening trailing) c ∧ c.SameNodes t.arena := by
  have htidy := h.loaded.tidy
  have hused := htidy.used_of_mem (root_mem_ids (s := ⟨x, []⟩) List.mem_cons_self)
  obtain ⟨opening, hopening⟩ := htidy.sound.openingStrip hused text.toList
  obtain ⟨trailing, htrailing⟩ := htidy.sound.trailingStrip hused text.toList
  have hlinks := (Arena.load {} raw).1.sameLinks_trimming x text opening trailing
  have hsteps : Steps true (Arena.load {} raw).1 ((Arena.load {} raw).1.trimming x text opening trailing) :=
    .trimmed .start rfl hkind hopening htrailing
  obtain ⟨b, used, r, vs, hedit, -, -, hlater, -⟩ :=
    exists_finish true (htidy.sameLinks hlinks) (h.loaded.formed.evolves hsteps.evolves)
      ((hlinks.place _).1.trans h.loaded.orphan)
  rw [← finish_trimming htidy hkind hopening htrailing, h.edit] at hedit
  cases hedit
  exact ⟨opening, trailing, hopening, htrailing, hlater⟩

end

end Stencil
