import Stencil.Template

/-! # Sound arenas

While a tree is cleaned up some elements go out of use. Among those in use the links fit: an element is
where its parent expects it, and its children know it. So no walk asks for a place that does not exist. -/

namespace Stencil.Arena

/-- The links between the elements in use fit. -/
structure Sound (a : Arena) (used : ElementId → Prop) : Prop where
  inside {x : ElementId} : used x → x < a.size
  child {p c : ElementId} {i : Nat} : used p → (a.children p)[i]? = some c →
    used c ∧ (a.get c).parent = some p ∧ (a.get c).index = i
  parent {c p : ElementId} : used c → (a.get c).parent = some p →
    used p ∧ (a.children p)[(a.get c).index]? = some c

theorem sound_empty : ({} : Arena).Sound (· < ({} : Arena).size) :=
  ⟨id, fun h => absurd h (Nat.not_lt_zero _), fun h => absurd h (Nat.not_lt_zero _)⟩

theorem children_getElem?_length {a : Arena} {p x : ElementId} {pre post : List ElementId}
    (h : a.children p = pre ++ x :: post) : (a.children p)[pre.length]? = some x := by
  rw [h, List.getElem?_append_right (Nat.le_refl _), Nat.sub_self]
  rfl

/-! ### Walks stay among the elements in use -/

namespace Sound

variable {a : Arena} {used : ElementId → Prop} {p x : ElementId} {pre post : List ElementId}

theorem child_mem (h : Sound a used) {c : ElementId} (hp : used p) (hc : c ∈ a.children p) :
    used c ∧ (a.get c).parent = some p := by
  obtain ⟨i, hi⟩ := List.getElem?_of_mem hc
  obtain ⟨hused, hparent, -⟩ := h.child hp hi
  exact ⟨hused, hparent⟩

/-- No child is listed twice. -/
theorem nodup_children (h : Sound a used) (hp : used p) : (a.children p).Nodup := by
  rw [List.Nodup, List.pairwise_iff_getElem]
  intro i j hi hj hij hsame
  have hplace := (h.child hp (List.getElem?_eq_getElem hi)).2.2
  have hplace' := (h.child hp (List.getElem?_eq_getElem hj)).2.2
  rw [hsame] at hplace
  omega

theorem previousSibling_eq (h : Sound a used) (hp : used p) (hchildren : a.children p = pre ++ x :: post) :
    a.previousSibling? x = .ok pre.getLast? := by
  obtain ⟨-, hparent, hindex⟩ := h.child hp (children_getElem?_length hchildren)
  rw [Arena.previousSibling?, hparent, hindex]
  rcases List.eq_nil_or_concat pre with rfl | ⟨pre', y, rfl⟩
  · rfl
  · have hplace : (a.children p)[pre'.length]? = some y := by
      rw [hchildren, List.concat_eq_append]
      simp
    simp only [List.concat_eq_append, List.length_append, List.length_singleton, Arena.child, hplace,
      List.getLast?_concat]
    rfl

theorem nextSibling_eq (h : Sound a used) (hp : used p) (hchildren : a.children p = pre ++ x :: post) :
    a.nextSibling? x = post.head? := by
  obtain ⟨-, hparent, hindex⟩ := h.child hp (children_getElem?_length hchildren)
  rw [Arena.nextSibling?, hparent, hindex, Option.bind_some, hchildren, List.getElem?_append_right (by omega),
    Nat.add_sub_cancel_left, List.getElem?_cons_succ, List.head?_eq_getElem?]

theorem previousSibling (h : Sound a used) (hx : used x) :
    ∃ found, a.previousSibling? x = .ok found ∧ ∀ y, found = some y → used y := by
  unfold Arena.previousSibling?
  split
  · next p i hp hi =>
    obtain ⟨hused, hplace⟩ := h.parent hx hp
    rw [hi] at hplace
    obtain ⟨hlt, -⟩ := List.getElem?_eq_some_iff.1 hplace
    have hprev : (a.children p)[i]? = some (a.children p)[i] := List.getElem?_eq_getElem (by omega)
    refine ⟨some (a.children p)[i], ?_, ?_⟩
    · rw [Arena.child, hprev]
      rfl
    · intro y hy
      cases hy
      exact (h.child hused hprev).1
  · exact ⟨none, rfl, by simp⟩

theorem nextSibling (h : Sound a used) (hx : used x) {y : ElementId} (hy : a.nextSibling? x = some y) :
    used y := by
  obtain ⟨p, hp, hy⟩ := Option.bind_eq_some_iff.1 hy
  exact (h.child (h.parent hx hp).1 hy).1

theorem firstLeafWithin (h : Sound a used) (depth : Nat) (hx : used x) :
    used (a.firstLeafWithin depth x) := by
  induction depth generalizing x with
  | zero => exact hx
  | succ depth ih =>
    unfold Arena.firstLeafWithin
    split
    · exact hx
    · split
      · next c hc => exact ih (h.child_mem hx (List.mem_of_mem_head? hc)).1
      · exact hx

theorem lastLeafWithin (h : Sound a used) (depth : Nat) (hx : used x) : used (a.lastLeafWithin depth x) := by
  induction depth generalizing x with
  | zero => exact hx
  | succ depth ih =>
    unfold Arena.lastLeafWithin
    split
    · exact hx
    · split
      · next c hc => exact ih (h.child_mem hx (List.mem_of_mem_getLast? hc)).1
      · exact hx

theorem previousTerminal (h : Sound a used) (hx : used x) :
    ∃ found, a.previousTerminal? x = .ok found ∧ ∀ y, found = some y → used y := by
  unfold Arena.previousTerminal?
  generalize a.size + 1 = height
  induction height generalizing x with
  | zero => exact ⟨none, rfl, by simp⟩
  | succ height ih =>
    obtain ⟨sibling, hsibling, hused⟩ := h.previousSibling hx
    simp only [previousTerminalWithin, hsibling, bind, Except.bind]
    cases sibling with
    | some y =>
      refine ⟨some (a.lastLeaf y), rfl, ?_⟩
      intro z hz
      cases hz
      exact h.lastLeafWithin a.size (hused y rfl)
    | none =>
      cases hp : (a.get x).parent with
      | none => exact ⟨none, rfl, by simp⟩
      | some p => exact ih (h.parent hx hp).1

theorem nextTerminal (h : Sound a used) (hx : used x) {y : ElementId} (hy : a.nextTerminal? x = some y) :
    used y := by
  unfold Arena.nextTerminal? at hy
  generalize a.size + 1 = height at hy
  induction height generalizing x with
  | zero => cases hy
  | succ height ih =>
    unfold nextTerminalWithin at hy
    split at hy
    · next sibling hsibling =>
      cases hy
      exact h.firstLeafWithin a.size (h.nextSibling hx hsibling)
    · split at hy
      · next p hp => exact ih (h.parent hx hp).1 hy
      · cases hy

/-! ### What is asked during cleanup has an answer -/

theorem isDroppedText (h : Sound a used) (hx : used x) (text : List Char) (strip : Bool) :
    ∃ dropped, a.isDroppedText x text strip = .ok dropped := by
  obtain ⟨found, hfound, -⟩ := h.previousSibling hx
  unfold Arena.isDroppedText
  simp only [hfound, bind, Except.bind]
  split
  · exact ⟨_, rfl⟩
  · split <;> exact ⟨_, rfl⟩

theorem isIgnorable (h : Sound a used) (hx : used x) (strip : Bool) :
    ∃ ignorable, a.isIgnorable x strip = .ok ignorable := by
  unfold Arena.isIgnorable
  split
  · exact h.isDroppedText hx _ strip
  all_goals exact ⟨_, rfl⟩

theorem goesWhenStripping (h : Sound a used) (hx : used x) : ∃ goes, a.goesWhenStripping x = .ok goes := by
  unfold Arena.goesWhenStripping
  split
  · exact h.isIgnorable hx true
  · exact ⟨_, rfl⟩

theorem heededBefore (h : Sound a used) (line : Int) (steps : Nat) (leaf : Option ElementId)
    (hleaf : ∀ y, leaf = some y → used y) : ∃ heeded, a.heededBefore line steps leaf = .ok heeded := by
  induction steps generalizing leaf with
  | zero => exact ⟨false, by simp [Arena.heededBefore]⟩
  | succ steps ih =>
    cases leaf with
    | none => exact ⟨false, by simp [Arena.heededBefore]⟩
    | some y =>
      have hy := hleaf y rfl
      obtain ⟨goes, hgoes⟩ := h.goesWhenStripping hy
      obtain ⟨found, hfound, hused⟩ := h.previousTerminal hy
      simp only [Arena.heededBefore, Arena.heedsOpening, hgoes, hfound, bind, Except.bind, pure, Except.pure]
      split
      · exact ⟨_, rfl⟩
      · split
        · exact ⟨_, rfl⟩
        · exact ih found hused

theorem heededAfter (h : Sound a used) (line : Int) (steps : Nat) (leaf : Option ElementId)
    (hleaf : ∀ y, leaf = some y → used y) : ∃ heeded, a.heededAfter line steps leaf = .ok heeded := by
  induction steps generalizing leaf with
  | zero => exact ⟨false, by simp [Arena.heededAfter]⟩
  | succ steps ih =>
    cases leaf with
    | none => exact ⟨false, by simp [Arena.heededAfter]⟩
    | some y =>
      have hy := hleaf y rfl
      obtain ⟨goes, hgoes⟩ := h.goesWhenStripping hy
      simp only [Arena.heededAfter, Arena.heedsTrailing, hgoes, bind, Except.bind, pure, Except.pure]
      split
      · exact ⟨_, rfl⟩
      · split
        · exact ⟨_, rfl⟩
        · exact ih _ fun z hz => h.nextTerminal hy hz

theorem openingStrip (h : Sound a used) (hx : used x) (text : List Char) :
    ∃ count, a.openingStrip x text = .ok count := by
  obtain ⟨found, hfound, hused⟩ := h.previousTerminal hx
  obtain ⟨heeded, hheeded⟩ := h.heededBefore (a.get x).location.first.line (a.size + 1) found hused
  unfold Arena.openingStrip
  simp only [hfound, hheeded, bind, Except.bind]
  split
  · exact ⟨_, rfl⟩
  · split
    · exact ⟨_, rfl⟩
    · split <;> exact ⟨_, rfl⟩

theorem trailingStrip (h : Sound a used) (hx : used x) (text : List Char) :
    ∃ count, a.trailingStrip x text = .ok count := by
  obtain ⟨heeded, hheeded⟩ := h.heededAfter (a.get x).location.last.line (a.size + 1) (a.nextTerminal? x)
    fun y hy => h.nextTerminal hx hy
  unfold Arena.trailingStrip
  simp only [hheeded, bind, Except.bind]
  split
  · exact ⟨_, rfl⟩
  · split
    · exact ⟨_, rfl⟩
    · split <;> exact ⟨_, rfl⟩

end Sound

end Stencil.Arena
