import Stencil.Proofs.Arena.Building
import Stencil.Proofs.Cleanup.Meaning

/-! # Terminals in order

The walks climb, step sideways and go down again. In a tree whose links fit they follow the order of the
document: from an element they stop at leaves and at units, and of what is inside a unit they see only what is
inside those units that the element itself stands in. -/

namespace Stencil

open Shape

/-! ### The way up -/

namespace Arena

/-- The elements above an element, the nearest first, climbing at most `height` times. -/
def aboveWithin (a : Arena) : (height : Nat) → ElementId → List ElementId
  | 0, _ => []
  | height + 1, id =>
    match (a.get id).parent with
    | some parent => parent :: a.aboveWithin height parent
    | none => []

/-- The elements above an element, the nearest first. -/
def above (a : Arena) (id : ElementId) : List ElementId := a.aboveWithin a.size id

/-- The way up from an element ends at one without parent. -/
inductive Ascends (a : Arena) : ElementId → List ElementId → Prop
  | top {x : ElementId} (orphan : (a.get x).parent = none) : Ascends a x []
  | step {x p : ElementId} {up : List ElementId} (parent : (a.get x).parent = some p)
    (further : Ascends a p up) :
    Ascends a x (p :: up)

section
variable {a : Arena} {used : ElementId → Prop} {x y p r : ElementId} {up up' : List ElementId}

theorem Ascends.unique (h : a.Ascends x up) (h' : a.Ascends x up') : up = up' := by
  induction h generalizing up' with
  | top orphan =>
    cases h' with
    | top _ => rfl
    | step parent _ => rw [orphan] at parent; cases parent
  | step parent _ ih =>
    cases h' with
    | top orphan => rw [orphan] at parent; cases parent
    | step parent' further' =>
      obtain rfl := Option.some.inj (parent.symm.trans parent')
      rw [ih further']

theorem Ascends.of_mem (h : a.Ascends x up) (hy : y ∈ up) :
    ∃ rest, a.Ascends y rest ∧ rest.length < up.length := by
  induction h with
  | top _ => cases hy
  | @step x p up parent further ih =>
    rcases List.mem_cons.1 hy with rfl | hy
    · exact ⟨up, further, Nat.lt_succ_self _⟩
    · obtain ⟨rest, hrest, hlt⟩ := ih hy
      exact ⟨rest, hrest, Nat.lt_succ_of_lt hlt⟩

theorem Ascends.notMem (h : a.Ascends x up) : x ∉ up := by
  intro hx
  obtain ⟨rest, hrest, hlt⟩ := h.of_mem hx
  rw [h.unique hrest] at hlt
  exact Nat.lt_irrefl _ hlt

/-- Whoever gets to the top meets nobody twice. -/
theorem Ascends.nodup (h : a.Ascends x up) : (x :: up).Nodup := by
  induction h with
  | top _ => exact List.nodup_singleton _
  | step parent further ih => exact List.nodup_cons.2 ⟨(Ascends.step parent further).notMem, ih⟩

theorem Ascends.used_of_mem (h : a.Ascends x up) (hsound : a.Sound used) (hx : used x) :
    ∀ y ∈ x :: up, used y := by
  induction h with
  | top _ => simpa using hx
  | step parent _ ih => exact List.forall_mem_cons.2 ⟨hx, ih (hsound.parent hx parent).1⟩

theorem Ascends.length_lt (h : a.Ascends x up) (hsound : a.Sound used) (hx : used x) :
    up.length < a.size := by
  have hsub : x :: up ⊆ List.range a.size :=
    fun y hy => List.mem_range.2 (hsound.inside (h.used_of_mem hsound hx y hy))
  have hlength := (List.subperm_of_subset h.nodup hsub).length_le
  rwa [List.length_cons, List.length_range] at hlength

theorem Ascends.aboveWithin_eq (h : a.Ascends x up) {height : Nat} (hheight : up.length ≤ height) :
    a.aboveWithin height x = up := by
  induction h generalizing height with
  | top orphan => cases height <;> simp only [aboveWithin, orphan]
  | step parent _ ih =>
    obtain ⟨height, rfl⟩ := Nat.exists_eq_succ_of_ne_zero (Nat.ne_zero_of_lt hheight)
    simp only [aboveWithin, parent, ih (Nat.le_of_succ_le_succ hheight)]

theorem Ascends.above_eq (h : a.Ascends x up) (hsound : a.Sound used) (hx : used x) : a.above x = up :=
  h.aboveWithin_eq (Nat.le_of_lt (h.length_lt hsound hx))

/-- The elements on the way up are those the element stands below. -/
theorem Ascends.mem_iff (h : a.Ascends x up) : y ∈ up ↔ a.Under x y := by
  induction h with
  | top orphan => exact ⟨nofun, fun hunder => absurd hunder (not_under_of_orphan orphan)⟩
  | @step x p up parent further ih =>
    rw [List.mem_cons, ih]
    constructor
    · rintro (rfl | hunder)
      · exact .single parent
      · exact .head parent hunder
    · intro hunder
      obtain ⟨q, hq, hrest⟩ := Relation.TransGen.head'_iff.1 hunder
      obtain rfl := Option.some.inj (parent.symm.trans hq)
      exact hrest.cases_head.imp Eq.symm fun ⟨d, hd, hlater⟩ => .head' hd hlater

/-- Every element on the way up has a child. -/
theorem Ascends.children_ne_nil (h : a.Ascends x up) (hsound : a.Sound used) (hx : used x) :
    ∀ y ∈ up, a.children y ≠ [] := by
  induction h with
  | top _ => simp
  | step parent _ ih =>
    obtain ⟨hp, hplace⟩ := hsound.parent hx parent
    exact List.forall_mem_cons.2 ⟨List.ne_nil_of_mem (List.mem_of_getElem? hplace), ih hp⟩

/-- Elements with the same way up have nothing in common below them. -/
theorem exists_shapes {cs : List ElementId} (hnodup : cs.Nodup)
    (h : ∀ c ∈ cs, ∃ parts, Spans a [⟨c, parts⟩] ∧ (ids [⟨c, parts⟩]).Nodup ∧
      ∀ y ∈ ids [⟨c, parts⟩], ∃ way, a.Ascends y way ∧ c :: up <:+ y :: way) :
    ∃ ss : List Shape, ss.map root = cs ∧ Spans a ss ∧ (ids ss).Nodup ∧
      ∀ y ∈ ids ss, ∃ c ∈ cs, ∃ way, a.Ascends y way ∧ c :: up <:+ y :: way := by
  induction cs with
  | nil => exact ⟨[], rfl, spans_nil, by simp, by simp⟩
  | cons c cs ih =>
    obtain ⟨⟨parts, hspans, hone, hbelow⟩, hrest⟩ := List.forall_mem_cons.1 h
    obtain ⟨hnew, hnodup⟩ := List.nodup_cons.1 hnodup
    obtain ⟨ss, hroots, hspans', hnodup', hways⟩ := ih hnodup hrest
    refine ⟨⟨c, parts⟩ :: ss,
      by rw [List.map_cons, hroots]; rfl, spans_cons.2 ⟨hspans, hspans'⟩, ?_, fun y hy => ?_⟩
    · rw [ids_cons]
      refine List.nodup_append.2 ⟨hone, hnodup', fun y hy z hz hsame => ?_⟩
      subst hsame
      obtain ⟨way, hway, hsuffix⟩ := hbelow y hy
      obtain ⟨d, hd, way', hway', hsuffix'⟩ := hways y hz
      rw [hway'.unique hway] at hsuffix'
      have hsame := (List.suffix_of_suffix_length_le hsuffix hsuffix' (by simp)).eq_of_length (by simp)
      exact hnew ((List.cons.inj hsame).1 ▸ hd)
    · rw [ids_cons, List.mem_append] at hy
      rcases hy with hy | hy
      · exact ⟨c, List.mem_cons_self, hbelow y hy⟩
      · obtain ⟨d, hd, hway⟩ := hways y hy
        exact ⟨d, List.mem_cons_of_mem c hd, hway⟩

/-- The elements below one from which a way leads up hang together as a tree. -/
theorem Sound.exists_shape (h : a.Sound used) (fuel : Nat) (hx : used x) (hup : a.Ascends x up)
    (hfuel : a.size ≤ up.length + fuel) :
    ∃ parts, Spans a [⟨x, parts⟩] ∧ (ids [⟨x, parts⟩]).Nodup ∧
      ∀ y ∈ ids [⟨x, parts⟩], ∃ way, a.Ascends y way ∧ x :: up <:+ y :: way := by
  induction fuel generalizing x up with
  | zero => exact absurd (hup.length_lt h hx) (Nat.not_lt.2 hfuel)
  | succ fuel ih =>
    have hchild : ∀ c ∈ a.children x, ∃ parts, Spans a [⟨c, parts⟩] ∧ (ids [⟨c, parts⟩]).Nodup ∧
        ∀ y ∈ ids [⟨c, parts⟩], ∃ way, a.Ascends y way ∧ c :: x :: up <:+ y :: way := fun c hc => by
      obtain ⟨hused, hparent⟩ := h.child_mem hx hc
      exact ih hused (.step hparent hup) (by rw [List.length_cons]; omega)
    obtain ⟨parts, hroots, hspans, hnodup, hways⟩ := exists_shapes (h.nodup_children hx) hchild
    refine ⟨parts, spans_singleton.2 ⟨hroots.symm, hspans⟩, ?_, ?_⟩
    · rw [ids_singleton]
      refine List.nodup_cons.2 ⟨fun hin => ?_, hnodup⟩
      obtain ⟨c, -, way, hway, hsuffix⟩ := hways x hin
      have hlength := hsuffix.length_le
      rw [hway.unique hup] at hlength
      exact Nat.lt_irrefl _ hlength
    · rw [ids_singleton]
      refine List.forall_mem_cons.2 ⟨⟨up, hup, List.suffix_rfl⟩, fun y hy => ?_⟩
      obtain ⟨c, -, way, hway, hsuffix⟩ := hways y hy
      exact ⟨way, hway, (List.suffix_cons c _).trans hsuffix⟩

theorem Ascends.above_child (h : a.Ascends p (a.above p)) (hsound : a.Sound used) (hp : used p)
    (hc : x ∈ a.children p) :
    a.Ascends x (p :: a.above p) ∧ a.above x = p :: a.above p := by
  obtain ⟨hused, hparent⟩ := hsound.child_mem hp hc
  have hup := Ascends.step hparent h
  exact ⟨hup, hup.above_eq hsound hused⟩

end

/-! ### The stops of a walk -/

/-- Whether a walk stops at an element: it is a leaf or a unit, and all units around it
are among those known. -/
def isStop (a : Arena) (known : List ElementId) (id : ElementId) : Bool :=
  a.isTerminal id && (a.above id).all fun u => !(a.get u).kind.isUnit || known.contains u

/-- The leaves and units below an element that are in no unit. -/
def terminals (a : Arena) (id : ElementId) : List ElementId := (a.preorder id).filter (a.isStop [])

end Arena

namespace Shape

/-- The leaves and units of some shapes, those inside a unit left out. -/
def leaves (a : Arena) : List Shape → List ElementId
  | [] => []
  | ⟨id, parts⟩ :: ss => (if a.isTerminal id then [id] else leaves a parts) ++ leaves a ss

section
variable {a : Arena} {used : ElementId → Prop} {p q : ElementId} {ss us parts : List Shape}
  {known : List ElementId}

@[simp] theorem leaves_nil : leaves a [] = [] := by rw [leaves]

theorem leaves_append (ss us : List Shape) : leaves a (ss ++ us) = leaves a ss ++ leaves a us := by
  induction ss with
  | nil => simp
  | cons s ss ih =>
    obtain ⟨id, parts⟩ := s
    simp only [List.cons_append, leaves, ih, List.append_assoc]

theorem leaves_singleton (id : ElementId) (parts : List Shape) :
    leaves a [⟨id, parts⟩] = if a.isTerminal id then [id] else leaves a parts := by
  rw [leaves, leaves_nil, List.append_nil]

theorem leaves_cons (s : Shape) (ss : List Shape) : leaves a (s :: ss) = leaves a [s] ++ leaves a ss :=
  leaves_append [s] ss

theorem parts_ne_nil_of_not_isTerminal (h : Spans a [⟨q, parts⟩]) (hnot : a.isTerminal q = false) :
    parts ≠ [] := by
  rintro rfl
  simp [Arena.isTerminal, (spans_singleton.1 h).1] at hnot

theorem mem_above_of_mem_ids (hsound : a.Sound used) (hspans : Spans a ss)
    (hroots : ∀ s ∈ ss, used s.root ∧ a.Ascends s.root (a.above s.root) ∧ q ∈ a.above s.root) :
    ∀ y ∈ ids ss, q ∈ a.above y := by
  induction ss using forest_induction with
  | nil => simp
  | cons id parts ss ihParts ih =>
    rw [Spans] at hspans
    obtain ⟨hchildren, hparts, hss⟩ := hspans
    obtain ⟨⟨hused, hup, hq⟩, hrest⟩ := List.forall_mem_cons.1 hroots
    rw [ids]
    refine List.forall_mem_cons.2 ⟨hq, List.forall_mem_append.2 ⟨ihParts hparts fun s hs => ?_, ih hss hrest⟩⟩
    have hchild : s.root ∈ a.children id := hchildren ▸ List.mem_map_of_mem hs
    obtain ⟨hway, habove⟩ := hup.above_child hsound hused hchild
    exact ⟨(hsound.child_mem hused hchild).1, habove ▸ hway, habove ▸ List.mem_cons_of_mem id hq⟩

/-- The leaves of some shapes are the elements where a walk stops that knows the units around the
shapes, but none of theirs. -/
theorem leaves_eq_filter (hsound : a.Sound used) (hspans : Spans a ss)
    (hroots : ∀ s ∈ ss, used s.root ∧ a.Ascends s.root (a.above s.root) ∧
      ∀ u ∈ a.above s.root, (a.get u).kind.isUnit = true → u ∈ known)
    (hunknown : ∀ y ∈ ids ss, y ∉ known) : leaves a ss = (ids ss).filter (a.isStop known) := by
  induction ss using forest_induction with
  | nil => simp
  | cons id parts ss ihParts ih =>
    rw [Spans] at hspans
    obtain ⟨hchildren, hparts, hss⟩ := hspans
    obtain ⟨⟨hused, hup, hunits⟩, hrest⟩ := List.forall_mem_cons.1 hroots
    obtain ⟨hid, hunknownParts, hunknownRest⟩ := forall_mem_ids_cons.1 hunknown
    rw [ids]
    have hchild : ∀ s ∈ parts, used s.root ∧ a.Ascends s.root (a.above s.root) ∧
        a.above s.root = id :: a.above id := by
      intro s hs
      have hc : s.root ∈ a.children id := hchildren ▸ List.mem_map_of_mem hs
      obtain ⟨hway, habove⟩ := hup.above_child hsound hused hc
      exact ⟨(hsound.child_mem hused hc).1, habove ▸ hway, habove⟩
    have hself : a.isStop known id = a.isTerminal id := by
      simp only [Arena.isStop, Bool.and_eq_left_iff_imp, List.all_eq_true, Bool.or_eq_true, Bool.not_eq_true',
        List.contains_iff_mem]
      intro _ u hu
      cases hunit : (a.get u).kind.isUnit with
      | false => exact .inl rfl
      | true => exact .inr (hunits u hu hunit)
    rw [leaves, List.filter_cons, hself, List.filter_append, ← ih hss hrest hunknownRest]
    cases hterminal : a.isTerminal id with
    | false =>
      have hkind : (a.get id).kind.isUnit = false := (Bool.or_eq_false_iff.1 hterminal).2
      rw [if_neg Bool.false_ne_true, if_neg Bool.false_ne_true, ihParts hparts (fun s hs => ?_) hunknownParts]
      obtain ⟨hin, hway, habove⟩ := hchild s hs
      refine ⟨hin, hway, habove ▸ List.forall_mem_cons.2 ⟨fun hunit => ?_, hunits⟩⟩
      rw [hkind] at hunit
      cases hunit
    | true =>
      -- Below a leaf there is nothing, and what is below a unit has it around.
      have hnone : (ids parts).filter (a.isStop known) = [] := by
        rcases Bool.or_eq_true_iff.1 hterminal with hleaf | hunit
        · rw [hchildren, List.isEmpty_iff, List.map_eq_nil_iff] at hleaf
          rw [hleaf, ids_nil, List.filter_nil]
        · refine List.filter_eq_nil_iff.2 fun y hy hstop => ?_
          have hbelow := mem_above_of_mem_ids hsound hparts (q := id)
            (fun s hs => ⟨(hchild s hs).1, (hchild s hs).2.1, (hchild s hs).2.2 ▸ List.mem_cons_self⟩) y hy
          have hall := List.all_eq_true.1 (Bool.and_eq_true_iff.1 hstop).2 id hbelow
          rw [hunit, Bool.not_true, Bool.false_or, List.contains_iff_mem] at hall
          exact hid hall
      rw [if_pos rfl, if_pos rfl, hnone]
      rfl

end

end Shape

/-! ### Walks among siblings -/

section
variable {a : Arena} {used : ElementId → Prop} {p q : ElementId} {ss pre post parts : List Shape} {s : Shape}

theorem isTerminal_of_length_le (h : Tidy a used q parts) (hlength : (ids [⟨q, parts⟩]).length ≤ 1) :
    a.isTerminal q = true := by
  by_contra hnot
  obtain ⟨s, ss, rfl⟩ := List.exists_cons_of_ne_nil
    (parts_ne_nil_of_not_isTerminal h.spans (Bool.not_eq_true _ ▸ hnot))
  have hpos := List.length_pos_of_mem (root_mem_ids (List.mem_cons_self (a := s) (l := ss)))
  rw [ids_singleton, List.length_cons] at hlength
  omega

/-- Going down from an element one gets to the first of its leaves. -/
theorem head?_leaves (depth : Nat) (h : Tidy a used q parts)
    (hdepth : (ids [⟨q, parts⟩]).length ≤ depth + 1) :
    (leaves a [⟨q, parts⟩]).head? = some (a.firstLeafWithin depth q) := by
  induction depth generalizing q parts with
  | zero =>
    rw [leaves_singleton, if_pos (isTerminal_of_length_le h hdepth)]
    rfl
  | succ depth ih =>
    rw [leaves_singleton, Arena.firstLeafWithin]
    cases hterminal : a.isTerminal q with
    | true => rfl
    | false =>
      obtain ⟨⟨c, below⟩, ss, rfl⟩ :=
        List.exists_cons_of_ne_nil (parts_ne_nil_of_not_isTerminal h.spans hterminal)
      obtain ⟨hpart, hsub⟩ := h.of_mem List.mem_cons_self
      have hlength := hsub.length_le
      rw [ids_singleton, List.length_cons] at hdepth
      rw [if_neg Bool.false_ne_true, if_neg Bool.false_ne_true, h.children, leaves_cons, List.head?_append,
        ih hpart (by omega)]
      rfl

theorem getLast?_leaves (depth : Nat) (h : Tidy a used q parts)
    (hdepth : (ids [⟨q, parts⟩]).length ≤ depth + 1) :
    (leaves a [⟨q, parts⟩]).getLast? = some (a.lastLeafWithin depth q) := by
  induction depth generalizing q parts with
  | zero =>
    rw [leaves_singleton, if_pos (isTerminal_of_length_le h hdepth)]
    rfl
  | succ depth ih =>
    rw [leaves_singleton, Arena.lastLeafWithin]
    cases hterminal : a.isTerminal q with
    | true => rfl
    | false =>
      obtain ⟨ss, ⟨c, below⟩, rfl⟩ :=
        (List.eq_nil_or_concat' parts).resolve_left (parts_ne_nil_of_not_isTerminal h.spans hterminal)
      obtain ⟨hpart, hsub⟩ := h.of_mem (List.mem_append_right ss (List.mem_singleton_self _))
      have hlength := hsub.length_le
      rw [ids_singleton, List.length_cons] at hdepth
      rw [if_neg Bool.false_ne_true, if_neg Bool.false_ne_true, h.children, leaves_append,
        List.getLast?_append, ih hpart (by omega), List.map_append, List.getLast?_append]
      rfl

/-- From a child the walk goes on among its siblings, and from the last of them as from the parent. -/
theorem Tidy.nextTerminalWithin (h : Tidy a used p (pre ++ s :: post)) (height : Nat) :
    a.nextTerminalWithin (height + 1) s.root = (leaves a post).head?.or (a.nextTerminalWithin height p) := by
  have hplace := Arena.children_getElem?_length h.children_split
  rw [Arena.nextTerminalWithin, h.sound.nextSibling_eq h.root h.children_split,
    (h.sound.child h.root hplace).2.1]
  cases post with
  | nil => rw [leaves_nil]; rfl
  | cons t post =>
    obtain ⟨q, parts⟩ := t
    have hpart : Tidy a used p ((pre ++ [s]) ++ ⟨q, parts⟩ :: post) := by simpa using h
    have hsize := hpart.part.length_ids_le
    rw [leaves_cons, List.head?_append, head?_leaves a.size hpart.part (by omega)]
    rfl

theorem Tidy.previousTerminalWithin (h : Tidy a used p (pre ++ s :: post)) {height : Nat}
    {found : Option ElementId} (hfound : a.previousTerminalWithin height p = .ok found) :
    a.previousTerminalWithin (height + 1) s.root = .ok ((leaves a pre).getLast?.or found) := by
  have hplace := Arena.children_getElem?_length h.children_split
  rw [Arena.previousTerminalWithin, h.sound.previousSibling_eq h.root h.children_split,
    (h.sound.child h.root hplace).2.1]
  rcases List.eq_nil_or_concat' pre with rfl | ⟨before, ⟨q, parts⟩, rfl⟩
  · rw [leaves_nil]
    exact hfound
  · have hpart : Tidy a used p (before ++ ⟨q, parts⟩ :: (s :: post)) := by simpa using h
    have hsize := hpart.part.length_ids_le
    rw [List.map_append, List.getLast?_append, leaves_append, List.getLast?_append,
      getLast?_leaves a.size hpart.part (by omega)]
    rfl

/-! ### Around an element -/

/-- How an element stands among some shapes: the elements above it, the nearest first, and the shapes that
come before and after it, which together are all the rest. -/
inductive Shape.Around : List Shape → List ElementId → List Shape → Shape → List Shape → Prop
  | here (before : List Shape) (s : Shape) (after : List Shape) :
    Around (before ++ s :: after) [] before s after
  | inside (before : List Shape) (id : ElementId) (after : List Shape) {parts inner outer : List Shape}
    {up : List ElementId} {s : Shape}
    (within : Around parts up inner s outer) :
    Around (before ++ ⟨id, parts⟩ :: after) (up ++ [id]) (before ++ inner) s (outer ++ after)

section
variable {up : List ElementId} {before after : List Shape}

theorem Shape.Around.cons (h : Around ss up before s after) (u : Shape) :
    Around (u :: ss) up (u :: before) s after := by
  cases h with
  | here before s after => exact .here (u :: before) s after
  | inside before id after within => exact .inside (u :: before) id after within

theorem Shape.Around.append (h : Around ss up before s after) (us : List Shape) :
    Around (ss ++ us) up before s (after ++ us) := by
  cases h with
  | here before s after =>
    rw [List.append_assoc]
    exact .here before s (after ++ us)
  | inside before id after within =>
    rw [List.append_assoc, List.append_assoc]
    exact .inside before id (after ++ us) within

theorem Shape.exists_around {x : ElementId} (hx : x ∈ ids ss) :
    ∃ up before s after, Around ss up before s after ∧ s.root = x := by
  induction ss using forest_induction with
  | nil => simp at hx
  | cons id parts ss ihParts ih =>
    rcases mem_ids_cons.1 hx with rfl | hx | hx
    · exact ⟨[], [], _, ss, .here [] ⟨x, parts⟩ ss, rfl⟩
    · obtain ⟨up, before, s, after, haround, hroot⟩ := ihParts hx
      exact ⟨_, _, s, _, .inside [] id ss haround, hroot⟩
    · obtain ⟨up, before, s, after, haround, hroot⟩ := ih hx
      exact ⟨up, _, s, after, haround.cons _, hroot⟩

/-- What comes before an element in the order of the document are the shapes before it and
the elements above it. -/
theorem Shape.Around.ids_eq (h : Around ss up before s after) : ∃ pre, ids ss = pre ++ ids [s] ++ ids after ∧
    pre.Perm (up ++ ids before) ∧ ∀ keep : ElementId → Bool, (∀ u ∈ up, keep u = false) →
    pre.filter keep = (ids before).filter keep := by
  induction h with
  | here before s after => exact ⟨ids before,
    by rw [ids_append, ids_cons, List.append_assoc], .refl _, fun _ _ => rfl⟩
  | @inside before id after parts inner outer up s within ih =>
    obtain ⟨pre, hids, hperm, hfilter⟩ := ih
    refine ⟨ids before ++ id :: pre, ?_, ?_, fun keep hkeep => ?_⟩
    · rw [ids_append, ids_cons, ids_singleton, hids, ids_append]
      simp only [List.append_assoc, List.cons_append]
    · rw [ids_append, List.append_assoc, List.singleton_append]
      exact (List.perm_middle.trans ((List.Perm.append_left _ hperm).cons id)).trans
        ((List.perm_append_comm_assoc _ _ _).cons id |>.trans List.perm_middle.symm)
    · obtain ⟨hup, hid⟩ := List.forall_mem_append.1 hkeep
      rw [List.filter_append, List.filter_cons, hid id (List.mem_singleton_self id), ids_append,
        List.filter_append, hfilter keep hup]
      rfl

/-- The way up from a child. -/
theorem Tidy.above_of_mem (h : Tidy a used p ss) (hup : a.Ascends p (a.above p)) (hs : s ∈ ss) :
    used s.root ∧ a.Ascends s.root (a.above s.root) ∧ a.above s.root = p :: a.above p := by
  have hchild : s.root ∈ a.children p := h.children ▸ List.mem_map_of_mem hs
  obtain ⟨hway, habove⟩ := hup.above_child h.sound h.root hchild
  exact ⟨(h.sound.child_mem h.root hchild).1, habove ▸ hway, habove⟩

/-- What is above the shapes before and after an element is also above the element. -/
theorem Shape.Around.above (h : Around ss up before s after) (htidy : Tidy a used p ss)
    (hup : a.Ascends p (a.above p)) :
    a.Ascends s.root (a.above s.root) ∧ a.above s.root = up ++ p :: a.above p ∧
      ∀ t ∈ before ++ after, used t.root ∧ a.Ascends t.root (a.above t.root) ∧
      a.above t.root ⊆ a.above s.root := by
  induction h generalizing p with
  | here before s after =>
    obtain ⟨-, hascends, hself⟩ := htidy.above_of_mem hup (s := s) (by simp)
    refine ⟨hascends, hself, fun t ht => ?_⟩
    obtain ⟨hused, hway, habove⟩ := htidy.above_of_mem hup (s := t) (by
      simp only [List.mem_append, List.mem_cons] at ht ⊢
      tauto)
    exact ⟨hused, hway, by rw [habove, hself]; exact List.Subset.refl _⟩
  | @inside before id after parts inner outer up s within ih =>
    obtain ⟨-, hway, habove⟩ := htidy.above_of_mem hup (s := ⟨id, parts⟩) (by simp)
    obtain ⟨hascends, hself, hbeside⟩ := ih htidy.part hway
    rw [show a.above id = p :: a.above p from habove] at hself
    refine ⟨hascends, by rw [hself, List.append_assoc]; rfl, fun t ht => ?_⟩
    simp only [List.mem_append] at ht
    by_cases hin : t ∈ inner ++ outer
    · exact hbeside t hin
    · obtain ⟨hused, hway, habove⟩ := htidy.above_of_mem hup (s := t) (by
        simp only [List.mem_append, List.mem_cons] at hin ⊢
        tauto)
      refine ⟨hused, hway, ?_⟩
      rw [habove, hself]
      exact fun u hu => List.mem_append_right _ (List.mem_cons_of_mem id hu)

/-- What is above an element is in none of the shapes before and after it. -/
theorem Shape.Around.notMem_above (h : Around ss up before s after) (htidy : Tidy a used p ss) :
    ∀ y ∈ ids before ++ ids after, y ∉ up ++ [p] := by
  obtain ⟨pre, hids, hperm, -⟩ := h.ids_eq
  have hnodup := htidy.nodup_parts
  have hroot := htidy.notMem
  rw [hids] at hnodup hroot
  obtain ⟨hfront, -, hapart⟩ := List.nodup_append.1 hnodup
  have hdisjoint := (List.nodup_append.1 (hperm.nodup_iff.1 (List.nodup_append.1 hfront).1)).2.2
  intro y hy hup
  rcases List.mem_append.1 hup with hup | hup
  · have hpre : y ∈ pre := hperm.mem_iff.2 (List.mem_append_left _ hup)
    rcases List.mem_append.1 hy with hy | hy
    · exact hdisjoint y hup y hy rfl
    · exact hapart y (List.mem_append_left _ hpre) y hy rfl
  · obtain rfl := List.mem_singleton.1 hup
    rcases List.mem_append.1 hy with hy | hy
    · exact hroot (List.mem_append_left _
        (List.mem_append_left _ (hperm.mem_iff.2 (List.mem_append_right _ hy))))
    · exact hroot (List.mem_append_right _ hy)

/-- The shapes around an element are as tidy as all of them. -/
theorem Shape.Around.tidy (h : Around ss up before s after) (htidy : Tidy a used p ss) :
    Spans a (before ++ after) ∧ ∀ x below, s = ⟨x, below⟩ → Tidy a used x below := by
  induction h generalizing p with
  | here before s after =>
    obtain ⟨hbefore, hafter⟩ := spans_append.1 htidy.parts
    exact ⟨spans_append.2 ⟨hbefore, (spans_cons.1 hafter).2⟩, fun x below hs => (hs ▸ htidy).part⟩
  | @inside before id after parts inner outer up s within ih =>
    obtain ⟨hbefore, hafter⟩ := spans_append.1 htidy.parts
    obtain ⟨hspans, hself⟩ := ih htidy.part
    obtain ⟨hinner, houter⟩ := spans_append.1 hspans
    exact ⟨spans_append.2 ⟨spans_append.2 ⟨hbefore, hinner⟩,
      spans_append.2 ⟨houter, (spans_cons.1 hafter).2⟩⟩, hself⟩

theorem Shape.Around.nextTerminalWithin (h : Around ss up before s after)
    (htidy : Tidy a used p ss) (height : Nat) :
    a.nextTerminalWithin (height + up.length + 1) s.root =
    (leaves a after).head?.or (a.nextTerminalWithin height p) := by
  induction h generalizing p height with
  | here before s after => exact htidy.nextTerminalWithin height
  | @inside before id after parts inner outer up s within ih =>
    have hparent : a.nextTerminalWithin (height + 1) id = _ := htidy.nextTerminalWithin height
    rw [List.length_append, List.length_singleton, show height + (up.length + 1) + 1 =
      height + 1 + up.length +
      1 by omega, ih htidy.part, hparent, leaves_append, List.head?_append, Option.or_assoc]

theorem Shape.Around.previousTerminalWithin (h : Around ss up before s after) (htidy : Tidy a used p ss)
    {height : Nat} {found : Option ElementId} (hfound : a.previousTerminalWithin height p = .ok found) :
    a.previousTerminalWithin (height + up.length + 1) s.root = .ok ((leaves a before).getLast?.or found) := by
  induction h generalizing p height found with
  | here before s after => exact htidy.previousTerminalWithin hfound
  | @inside before id after parts inner outer up s within ih =>
    have hparent : a.previousTerminalWithin (height + 1) id = _ := htidy.previousTerminalWithin hfound
    rw [List.length_append, List.length_singleton, show height + (up.length + 1) + 1 =
      height + 1 + up.length +
      1 by omega, ih htidy.part hparent, leaves_append, List.getLast?_append, Option.or_assoc]

end

end

/-! ### Walks in the order of the document -/

section
variable {a : Arena} {used : ElementId → Prop} {r e : ElementId} {ss : List Shape}

theorem above_of_orphan (hroot : (a.get r).parent = none) : a.above r = [] := by
  rw [Arena.above]
  cases a.size <;> simp only [Arena.aboveWithin, hroot]

theorem find?_reverse_eq_getLast? (before : List ElementId) (keep : ElementId → Bool) :
    before.reverse.find? keep = (before.filter keep).getLast? := by
  rw [← List.head?_filter, List.filter_reverse, List.head?_reverse]

/-- Beside the root there is nothing. -/
theorem terminalWithin_of_orphan (hroot : (a.get r).parent = none) (height : Nat) :
    a.nextTerminalWithin height r = none ∧ a.previousTerminalWithin height r = .ok none := by
  have hnext : a.nextSibling? r = none := by rw [Arena.nextSibling?, hroot]; rfl
  have hprevious : a.previousSibling? r = .ok none := by rw [Arena.previousSibling?, hroot]
  cases height with
  | zero => exact ⟨rfl, rfl⟩
  | succ height =>
    rw [Arena.nextTerminalWithin, hnext, Arena.previousTerminalWithin, hprevious, hroot]
    exact ⟨rfl, rfl⟩

/-- An element of a tree has a tree of its own, and a way up. -/
theorem Tidy.of_mem_ids (h : Tidy a used r ss) (hroot : (a.get r).parent = none) (he : e ∈ ids [⟨r, ss⟩]) :
    a.Ascends e (a.above e) ∧ ∃ below, Tidy a used e below := by
  have htop : a.Ascends r (a.above r) := above_of_orphan hroot ▸ .top hroot
  rw [ids_singleton] at he
  rcases List.mem_cons.1 he with rfl | he
  · exact ⟨htop, ss, h⟩
  · obtain ⟨up, before, ⟨x, below⟩, after, haround, rfl⟩ := exists_around he
    exact ⟨(haround.above h htop).1, below, (haround.tidy h).2 x below rfl⟩

/-- The walks from an element lead to the first of the leaves after it and to the last of those before it. -/
theorem Shape.Around.terminals {up : List ElementId} {before after : List Shape} {s : Shape}
    (haround : Around ss up before s after) (h : Tidy a used r ss) (hroot : (a.get r).parent = none) :
    a.nextTerminal? s.root = (leaves a after).head? ∧
    a.previousTerminal? s.root = .ok (leaves a before).getLast? := by
  obtain ⟨x, below⟩ := s
  have htop : a.Ascends r (a.above r) := above_of_orphan hroot ▸ .top hroot
  obtain ⟨hway, habove, -⟩ := haround.above h htop
  have hlt := hway.length_lt h.sound ((haround.tidy h).2 x below rfl).root
  rw [above_of_orphan hroot] at habove
  rw [habove, List.length_append] at hlt
  have hnext := haround.nextTerminalWithin h (a.size - up.length)
  have hprevious := haround.previousTerminalWithin h (terminalWithin_of_orphan hroot (a.size - up.length)).2
  rw [Nat.sub_add_cancel (by omega)] at hnext hprevious
  rw [(terminalWithin_of_orphan hroot _).1, Option.or_none] at hnext
  rw [Option.or_none] at hprevious
  exact ⟨hnext, hprevious⟩

/-- A walk stops at the first element after the whole of where it starts, or the last before that is not
above it, among those where it may stop. -/
theorem Tidy.exists_stops (h : Tidy a used r ss) (hroot : (a.get r).parent = none) (he : e ∈ ids [⟨r, ss⟩]) :
    ∃ before after, ids [⟨r, ss⟩] = before ++ a.preorder e ++ after ∧
      a.nextTerminal? e = after.find? (a.isStop (a.above e)) ∧
      a.previousTerminal? e = .ok (before.reverse.find? fun y =>
        a.isStop (a.above e) y && !(a.above e).contains y) := by
  have htop : a.Ascends r (a.above r) := above_of_orphan hroot ▸ .top hroot
  rw [ids_singleton] at he
  rcases List.mem_cons.1 he with rfl | he
  · exact ⟨[], [], by simp [preorder_eq_ids h], terminalWithin_of_orphan hroot _⟩
  obtain ⟨up, before, ⟨x, below⟩, after, haround, rfl⟩ := exists_around he
  obtain ⟨-, habove, hbeside⟩ := haround.above h htop
  obtain ⟨hnext, hprevious⟩ := haround.terminals h hroot
  obtain ⟨hspans, hself⟩ := haround.tidy h
  obtain ⟨pre, hids, hperm, hfilter⟩ := haround.ids_eq
  simp only [Shape.root] at habove hbeside hnext hprevious ⊢
  rw [above_of_orphan hroot] at habove
  have hunknown := haround.notMem_above h
  rw [← habove] at hunknown
  have hroots : ∀ t ∈ before ++ after, used t.root ∧ a.Ascends t.root (a.above t.root) ∧
      ∀ u ∈ a.above t.root, (a.get u).kind.isUnit = true → u ∈ a.above x := fun t ht => by
    obtain ⟨hused, hascends, hsub⟩ := hbeside t ht
    exact ⟨hused, hascends, fun u hu _ => hsub hu⟩
  have hbefore : leaves a before = (ids before).filter (a.isStop (a.above x)) :=
    leaves_eq_filter h.sound (spans_append.1 hspans).1 (fun t ht => hroots t (List.mem_append_left _ ht))
      fun y hy => hunknown y (List.mem_append_left _ hy)
  have hafter : leaves a after = (ids after).filter (a.isStop (a.above x)) :=
    leaves_eq_filter h.sound (spans_append.1 hspans).2 (fun t ht => hroots t (List.mem_append_right _ ht))
      fun y hy => hunknown y (List.mem_append_right _ hy)
  refine ⟨r :: pre, ids after, ?_, ?_, ?_⟩
  · rw [ids_singleton, hids, preorder_eq_ids (hself x below rfl)]
    simp
  · rw [hnext, hafter, List.head?_filter]
  · have hkeep : ∀ u ∈ up ++ [r], (a.isStop (a.above x) u && !(a.above x).contains u) = false := by
      intro u hu
      rw [← habove, ← List.contains_iff_mem] at hu
      rw [hu, Bool.not_true, Bool.and_false]
    have hapart : (ids before).filter (fun y => !(a.above x).contains y) = ids before := by
      refine List.filter_eq_self.2 fun y hy => ?_
      rw [Bool.not_eq_true', List.contains_eq_mem, decide_eq_false_iff_not]
      exact hunknown y (List.mem_append_left _ hy)
    obtain ⟨hup, htop⟩ := List.forall_mem_append.1 hkeep
    rw [find?_reverse_eq_getLast?, List.filter_cons, htop r (List.mem_singleton_self r),
      if_neg Bool.false_ne_true, hfilter _ hup, ← List.filter_filter, hapart, hprevious, hbefore]

/-- Outside all units a walk stops at the leaves and units that are in no unit. -/
theorem isStop_of_outside {known : List ElementId} (hknown : ∀ u ∈ known, (a.get u).kind.isUnit = false) :
    a.isStop known = a.isStop [] := by
  funext y
  have hunknown : ∀ u, (!(a.get u).kind.isUnit || known.contains u) =
      (!(a.get u).kind.isUnit || [].contains u) := by
    intro u
    by_cases hu : u ∈ known
    · simp [hknown u hu]
    · simp [hu]
  simp only [Arena.isStop, hunknown]

/-- An element outside all units splits the leaves and units that are in no unit: those below it are its
own, and the walks lead to the next to them on either side. -/
theorem Tidy.exists_terminals (h : Tidy a used r ss) (hroot : (a.get r).parent = none)
    (he : e ∈ ids [⟨r, ss⟩]) (houtside : ∀ u ∈ a.above e, (a.get u).kind.isUnit = false) :
    ∃ l m, a.terminals r = l ++ a.terminals e ++ m ∧ a.nextTerminal? e = m.head? ∧
    a.previousTerminal? e = .ok l.getLast? := by
  obtain ⟨before, after, hids, hnext, hprevious⟩ := h.exists_stops hroot he
  obtain ⟨hway, below, hself⟩ := h.of_mem_ids hroot he
  have hstop := isStop_of_outside houtside
  have hkeep : (fun y => a.isStop (a.above e) y && !(a.above e).contains y) = a.isStop [] := by
    funext y
    rw [hstop, Bool.and_eq_left_iff_imp, Bool.not_eq_true', List.contains_eq_mem, decide_eq_false_iff_not]
    intro hy habove
    -- Above the element there are no units, and no leaves either.
    have hnonempty := hway.children_ne_nil h.sound hself.root y habove
    have hterminal := (Bool.and_eq_true_iff.1 hy).1
    rw [Arena.isTerminal, houtside y habove, Bool.or_false, List.isEmpty_iff] at hterminal
    exact hnonempty hterminal
  refine ⟨before.filter (a.isStop []), after.filter (a.isStop []), ?_, ?_, ?_⟩
  · rw [Arena.terminals, preorder_eq_ids h, hids, List.filter_append, List.filter_append]
    rfl
  · rw [hnext, hstop, List.head?_filter]
  · rw [hprevious, hkeep, find?_reverse_eq_getLast?]

/-- A leaf or unit that is in no unit is the only one of those below it. -/
theorem Tidy.terminals_of_mem (h : Tidy a used r ss) (hroot : (a.get r).parent = none)
    (he : e ∈ a.terminals r) :
    (∀ u ∈ a.above e, (a.get u).kind.isUnit = false) ∧ a.terminals e = [e] := by
  obtain ⟨hin, hstop⟩ := List.mem_filter.1 he
  rw [preorder_eq_ids h] at hin
  obtain ⟨hterminal, houtside⟩ := Bool.and_eq_true_iff.1 hstop
  have houtside : ∀ u ∈ a.above e, (a.get u).kind.isUnit = false := by simpa using houtside
  obtain ⟨hway, below, hself⟩ := h.of_mem_ids hroot hin
  have hroots : ∀ s ∈ [(⟨e, below⟩ : Shape)], used s.root ∧ a.Ascends s.root (a.above s.root) ∧
      ∀ u ∈ a.above s.root, (a.get u).kind.isUnit = true → u ∈ ([] : List ElementId) := by
    refine List.forall_mem_singleton.2 ⟨hself.root, hway, fun u hu hunit => ?_⟩
    rw [houtside u hu] at hunit
    cases hunit
  refine ⟨houtside, ?_⟩
  rw [Arena.terminals, preorder_eq_ids hself,
    ← leaves_eq_filter h.sound hself.spans hroots (by simp), leaves_singleton,
    if_pos hterminal]

/-- The leaves and units that are in no unit are a line that the walks go along in both directions. -/
theorem Tidy.terminals_line (h : Tidy a used r ss) (hroot : (a.get r).parent = none) {l m : List ElementId}
    (hline : a.terminals r = l ++ e :: m) :
    a.nextTerminal? e = m.head? ∧ a.previousTerminal? e = .ok l.getLast? := by
  have he : e ∈ a.terminals r := hline ▸ List.mem_append_right l List.mem_cons_self
  obtain ⟨houtside, hself⟩ := h.terminals_of_mem hroot he
  obtain ⟨hin, -⟩ := List.mem_filter.1 he
  rw [preorder_eq_ids h] at hin
  obtain ⟨l', m', hsplit, hnext, hprevious⟩ := h.exists_terminals hroot hin houtside
  have hnodup : (a.terminals r).Nodup := by
    rw [Arena.terminals, preorder_eq_ids h]
    exact h.nodup.filter _
  rw [hself, List.append_assoc, List.singleton_append] at hsplit
  rw [hline] at hnodup hsplit
  obtain ⟨hl, hm⟩ := not_or.1 (List.mem_append.not.1 (List.nodup_cons.1 (List.nodup_middle.1 hnodup)).1)
  obtain ⟨rfl, -, rfl⟩ := (List.append_cons_inj_of_notMem hl hm).1 hsplit
  exact ⟨hnext, hprevious⟩

/-- An element below a root without parent, where the links fit, hangs in a tree. -/
theorem Arena.Sound.exists_tidy (h : a.Sound used) (hr : used r) (hroot : (a.get r).parent = none) :
    ∃ ss, Tidy a used r ss := by
  obtain ⟨ss, hspans, hnodup, -⟩ := h.exists_shape a.size hr (.top hroot) (Nat.le_add_left _ _)
  exact ⟨ss, h, hr, hspans, hnodup⟩

/-- In a tree whose links fit the walks follow the order of the document. The next stop is the first after
the whole of an element, and the previous one the last before it that is not above it, among the leaves and
units inside no unit but those that the element is in; if there is none, neither is a stop. So outside all
units the walks go along the same line of leaves and units, the one back where the other came from. -/
theorem Arena.Sound.terminals_in_order (h : a.Sound used) (hr : used r) (hroot : (a.get r).parent = none) :
    (∀ e ∈ a.preorder r, ∀ u, u ∈ a.above e ↔ a.Under e u) ∧
    (∀ e ∈ a.preorder r, ∃ before after, a.preorder r = before ++ a.preorder e ++ after ∧
      a.nextTerminal? e = after.find? (a.isStop (a.above e)) ∧
      a.previousTerminal? e = .ok (before.reverse.find? fun y =>
        a.isStop (a.above e) y && !(a.above e).contains y)) ∧
    (∀ e ∈ a.preorder r, (∀ u ∈ a.above e, (a.get u).kind.isUnit = false) →
      ∃ l m, a.terminals r = l ++ a.terminals e ++ m ∧
      a.nextTerminal? e = m.head? ∧ a.previousTerminal? e = .ok l.getLast?) ∧
    (∀ x l m, a.terminals r = l ++ x :: m → a.nextTerminal? x = m.head? ∧
      a.previousTerminal? x = .ok l.getLast?) ∧
    ∀ x ∈ a.terminals r, ∀ y ∈ a.terminals r, a.nextTerminal? x = some y ↔
    a.previousTerminal? y = .ok (some x) := by
  obtain ⟨ss, htidy⟩ := h.exists_tidy hr hroot
  have hids := preorder_eq_ids htidy
  refine ⟨fun e he u => (htidy.of_mem_ids hroot (hids ▸ he)).1.mem_iff, fun e he => ?_,
    fun e he houtside => htidy.exists_terminals hroot (hids ▸ he) houtside,
    fun x l m hline => htidy.terminals_line hroot hline, fun x hx y hy =>
      ⟨fun hnext => ?_, fun hprevious => ?_⟩⟩
  · rw [hids] at he ⊢
    exact htidy.exists_stops hroot he
  · obtain ⟨l, m, hline⟩ := List.append_of_mem hx
    rw [(htidy.terminals_line hroot hline).1] at hnext
    obtain ⟨m', rfl⟩ := List.head?_eq_some_iff.1 hnext
    rw [List.append_cons] at hline
    rw [(htidy.terminals_line hroot hline).2, List.getLast?_concat]
  · obtain ⟨l, m, hline⟩ := List.append_of_mem hy
    rw [(htidy.terminals_line hroot hline).2] at hprevious
    obtain ⟨l', rfl⟩ := List.getLast?_eq_some_iff.1 (Except.ok.inj hprevious)
    rw [List.append_assoc, List.singleton_append] at hline
    rw [(htidy.terminals_line hroot hline).1, List.head?_cons]

/-- The walks step over a macro, and out of its body. -/
theorem Arena.Sound.terminals_in_order_macro : ∃ t used,
    Template.parse none "a\x7b[#macro m]\x7db\x7b[#if x]\x7dc\x7b[/if]\x7d\x7b[/macro]\x7dd" false = .ok t ∧
    t.arena.Sound used ∧
    used t.root ∧ (t.arena.get t.root).parent = none ∧ t.arena.preorder t.root = [7, 0, 5, 1, 3, 2, 6] ∧
    t.arena.terminals t.root = [0, 5, 6] ∧ t.arena.nextTerminal? 0 = some 5 ∧
    t.arena.previousTerminal? 6 = .ok (some 5) ∧
    (∃ before after, [7, 0, 5, 1, 3, 2, 6] = before ++ t.arena.preorder 3 ++ after ∧
      t.arena.nextTerminal? 3 = after.find? (t.arena.isStop (t.arena.above 3))) ∧
    t.arena.above 3 = [5, 7] ∧ t.arena.nextTerminal? 3 = some 6 ∧
    t.arena.previousTerminal? 3 = .ok (some 1) := by
  obtain ⟨t, ht, hcheck⟩ := Template.exists_of_parses none
    "a\x7b[#macro m]\x7db\x7b[#if x]\x7dc\x7b[/if]\x7d\x7b[/macro]\x7dd" false
    (fun t => (t.arena.get t.root).parent == none && t.arena.preorder t.root == [7, 0, 5, 1, 3, 2, 6] &&
      t.arena.terminals t.root == [0, 5, 6] && t.arena.above 3 ==
        [5, 7] && t.arena.nextTerminal? 3 == some 6 &&
      (t.arena.previousTerminal? 3).toOption == some (some 1)) (by decide +kernel)
  simp only [Bool.and_eq_true, beq_iff_eq] at hcheck
  obtain ⟨⟨⟨⟨⟨horphan, hpreorder⟩, hterminals⟩, habove⟩, hnext⟩, hprevious⟩ := hcheck
  obtain ⟨raw, parts, us, -, hfinished⟩ := exists_finished_of_parse ht
  obtain ⟨used, htidy⟩ := hfinished.tidy
  obtain ⟨-, hstops, -, hline, -⟩ := htidy.sound.terminals_in_order htidy.root horphan
  rw [hpreorder] at hstops
  obtain ⟨before, after, hsplit, hfirst, -⟩ := hstops 3 (by decide)
  refine ⟨t, used, ht, htidy.sound, htidy.root, horphan, hpreorder, hterminals,
    (hline 0 [] [5, 6] hterminals).1, (hline 6 [0, 5] [] hterminals).2,
    ⟨before, after, hsplit, hfirst⟩, habove, hnext, ?_⟩
  cases hfound : t.arena.previousTerminal? 3 with
  | error e => rw [hfound] at hprevious; cases hprevious
  | ok found => rw [hfound] at hprevious; exact congrArg Except.ok (Option.some.inj hprevious)

end

end Stencil
