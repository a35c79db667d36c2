import Stencil.Proofs.Cleanup.Finish

/-! # Moments of a pass

A pass comes to every element once, after it has been to all that stand before the element and to
nothing below it. What is known then of the element is what was known of it at first, and the pass goes
on from there to its end. -/

namespace Stencil

open Shape

/-- In the course of cleaning up an element it or another below it is about to be cleaned up, in
the arena as it is then. -/
inductive Edit.Reaches (strip : Bool) : (depth : Nat) → ElementId → Arena → ElementId → Arena → Prop
  | self {depth : Nat} {p : ElementId} {a : Arena} : Reaches strip depth p a p a
  | child {depth i : Nat} {p e x : ElementId} {a a' b : Arena}
    (before : Edit.cleanEach (Edit.cleanWithin strip depth) p (List.range i) a = .ok () a')
    (index : i < a.childCount p)
    (child : a'.child p i = .ok e) (below : Reaches strip depth e a' x b) : Reaches strip (depth + 1) p a x b

/-- A pass that gets to an arena is about to clean up an element, which is as it was. -/
structure Visit (strip : Bool) (a c : Arena) (used mid used' : ElementId → Prop) (x : ElementId) (b : Arena) :
    Prop where
  before : Leads strip a b used mid
  after : Leads strip b c mid used'
  same : b.get x = a.get x
  turn : ∃ depth parts x' b', Tidy b mid x parts ∧ Formed b [⟨x, parts⟩] ∧
    (ids [⟨x, parts⟩]).length ≤ depth + 1 ∧
    Edit.cleanWithin strip depth x b = .ok x' b' ∧ Steps strip b' c

section
variable {strip : Bool} {a a' b b' c : Arena} {used used' mid mid' : ElementId → Prop} {p x e : ElementId}
  {ss : List Shape} {depth : Nat}

theorem Edit.cleanEach_append (clean : ElementId → Edit ElementId) (p : ElementId) (is js : List Nat) :
    Edit.cleanEach clean p (is ++ js) = Edit.cleanEach clean p is >>= fun _ => Edit.cleanEach clean p js := by
  induction is with
  | nil => rfl
  | cons i is ih =>
    simp only [List.cons_append, Edit.cleanEach, ih, bind_assoc]
    refine bind_congr fun child => bind_congr fun replacement => ?_
    split <;> simp only [bind_assoc]

/-- When a child has been cleaned up, the pass goes on with those after it and with the element. -/
theorem Underway.exists_rest {pre done post parts us : List Shape} {g : ElementId}
    (h : Underway strip a b used mid (a.get p).kind.isIfBlock p pre done (⟨e, parts⟩ :: post))
    (htidy : Tidy a used p (pre ++ ⟨e, parts⟩ :: post)) (hformed : Formed a [⟨p, pre ++ ⟨e, parts⟩ :: post⟩])
    (hsize : (ids (pre ++ ⟨e, parts⟩ :: post)).length ≤ depth + 1) (hlength : done.length = pre.length)
    (heach : Edit.cleanEach (Edit.cleanWithin strip depth) p (List.range pre.length) a = .ok () b)
    (hedit : Edit.cleanWithin strip depth e b = .ok g b')
    (hcleaned : Cleaned strip b b' mid mid' e parts g us) :
    ∃ c used' p' us, Edit.cleanWithin strip (depth + 1) p a = .ok p' c ∧ Leads strip b' c mid' used' ∧
      Cleaned strip a c used used' p (pre ++ ⟨e, parts⟩ :: post) p' us := by
  have hbranches := hformed.branches
  have hparts := (formed_append.1 hformed.parts).2
  rw [ids_append, ids_cons, List.length_append, List.length_append] at hsize
  have hnew : ∀ x ∈ ids [⟨e, parts⟩], x ∉ ids pre := fun x hx hin => htidy.apart.2.1 x hin hx
  obtain ⟨mid₁, hlinked, hnext⟩ := h.advance hcleaned hnew fun hblock => hbranches hblock ⟨e, parts⟩ (by simp)
  have hafter : Underway strip a (b'.placing p done.length e g) used mid₁ (a.get p).kind.isIfBlock p
      (pre ++ [⟨e, parts⟩])
      (done ++ [⟨g, us⟩]) (post ++ []) := by rwa [List.append_nil]
  obtain ⟨b₁, mid₂, done₁, heach₁, hlength₁, hleads₁, hdone⟩ :=
    hafter.cleanEach (cleansUp_cleanWithin strip depth)
    (by simpa using htidy.nodup_parts) (formed_cons.1 hparts).2 (by omega) fun hblock s hs =>
      hbranches hblock s (by simp [hs])
  have hdone : Underway strip a b₁ used mid₂ (a.get p).kind.isIfBlock p (pre ++ ⟨e, parts⟩ :: post) done₁
    [] := by simpa using hdone
  have hcount : (pre ++ ⟨e, parts⟩ :: post).length = pre.length + (post.length + 1) := by
    rw [List.length_append, List.length_cons]
  have hall : Edit.cleanEach (Edit.cleanWithin strip depth) p
      (List.range (pre ++ ⟨e, parts⟩ :: post).length) a = .ok () b₁ := by
    have hindices : List.range (pre ++ ⟨e, parts⟩ :: post).length =
        List.range pre.length ++ pre.length :: List.range' (pre.length + 1) post.length := by
      rw [hcount, ← List.range'_succ, List.range_eq_range', List.range_eq_range', ← List.range'_append_1,
        Nat.zero_add]
    have hchild : b.child p done.length = .ok e := h.tidy.child
    rw [hindices, Edit.cleanEach_append, Edit.bind_ok heach, ← hlength, cleanEach_cons hchild hedit]
    simpa using heach₁
  obtain ⟨_, c, p', us', -, hcleans, hdropped, hleads₂, hcleaned'⟩ :=
    hdone.exists_end htidy hformed (by omega)
    (by rw [hlength₁, hcount, List.length_append, List.length_singleton, hlength]; omega) hall
  exact ⟨c, mid₂, p', us', hcleans, hlinked.trans (hleads₁.trans (hdropped.trans hleads₂)), hcleaned'⟩

/-- The pass goes from every moment that is reached to its end. -/
theorem Edit.Reaches.exists_visit (h : Edit.Reaches strip depth p a x b) {ss : List Shape}
    (htidy : Tidy a used p ss) (hformed : Formed a [⟨p, ss⟩]) (hsize : (ids [⟨p, ss⟩]).length ≤ depth + 1) :
    ∃ c used' p' us mid, Edit.cleanWithin strip depth p a = .ok p' c ∧
      Cleaned strip a c used used' p ss p' us ∧
      x ∈ ids [⟨p, ss⟩] ∧ Visit strip a c used mid used' x b := by
  induction h generalizing used ss with
  | @self depth p a =>
    obtain ⟨c, used', p', us, hedit, hcleaned⟩ := cleansUp_cleanWithin strip depth htidy hformed hsize
    exact ⟨c, used', p', us, used, hedit, hcleaned,
      root_mem_ids (s := ⟨p, ss⟩) (List.mem_singleton_self _), .refl used,
      hcleaned.touches.leads, rfl, depth, ss, p', c, htidy, hformed, hsize, hedit, .start⟩
  | @child depth i p e x a a' b before index child below ih =>
    rw [ids_singleton, List.length_cons] at hsize
    rw [htidy.childCount] at index
    obtain ⟨pre, ⟨d, parts⟩, post, rfl, rfl⟩ : ∃ pre s post, ss = pre ++ s :: post ∧ pre.length = i :=
      ⟨ss.take i, ss[i], ss.drop (i + 1), by simp, by simp; omega⟩
    have hids : (ids (pre ++ ⟨d, parts⟩ :: post)).length =
        (ids pre).length + ((ids [⟨d, parts⟩]).length + (ids post).length) := by
      rw [ids_append, ids_cons, List.length_append, List.length_append]
    obtain ⟨b', mid, done, heach, hlength, hleads, hunder⟩ :=
      CleansUp.exists_upTo (cleansUp_cleanWithin strip depth) htidy hformed rfl (by omega)
    obtain rfl : b' = a' := (EStateM.Result.ok.inj (heach.symm.trans before)).2
    have hmid := hunder.tidy
    obtain rfl : d = e := by
      have hchild : b'.child p done.length = .ok d := hmid.child
      rw [hlength, child] at hchild
      exact (Except.ok.inj hchild).symm
    have hpart : Formed a [⟨d, parts⟩] := (formed_cons.1 (formed_append.1 hformed.parts).2).1
    obtain ⟨c', mid', g, us, mid₁, hedit, hcleaned, hx, hvisit⟩ :=
      ih hmid.part (hpart.evolves hunder.touches.evolves) (by omega)
    obtain ⟨c, used', p', us', hedit', hleads', hcleaned'⟩ :=
      hunder.exists_rest htidy hformed (by omega) hlength heach hedit hcleaned
    have hin : x ∈ ids [⟨p, pre ++ ⟨d, parts⟩ :: post⟩] := by
      rw [ids_singleton, ids_append, ids_cons ⟨d, parts⟩]
      exact List.mem_cons_of_mem p (List.mem_append_right _ (List.mem_append_left _ hx))
    have hsame : b'.get x = a.get x :=
      hunder.touches.outside (fun hxp => htidy.apart.1 (hxp ▸ hx)) fun hxpre => htidy.apart.2.1 x hxpre hx
    obtain ⟨depth', parts', x', b'', htidy', hformed', hsize', hturn, hsteps⟩ := hvisit.turn
    exact ⟨c, used', p', us', mid₁, hedit', hcleaned', hin, hleads.trans hvisit.before,
      hvisit.after.trans hleads', hvisit.same.trans hsame, depth', parts', x', b'', htidy', hformed', hsize',
      hturn, hsteps.trans hleads'.steps⟩

theorem Shape.exists_of_mem_ids (hx : x ∈ ids ss) :
    ∃ pre e parts post, ss = pre ++ ⟨e, parts⟩ :: post ∧ x ∈ ids [⟨e, parts⟩] := by
  induction ss with
  | nil => rw [ids_nil] at hx; cases hx
  | cons s ss ih =>
    rw [ids_cons] at hx
    rcases List.mem_append.1 hx with hx | hx
    · obtain ⟨e, parts⟩ := s
      exact ⟨[], e, parts, ss, rfl, hx⟩
    · obtain ⟨pre, e, parts, post, rfl, hin⟩ := ih hx
      exact ⟨s :: pre, e, parts, post, rfl, hin⟩

/-- The pass comes to every element. -/
theorem Edit.exists_reaches (strip : Bool) (h : Tidy a used p ss) (hformed : Formed a [⟨p, ss⟩])
    (hsize : (ids [⟨p, ss⟩]).length ≤ depth + 1) (hx : x ∈ ids [⟨p, ss⟩]) :
    ∃ b, Edit.Reaches strip depth p a x b := by
  induction depth generalizing a used p ss with
  | zero =>
    rw [ids_singleton, List.length_cons] at hsize
    rw [ids_singleton, List.length_eq_zero_iff.1 (by omega : (ids ss).length = 0), List.mem_singleton] at hx
    exact ⟨a, hx ▸ .self⟩
  | succ depth ih =>
    rw [ids_singleton] at hx hsize
    rcases List.mem_cons.1 hx with rfl | hx
    · exact ⟨a, .self⟩
    · obtain ⟨pre, e, parts, post, rfl, hin⟩ := exists_of_mem_ids hx
      rw [List.length_cons, ids_append, ids_cons, List.length_append, List.length_append] at hsize
      obtain ⟨a', mid, done, heach, hlength, -, hunder⟩ :=
        CleansUp.exists_upTo (cleansUp_cleanWithin strip depth) h hformed rfl (by omega)
      have hpart : Formed a [⟨e, parts⟩] := (formed_cons.1 (formed_append.1 hformed.parts).2).1
      have hmid := hunder.tidy
      have hchild : a'.child p done.length = .ok e := hmid.child
      rw [hlength] at hchild
      obtain ⟨b, hbelow⟩ := ih hmid.part (hpart.evolves hunder.touches.evolves) (by omega) hin
      refine ⟨b, .child heach ?_ hchild hbelow⟩
      rw [h.childCount, List.length_append, List.length_cons]
      omega

/-! ### The turn of an element -/

/-- When it is an element's turn, its children are cleaned up, none of them being gone, and then those
that can go are dropped. -/
structure Turn (strip : Bool) (a c : Arena) (p : ElementId) (b b' : Arena) (done : List Shape) : Prop where
  before : Steps strip a b
  parent : (b.get p).parent = (a.get p).parent
  tidy : ∃ used, Tidy b used p done
  length : done.length = (a.children p).length
  trimmed {x : ElementId} {text : String} {trimmed : Bool} : strip = true → x ∈ ids done →
    (b.get x).kind = .text text trimmed →
    trimmed = true
  drop : Edit.dropIgnorable strip p done.length 0 b = .ok () b'
  dropped : Steps strip b b'
  after : Steps strip b' c

theorem Visit.exists_turn (h : Visit strip a c used mid used' p b) (hsome : a.children p ≠ []) :
    ∃ b₁ b₂ done, Turn strip a c p b₁ b₂ done := by
  obtain ⟨depth, parts, p', b', htidy, hformed, hsize, hedit, hsteps⟩ := h.turn
  have hroots : parts.map root = a.children p := by
    rw [← htidy.children, Arena.children, h.same, ← Arena.children]
  have hcount : 0 < parts.length := by
    rw [← List.length_map (f := root), hroots]
    exact List.length_pos_of_ne_nil hsome
  have hids : parts.length ≤ (ids parts).length := by simpa using (roots_sublist_ids parts).length_le
  rw [ids_singleton, List.length_cons] at hsize
  obtain ⟨depth, rfl⟩ : ∃ k, depth = k + 1 := ⟨depth - 1, by omega⟩
  obtain ⟨b₁, mid₁, done, heach, hlength, hleads, hunder⟩ :=
    CleansUp.exists_upTo (cleansUp_cleanWithin strip depth) htidy hformed
      (List.append_nil parts).symm (by omega)
  obtain ⟨b₂, c', p'', us, hdrop, hedit', hdropped, hleft, -⟩ :=
    hunder.exists_end htidy hformed hcount hlength heach
  obtain rfl : c' = b' := (EStateM.Result.ok.inj (hedit'.symm.trans hedit)).2
  have hdone : Tidy b₁ mid₁ p done := hunder.tidy_done
  exact ⟨b₁, b₂, done, h.before.steps.trans hleads.steps,
    hunder.touches.place.1.trans (congrArg Element.parent h.same), ⟨mid₁, hdone⟩,
    by rw [hlength, ← hroots, List.length_map], hunder.weeds.trimmed, hdrop, hdropped.steps,
    hleft.steps.trans hsteps⟩

end

end Stencil
