import Stencil.Proofs.Cleanup.Foretold

/-! # Cleaning up again

A pass leaves elements at rest: no child that could go, no sequence and no if block that could give
way, no text that could be trimmed, and no storage that could be given up. Another pass over them
changes nothing at all. -/

namespace Stencil

open Shape

section
variable {strip : Bool} {a : Arena} {used : ElementId → Prop} {p c : ElementId} {ss pre post : List Shape}

/-! ### Edits that change nothing -/

theorem Arena.update_self {f : Element → Element} (h : f (a.get c) = a.get c) : a.update c f = a := by
  obtain ⟨elements⟩ := a
  refine congrArg Arena.mk (Array.ext (by simp) fun i hi hi' => ?_)
  rw [Array.getElem_modify]
  split
  · next hsame =>
    subst hsame
    simpa [Arena.get, Array.getD_eq_getD_getElem?, hi'] using h
  · rfl

/-- A child that is linked in its own place again. -/
theorem Tidy.placing_self {s : Shape} (h : Tidy a used p (pre ++ s :: post)) :
    a.placing p pre.length s.root s.root = a := by
  have hplace := Arena.children_getElem?_length h.children_split
  rw [List.length_map] at hplace
  obtain ⟨-, hparent, hindex⟩ := h.sound.child h.root hplace
  rw [Arena.placing, if_neg (not_not.2 rfl)]
  refine Arena.update_self ?_
  rw [← hparent, ← hindex]

theorem Tidy.cleanEach_again {clean : ElementId → Edit ElementId} (h : Tidy a used p (pre ++ post))
    (hclean : ∀ s ∈ post, clean s.root a = .ok s.root a) :
    Edit.cleanEach clean p (List.range' pre.length post.length) a = .ok () a := by
  induction post generalizing pre with
  | nil => rfl
  | cons s post ih =>
    obtain ⟨hs, hrest⟩ := List.forall_mem_cons.1 hclean
    have hnext : Tidy a used p ((pre ++ [s]) ++ post) := by rwa [List.append_assoc]
    have hlater := ih hnext hrest
    rw [List.length_append, List.length_singleton] at hlater
    rw [List.length_cons, List.range'_succ, cleanEach_cons h.child hs, h.placing_self]
    exact hlater

theorem Tidy.dropIgnorable_again (steps : Nat) (h : Tidy a used p (pre ++ post))
    (hcleared : a.Cleared strip p) :
    Edit.dropIgnorable strip p steps pre.length a = .ok () a := by
  induction steps generalizing pre post with
  | zero => rfl
  | succ steps ih =>
    cases post with
    | nil =>
      have hend : ¬ pre.length < a.childCount p := by rw [h.childCount]; simp
      simp only [Edit.dropIgnorable, Edit.bind_ok (Edit.get_ok a), if_neg hend]
      rfl
    | cons s post =>
      have hmore : pre.length < a.childCount p := by rw [h.childCount]; simp
      have hstays := (hcleared.firm h.children_split).not_isIgnorable h.sound h.root h.children_split
      have hnext : Tidy a used p ((pre ++ [s]) ++ post) := by rwa [List.append_assoc]
      have hlater := ih hnext
      rw [List.length_append, List.length_singleton] at hlater
      simp only [Edit.dropIgnorable, Edit.bind_ok (Edit.get_ok a), if_pos hmore,
        Edit.bind_ok (Edit.observe_ok (·.child p pre.length) h.child),
        Edit.bind_ok (Edit.observe_ok (·.isIgnorable s.root strip) hstays)]
      exact hlater

theorem Arena.AtRest.simplify (h : a.AtRest strip p) : Edit.simplify strip p a = .ok p a := by
  simp only [Edit.simplify, Edit.bind_ok (Edit.get_ok a)]
  cases hkind : (a.get p).kind with
  | sequence =>
    simp only [if_neg (h.several (.inl hkind))]
    rfl
  | ifBlock =>
    simp only [if_neg (h.several (.inr hkind))]
    rfl
  | text text trimmed =>
    have hdone : (strip && !trimmed) = false := by
      rw [Bool.and_eq_false_iff, Bool.not_eq_false']
      by_contra hnot
      obtain ⟨hstrip, htrimmed⟩ := not_or.1 hnot
      obtain rfl : trimmed = false := by simpa using htrimmed
      exact h.trimmed (by simpa using hstrip) text hkind
    simp only [hdone]
    rfl
  | _ => rfl

/-- A pass over elements at rest changes nothing. -/
theorem Tidy.cleanWithin_again (depth : Nat) (h : Tidy a used p ss)
    (hrest : ∀ x ∈ ids [⟨p, ss⟩], a.AtRest strip x) (hdepth : (ids [⟨p, ss⟩]).length ≤ depth + 1) :
    Edit.cleanWithin strip depth p a = .ok p a := by
  induction depth generalizing p ss with
  | zero => exact (hrest p (root_mem_ids (List.mem_singleton_self ⟨p, ss⟩))).simplify
  | succ depth ih =>
    have hself := hrest p (root_mem_ids (List.mem_singleton_self ⟨p, ss⟩))
    rw [ids_singleton] at hrest hdepth
    simp only [Edit.cleanWithin, Edit.bind_ok (Edit.get_ok a), h.childCount]
    by_cases hsome : 0 < ss.length
    · have hbelow : ∀ s ∈ ss, Edit.cleanWithin strip depth s.root a = .ok s.root a := fun s hs => by
        obtain ⟨e, parts⟩ := s
        obtain ⟨hpart, hsub⟩ := h.of_mem hs
        rw [List.length_cons] at hdepth
        have hlength : (ids [⟨e, parts⟩]).length ≤ depth + 1 :=
          Nat.le_trans hsub.length_le (Nat.le_of_succ_le_succ hdepth)
        exact ih hpart (fun x hx => hrest x (List.mem_cons_of_mem p (hsub.subset hx))) hlength
      have htidy : Tidy a used p ([] ++ ss) := h
      have heach : Edit.cleanEach (Edit.cleanWithin strip depth) p (List.range ss.length) a = .ok () a := by
        rw [List.range_eq_range']
        exact htidy.cleanEach_again hbelow
      have hdrop : Edit.dropIgnorable strip p ss.length 0 a = .ok () a :=
        htidy.dropIgnorable_again ss.length hself.toCleared
      have hbuffer : a.setBuffer p ((a.get p).buffer.map ChildBuffer.shrink) = a := by
        refine Arena.update_self ?_
        rcases hself.fits with hfits | hnone
        · rw [hfits]
        · rw [h.children, List.map_eq_nil_iff] at hnone
          rw [hnone] at hsome
          cases hsome
      simp only [if_pos hsome, Edit.bind_ok heach, Edit.bind_ok hdrop]
      show Edit.simplify strip p (a.setBuffer p ((a.get p).buffer.map ChildBuffer.shrink)) = _
      rw [hbuffer]
      exact hself.simplify
    · simp only [if_neg hsome]
      exact hself.simplify

end

/-! ### Trees that were read -/

section
variable {source : Source} {raw : Tree} {parts : List Shape}

/-- The children that were read are loose. -/
theorem JustLoaded.sparse (h : JustLoaded raw parts) (hraw : Tree.parse source = .ok raw) :
    Sparse (Arena.load {} raw).1 [⟨(Arena.load {} raw).2, parts⟩] := by
  intro x hx
  have hin : x < (Arena.load {} raw).1.size := by
    rw [ids_singleton] at hx
    exact (List.mem_cons.1 hx).elim (fun hx => hx ▸ h.tidy.root) h.tidy.used_of_mem
  exact ⟨h.apart hraw hin, h.child_ne_sequence hraw hin⟩

/-- What a pass over a tree that was read leaves is at rest. -/
theorem JustLoaded.exists_atRest (h : JustLoaded raw parts) (hraw : Tree.parse source = .ok raw)
    (strip : Bool) : ∃ r b used us,
    Edit.clean strip (Arena.load {} raw).2 (Arena.load {} raw).1 = .ok r b ∧ Tidy b used r us ∧
    ∀ x ∈ ids [⟨r, us⟩], b.AtRest strip x := by
  obtain ⟨b, used, r, us, hclean, hcleaned⟩ := exists_clean strip h.tidy h.formed
  exact ⟨r, b, used, us, hclean, hcleaned.tidy, hcleaned.rests (h.sparse hraw)⟩

/-- The elements of a finished template are at rest when the pass ends. -/
theorem Finished.exists_atRest {strip : Bool} {t : Template} {us : List Shape}
    (h : Finished strip raw t parts us) (hraw : Tree.parse source = .ok raw) :
    ∃ c used vs, Edit.clean strip (Arena.load {} raw).2 (Arena.load {} raw).1 = .ok t.root c ∧
      t.arena = c.detach t.root ∧ Tidy c used t.root vs ∧ ∀ x ∈ t.elements, c.AtRest strip x := by
  obtain ⟨c, hclean, harena⟩ := h.exists_clean
  obtain ⟨r, b, used, vs, hclean', htidy, hrest⟩ := h.loaded.exists_atRest hraw strip
  obtain ⟨rfl, rfl⟩ := EStateM.Result.ok.inj (hclean.symm.trans hclean')
  refine ⟨c, used, vs, hclean, harena, htidy, fun x hx => hrest x ?_⟩
  rwa [Template.elements, harena, c.preorder_detach, preorder_eq_ids htidy] at hx

/-- Cleaning up what was read and has been cleaned up changes nothing: the same element takes the place of
the root, and every element of the arena is as it was, with its links and its storage. -/
theorem Edit.clean_again (h : Tree.parse source = .ok raw) (strip : Bool) : ∃ r b,
    Edit.clean strip (Arena.load {} raw).2 (Arena.load {} raw).1 = .ok r b ∧
    Edit.clean strip r b = .ok r b := by
  obtain ⟨parts, hloaded⟩ := exists_justLoaded h
  obtain ⟨r, b, used, us, hclean, htidy, hrest⟩ := hloaded.exists_atRest h strip
  have hsize := htidy.length_ids_le
  have hagain : Edit.cleanWithin strip b.size r b = .ok r b := htidy.cleanWithin_again b.size hrest (by omega)
  refine ⟨r, b, hclean, ?_⟩
  simp only [Edit.clean, Edit.bind_ok (Edit.get_ok b)]
  exact hagain

/-- A branch has taken the place of its block and of the root, and has given up the storage
of the children it lost. -/
theorem Edit.clean_again_branch :
    ∃ raw r b, Tree.parse ⟨none, "\x7b[#if x]\x7d\n  \x7b[% c ]\x7d\n a\x7b[/if]\x7d"⟩ = .ok raw ∧
    Edit.clean true (Arena.load {} raw).2 (Arena.load {} raw).1 = .ok r b ∧
    (Arena.load {} raw).2 = 5 ∧ r = 3 ∧
    ((Arena.load {} raw).1.get 3).buffer = some ⟨[0, 1, 2], 6⟩ ∧ (b.get 3).buffer = some ⟨[2], 1⟩ ∧
    Edit.clean true r b = .ok r b := by
  have hparsed : (Tree.parse ⟨none, "\x7b[#if x]\x7d\n  \x7b[% c ]\x7d\n a\x7b[/if]\x7d"⟩).toOption.any
    (fun raw =>
      (Arena.load {} raw).2 == 5 && ((Arena.load {} raw).1.get 3).buffer == some ⟨[0, 1, 2], 6⟩ &&
        (Edit.clean true (Arena.load {} raw).2 >>= fun r =>
          (fun b : Arena => (r, (b.get 3).buffer)) <$> get).run' (Arena.load {} raw).1 ==
          some (3, some ⟨[2], 1⟩)) = true := by
    decide +kernel
  cases hraw : Tree.parse ⟨none, "\x7b[#if x]\x7d\n  \x7b[% c ]\x7d\n a\x7b[/if]\x7d"⟩ with
  | error e => rw [hraw] at hparsed; cases hparsed
  | ok raw =>
    obtain ⟨r, b, hclean, hagain⟩ := Edit.clean_again hraw true
    have hrun : (Edit.clean true (Arena.load {} raw).2 >>= fun r =>
        (fun b : Arena => (r, (b.get 3).buffer)) <$> get).run'
        (Arena.load {} raw).1 = some (r, (b.get 3).buffer) := by
      delta EStateM.run' EStateM.run
      rw [Edit.bind_ok hclean]
      rfl
    simp only [hraw, Except.toOption, Option.any_some, hrun, Bool.and_eq_true, beq_iff_eq, Option.some.injEq,
      Prod.mk.injEq] at hparsed
    obtain ⟨⟨hroot, hbefore⟩, hr, hafter⟩ := hparsed
    exact ⟨raw, r, b, rfl, hclean, hroot, hr, hbefore, hafter, hagain⟩

end

end Stencil
