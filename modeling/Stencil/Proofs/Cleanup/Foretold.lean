import Stencil.Proofs.Cleanup.Neighbours
import Stencil.Proofs.Cleanup.Remnants
import Stencil.Proofs.Reading.Snippets

/-! # Texts that count as dropped

While one text is trimmed, blank texts on its line count as dropped that have quiet neighbours. They are
indeed, unless a comment stands right before them: then it is gone when their turn comes, and what stands
before the comment decides. -/

namespace Stencil

open Execution Shape

section
variable {a : Arena} {x : ElementId}

/-! ### What was read -/

theorem Shape.Spans.exists_parent {ss : List Shape} (h : Spans a ss) (hx : x ∈ ids ss) :
    x ∈ ss.map root ∨ ∃ q ∈ ids ss, x ∈ a.children q := by
  induction ss using forest_induction with
  | nil => rw [ids_nil] at hx; cases hx
  | cons id parts ss ihParts ih =>
    rw [Spans] at h
    rcases mem_ids_cons.1 hx with rfl | hx | hx
    · exact .inl List.mem_cons_self
    · rcases ihParts h.2.1 hx with hroot | ⟨q, hq, hmem⟩
      · exact .inr ⟨id, mem_ids_cons.2 (.inl rfl), h.1 ▸ hroot⟩
      · exact .inr ⟨q, mem_ids_cons.2 (.inr (.inl hq)), hmem⟩
    · rcases ih h.2.2 hx with hroot | ⟨q, hq, hmem⟩
      · exact .inl (List.mem_cons_of_mem _ hroot)
      · exact .inr ⟨q, mem_ids_cons.2 (.inr (.inr hq)), hmem⟩

/-- What hangs together below an element are children of one another. -/
theorem Tidy.exists_parent {used : ElementId → Prop} {p : ElementId} {ss : List Shape}
    (h : Tidy a used p ss) (hx : x ∈ ids ss) :
    ∃ q, used q ∧ x ∈ a.children q := by
  rcases h.parts.exists_parent hx with hroot | ⟨q, hq, hmem⟩
  · exact ⟨p, h.root, h.children ▸ hroot⟩
  · exact ⟨q, h.used_of_mem hq, hmem⟩

/-- Texts stand apart in an arena if they do in the trees that it holds. -/
theorem Shape.Holds.apart {ss : List Shape} {ts : List Tree} (h : Holds a ss ts) (hspans : Spans a ss)
    (hapart : Tree.Apart ts) :
    a.Apart (ss.map root) ∧ ∀ q ∈ ids ss, a.Apart (a.children q) := by
  induction ss using forest_induction generalizing ts with
  | nil => simp [Arena.Apart]
  | cons id parts ss ihParts ih =>
    cases hapart with
    | nil => simp only [Holds] at h
    | @cons t ts body next tail =>
      rw [Holds] at h
      rw [Spans] at hspans
      obtain ⟨hkind, -, hparts, hss⟩ := h
      obtain ⟨hroots, hbelow⟩ := ihParts hparts hspans.2.1 body
      obtain ⟨hroots', hbelow'⟩ := ih hss hspans.2.2 tail
      refine ⟨List.isChain_cons.2 ⟨fun y hy htext => ?_, hroots'⟩,
        forall_mem_ids_cons.2 ⟨hspans.1 ▸ hroots, hbelow, hbelow'⟩⟩
      cases ss with
      | nil => cases hy
      | cons s ss =>
        obtain ⟨z, below⟩ := s
        cases ts with
        | nil => simp only [Holds] at hss
        | cons u ts =>
          rw [Holds] at hss
          obtain rfl : z = y := Option.some.inj hy
          exact hss.1 ▸ next (hkind ▸ htext) u rfl

section
variable {source : Source} {raw : Tree} {parts : List Shape} {q : ElementId}

/-- An element is a child of another, unless it is the root. -/
theorem JustLoaded.parent_ne_none (h : JustLoaded raw parts) (hx : x < (Arena.load {} raw).1.size)
    (hroot : x ≠ (Arena.load {} raw).2) :
    ((Arena.load {} raw).1.get x).parent ≠ none := by
  have hin := h.all hx
  rw [ids_singleton] at hin
  obtain ⟨q, hq, hmem⟩ := h.tidy.exists_parent ((List.mem_cons.1 hin).resolve_left hroot)
  rw [(h.tidy.sound.child_mem hq hmem).2]
  exact Option.some_ne_none q

/-- Only the root is a sequence. -/
theorem JustLoaded.ne_sequence (h : JustLoaded raw parts) (hraw : Tree.parse source = .ok raw)
    (hx : x < (Arena.load {} raw).1.size) (hroot : x ≠ (Arena.load {} raw).2) :
    ((Arena.load {} raw).1.get x).kind ≠ .sequence := by
  have hin := h.all hx
  rw [ids_singleton] at hin
  have hholds := h.holds
  rw [Holds] at hholds
  have hkinds : Tree.Each (· ≠ .sequence) raw.children := by
    refine (Tree.written_of_parse hraw).2.each.mono ?_
    rintro kind h rfl
    exact h
  exact Tree.Each.of_holds hholds.2.2.1 hkinds x ((List.mem_cons.1 hin).resolve_left hroot)

/-- No child of an element is a sequence. -/
theorem JustLoaded.child_ne_sequence (h : JustLoaded raw parts) (hraw : Tree.parse source = .ok raw)
    (hq : q < (Arena.load {} raw).1.size) :
    ∀ x ∈ (Arena.load {} raw).1.children q, ((Arena.load {} raw).1.get x).kind ≠ .sequence := by
  intro x hx
  obtain ⟨hin, hparent⟩ := h.tidy.sound.child_mem hq hx
  refine h.ne_sequence hraw hin ?_
  rintro rfl
  rw [h.orphan] at hparent
  cases hparent

/-- No two texts stand side by side. -/
theorem JustLoaded.apart (h : JustLoaded raw parts) (hraw : Tree.parse source = .ok raw)
    (hq : q < (Arena.load {} raw).1.size) :
    (Arena.load {} raw).1.Apart ((Arena.load {} raw).1.children q) := by
  obtain ⟨tokens, hread⟩ := Tree.exists_readFrom hraw
  exact (h.holds.apart h.tidy.spans (Tree.apart_singleton hread.apart)).2 q (h.all hq)

/-- An element with children that is not the root stays below another. -/
theorem JustLoaded.parent_of_steps (h : JustLoaded raw parts) (hraw : Tree.parse source = .ok raw)
    (hq : q < (Arena.load {} raw).1.size) (hsome : (Arena.load {} raw).1.children q ≠ []) {strip : Bool}
    {b : Arena} (hsteps : Steps strip (Arena.load {} raw).1 b) (hparent : (b.get q).parent = none) :
    ((Arena.load {} raw).1.get q).parent = none := by
  by_cases hroot : q = (Arena.load {} raw).2
  · rw [hroot]
    exact h.orphan
  · refine absurd hparent (hsteps.parent
      (fun hgoes => hgoes.elim (fun hleaf => hsome ?_) (h.ne_sequence hraw hq hroot))
      (h.parent_ne_none hq hroot))
    exact h.formed.bare h.tidy.spans q (h.all hq) hleaf

/-! ### What is foretold -/

/-- What is blank stays blank. -/
theorem Became.allBlank {strip : Bool} {b : Arena} (h : Became strip a b x) {text : String} {trimmed : Bool}
    (hkind : (a.get x).kind = .text text trimmed) (hblank : Text.AllBlank text.toList) :
    ∃ text trimmed, (b.get x).kind = .text text trimmed ∧ Text.AllBlank text.toList := by
  cases h with
  | kept kind _ => exact ⟨text, trimmed, kind.trans hkind, hblank⟩
  | trimmed before moment kind =>
    obtain ⟨rfl, -⟩ := Kind.text.inj (before.symm.trans hkind)
    refine ⟨_, _, kind, ?_⟩
    rw [String.toList_ofList]
    exact fun d hd => hblank d (List.mem_of_mem_take (List.mem_of_mem_drop hd))

variable {strip : Bool} {t : Template} {us : List Shape} {b c : Arena}

theorem Finished.exists_clean (h : Finished strip raw t parts us) : ∃ c,
    Edit.clean strip (Arena.load {} raw).2 (Arena.load {} raw).1 = .ok t.root c ∧
    t.arena = c.detach t.root := by
  obtain ⟨c, used, r, vs, hclean, -⟩ := Stencil.exists_clean strip h.loaded.tidy h.loaded.formed
  have hedit := h.edit
  simp only [Edit.finish, Edit.bind_ok hclean] at hedit
  obtain ⟨rfl, harena⟩ := EStateM.Result.ok.inj hedit
  exact ⟨c, hclean, harena.symm⟩

/-- The pass comes from every moment to an arena where the texts of the finished
template still are children. -/
theorem Finished.exists_visit (h : Finished strip raw t parts us) (hraw : raw.kind = .sequence)
    (harena : t.arena = c.detach t.root)
    (hclean : Edit.clean strip (Arena.load {} raw).2 (Arena.load {} raw).1 = .ok t.root c)
    (hreach : Edit.Reaches strip (Arena.load {} raw).1.size (Arena.load {} raw).2 (Arena.load {} raw).1 x b) :
    ∃ mid used, Visit strip (Arena.load {} raw).1 c (· < (Arena.load {} raw).1.size) mid used x b ∧
      ∀ y ∈ t.texts, ∃ q, used q ∧ y ∈ c.children q := by
  have hsize := h.loaded.tidy.length_ids_le
  obtain ⟨c', used, r, vs, mid, hedit, hcleaned, -, hvisit⟩ :=
    hreach.exists_visit h.loaded.tidy h.loaded.formed (by omega)
  simp only [Edit.clean, Edit.bind_ok (Edit.get_ok _)] at hclean
  obtain ⟨rfl, rfl⟩ := EStateM.Result.ok.inj (hedit.symm.trans hclean)
  refine ⟨mid, used, hvisit, fun y hy => ?_⟩
  obtain ⟨hmem, htext⟩ := h.mem_texts.1 hy
  have helements : t.elements = ids [⟨t.root, vs⟩] := by
    rw [Template.elements, harena]
    exact preorder_eq_ids (hcleaned.tidy_detach h.loaded.tidy h.loaded.orphan)
  rw [helements] at hmem
  rw [ids_singleton] at hmem
  rcases List.mem_cons.1 hmem with rfl | hmem
  · rcases hcleaned.place with hsame | ⟨-, honly⟩
    · rw [hsame, h.loaded.root_kind, hraw] at htext
      cases htext
    · refine ⟨_, hcleaned.touches.still h.loaded.tidy.root h.loaded.tidy.notMem, ?_⟩
      rw [honly]
      exact List.mem_singleton_self _
  · exact hcleaned.tidy.exists_parent hmem

theorem Arena.exists_of_goesWhenStripping {y : ElementId} (h : b.goesWhenStripping y = .ok true) :
    ∃ text trimmed, (b.get y).kind = .text text trimmed ∧ b.isIgnorable y true = .ok true := by
  rw [goesWhenStripping] at h
  cases hkind : (b.get y).kind with
  | text text trimmed => exact ⟨text, trimmed, rfl, by rwa [hkind] at h⟩
  | _ => rw [hkind] at h; cases h

/-- No text that is left in the end has ever been empty. -/
theorem Finished.not_empty {y : ElementId} {trimmed : Bool} (h : Finished strip raw t parts us)
    (hraw : raw.kind = .sequence) (harena : t.arena = c.detach t.root) (hsteps : Steps strip b c)
    (hy : y ∈ t.texts) : (b.get y).kind ≠ .text "" trimmed := by
  intro hkind
  have hsame : (t.arena.get y).kind = (c.get y).kind := by
    rw [harena, ((Arena.sameNodes_detach c t.root).2 y).1]
  cases hsteps.became y with
  | kept kind _ => exact h.shown hy hraw trimmed (hsame.trans (kind.trans hkind))
  | trimmed before moment kind =>
    obtain ⟨rfl, -⟩ := Kind.text.inj (before.symm.trans hkind)
    refine h.shown hy hraw true (hsame.trans (kind.trans ?_))
    simp [Arena.trimmedText]

/-- A place that is quiet at some moment is so at first, if no comment stands right before it. -/
theorem JustLoaded.quietAt {pre post pre' post' : List ElementId} {y : ElementId} (h : JustLoaded raw parts)
    (hraw : Tree.parse source = .ok raw) (hq : q < (Arena.load {} raw).1.size)
    (hchildren : (Arena.load {} raw).1.children q = pre ++ y :: post)
    (htext : ((Arena.load {} raw).1.get y).kind.isText = true)
    (hcomment : ∀ e ∈ pre.getLast?, ∀ comment, ((Arena.load {} raw).1.get e).kind ≠ .comment comment)
    (hsteps : Steps strip (Arena.load {} raw).1 b) (hpre : (Arena.load {} raw).1.Thinned pre pre')
    (hpost : (Arena.load {} raw).1.Thinned post post') (hquiet : b.QuietAt q pre' post') :
    (Arena.load {} raw).1.QuietAt q pre post := by
  have hsequence := h.child_ne_sequence hraw hq
  have hapart := h.apart hraw hq
  rw [hchildren] at hsequence hapart
  obtain ⟨-, hpost', hbetween⟩ := List.isChain_append.1 hapart
  refine hquiet.of_thinned hsteps.evolves hpre hpost (fun e he => hsequence e ?_)
    (fun e he hleaf => ?_) (fun e he => ?_)
    (h.parent_of_steps hraw hq (by simp [hchildren]) hsteps)
  · exact (List.mem_append.1 he).elim (List.mem_append_left _) fun he =>
      List.mem_append_right _ (List.mem_cons_of_mem _ he)
  · generalize hkind : ((Arena.load {} raw).1.get e).kind = kind at hleaf
    cases hleaf with
    | comment text => exact hcomment e he text hkind
    | text text trimmed =>
      have hnot := hbetween e he y rfl (by rw [hkind]; rfl)
      rw [htext] at hnot
      cases hnot
  · exact (List.isChain_cons.1 hpost').1 e he htext

/-- The first child of an element is reached before anything changes. -/
theorem Edit.reaches_first (strip : Bool) {a : Arena} {p x : ElementId} {n : Nat} (hsize : a.size = n + 1)
    (hx : a.child p 0 = .ok x) (hcount : 0 < a.childCount p) : Edit.Reaches strip a.size p a x a := by
  rw [hsize]
  exact .child (i := 0) rfl hcount hx .self

/-- A text that counts as dropped at some moment is no element of the finished template, unless a comment
stood right before it. -/
theorem Finished.notMem_of_goes {y : ElementId} (h : Finished true raw t parts us)
    (hraw : Tree.parse source = .ok raw)
    (hreach : Edit.Reaches true (Arena.load {} raw).1.size (Arena.load {} raw).2 (Arena.load {} raw).1 x b)
    (hgoes : b.goesWhenStripping y = .ok true)
    (hcomment : ∀ e comment, (Arena.load {} raw).1.previousSibling? y = .ok (some e) →
      ((Arena.load {} raw).1.get e).kind ≠ .comment comment) : y ∉ t.elements := by
  intro hy
  have hloaded := h.loaded
  have hsequence := (Tree.written_of_parse hraw).1
  obtain ⟨c, hclean, harena⟩ := h.exists_clean
  obtain ⟨mid, used, hvisit, hleft⟩ := h.exists_visit hsequence harena hclean hreach
  obtain ⟨shown, trimmed, hkind, hignorable⟩ := Arena.exists_of_goesWhenStripping hgoes
  have htext : ((Arena.load {} raw).1.get y).kind.isText = true := by
    rw [← (hvisit.before.steps.became y).isText, hkind]
    rfl
  have hin : y ∈ t.texts := h.mem_texts.2 ⟨hy, htext⟩
  obtain ⟨q, hqused, hmem⟩ := hleft y hin
  have hqmid := hvisit.after.fewer hqused
  have hq := hvisit.before.fewer hqmid
  have hchild := hloaded.child_ne_sequence hraw hq
  -- At the moment in question the text stands between quiet neighbours, and so it did at first.
  obtain ⟨pre', post', hb⟩ := List.append_of_mem
    (hvisit.before.steps.mem_children hvisit.after.steps hchild htext hmem)
  have hthinned := hvisit.before.steps.thinned q
  rw [hb] at hthinned
  obtain ⟨pre, post, hchildren, hpre, hpost⟩ := hthinned.exists_text hchild htext
  have hcomment' : ∀ e ∈ pre.getLast?, ∀ comment,
      ((Arena.load {} raw).1.get e).kind ≠ .comment comment := fun e he comment =>
    hcomment e comment (by rw [hloaded.tidy.sound.previousSibling_eq hq hchildren, Option.mem_def.1 he])
  obtain ⟨_, _, _, _, htidy, -⟩ := hvisit.turn
  rcases (htidy.sound.isIgnorable_text_iff hqmid hb hkind).1 hignorable with rfl | ⟨hblank, hquiet⟩
  · exact h.not_empty hsequence harena hvisit.after.steps hin hkind
  -- When the turn comes to the element that the text is a child of, the text goes.
  have hsize := hloaded.tidy.length_ids_le
  obtain ⟨b', hreach'⟩ := Edit.exists_reaches true hloaded.tidy hloaded.formed
    (Nat.le_succ_of_le hsize) (hloaded.all hq)
  obtain ⟨mid', used', hvisit', -⟩ := h.exists_visit hsequence harena hclean hreach'
  obtain ⟨b₁, b₂, done, hturn⟩ := hvisit'.exists_turn (by simp [hchildren])
  obtain ⟨shown', trimmed', hkind', hblank'⟩ := (hvisit.after.steps.became y).allBlank hkind hblank
  exact hturn.gone hchildren (hchildren ▸ hloaded.tidy.sound.nodup_children hq) hchild
    (hloaded.quietAt hraw hq hchildren htext hcomment' hvisit.before.steps hpre hpost hquiet)
      hcomment' hkind' hblank' hmem

namespace Template

variable {name : Option String} {text : String}

/-- While a template is cleaned up, a text that counts as dropped is dropped, unless a comment stood right
before it. So blanks are left out beside a blank text only if that goes too. -/
theorem gone_foretold (h : Template.parse name text true = .ok t) :
    ∃ raw, Tree.parse ⟨name, text⟩ = .ok raw ∧ ∀ x b,
    Edit.Reaches true (Arena.load {} raw).1.size (Arena.load {} raw).2 (Arena.load {} raw).1 x b →
      ∀ y, b.goesWhenStripping y = .ok true →
        (∀ e comment, (Arena.load {} raw).1.previousSibling? y = .ok (some e) →
        ((Arena.load {} raw).1.get e).kind ≠ .comment comment) → y ∉ t.elements := by
  obtain ⟨raw, parts, us, hraw, hfinished⟩ := exists_finished_of_parse h
  exact ⟨raw, hraw, fun x b hreach y hgoes hcomment => hfinished.notMem_of_goes hraw hreach hgoes hcomment⟩

/-- Blanks between an assignment and a comment count as dropped when the text before the
assignment is trimmed. -/
theorem gone_foretold_assignment :
    ∃ t raw, Template.parse none "a\n \x7b[#assign x = 1]\x7d  \x7b[% c ]\x7d\nb" true = .ok t ∧
      Tree.parse ⟨none, "a\n \x7b[#assign x = 1]\x7d  \x7b[% c ]\x7d\nb"⟩ = .ok raw ∧
      Edit.Reaches true (Arena.load {} raw).1.size (Arena.load {} raw).2 (Arena.load {} raw).1 0
        (Arena.load {} raw).1 ∧
      (Arena.load {} raw).1.goesWhenStripping 2 = .ok true ∧
      (Arena.load {} raw).1.previousSibling? 2 = .ok (some 1) ∧
      ((Arena.load {} raw).1.get 1).kind.descriptor = "#assign" ∧ 2 ∉ t.elements := by
  obtain ⟨t, ht, -⟩ := exists_of_parses none "a\n \x7b[#assign x = 1]\x7d  \x7b[% c ]\x7d\nb" true
    (fun _ => true) (by decide +kernel)
  obtain ⟨raw, hraw, hgone⟩ := gone_foretold ht
  have hloaded : (Tree.parse ⟨none, "a\n \x7b[#assign x = 1]\x7d  \x7b[% c ]\x7d\nb"⟩).toOption.any
    (fun raw =>
      (Arena.load {} raw).1.size = 5 + 1 ∧ (Arena.load {} raw).1.child (Arena.load {} raw).2 0 = .ok 0 ∧
        0 < (Arena.load {} raw).1.childCount (Arena.load {} raw).2 ∧
        (Arena.load {} raw).1.goesWhenStripping 2 = .ok true ∧
        (Arena.load {} raw).1.previousSibling? 2 = .ok (some 1) ∧
        ((Arena.load {} raw).1.get 1).kind.descriptor = "#assign") = true := by
    decide +kernel
  rw [hraw] at hloaded
  obtain ⟨hsize, hfirst, hcount, hgoes, hprevious, hkind⟩ := of_decide_eq_true hloaded
  have hreach := Edit.reaches_first true hsize hfirst hcount
  refine ⟨t, raw, ht, hraw, hreach, hgoes, hprevious, hkind,
    hgone 0 _ hreach 2 hgoes fun e comment he hcomment => ?_⟩
  obtain rfl : 1 = e := Option.some.inj (Except.ok.inj (hprevious.symm.trans he))
  rw [hcomment] at hkind
  exact absurd hkind (show "\x7b[%...]\x7d" ≠ "#assign" by decide)

/-- Blanks between two comments count as dropped when the text before them is trimmed, which leaves out its
own blanks on their line. When their turn comes they stand right after that text, and so they stay. -/
theorem stays_between_comments :
    ∃ t raw, Template.parse none "a\n  \x7b[% c ]\x7d  \x7b[% d ]\x7d\nb" true = .ok t ∧
      Tree.parse ⟨none, "a\n  \x7b[% c ]\x7d  \x7b[% d ]\x7d\nb"⟩ = .ok raw ∧
      Edit.Reaches true (Arena.load {} raw).1.size (Arena.load {} raw).2 (Arena.load {} raw).1 0
        (Arena.load {} raw).1 ∧
      ((Arena.load {} raw).1.get 0).kind = .text "a\n  " false ∧
      (Arena.load {} raw).1.trailingStrip 0 "a\n  ".toList = .ok 2 ∧
      ((Arena.load {} raw).1.nextTerminal? 0).bind (Arena.load {} raw).1.nextTerminal? = some 2 ∧
      (Arena.load {} raw).1.goesWhenStripping 2 = .ok true ∧
      (Arena.load {} raw).1.heedsTrailing 2 = .ok false ∧
      2 ∈ t.elements ∧ t.texts.map (fun x => (t.arena.get x).kind) =
      [.text "a\n" true, .text "  " true, .text "b" true] := by
  obtain ⟨t, ht, hleft⟩ := exists_of_parses none "a\n  \x7b[% c ]\x7d  \x7b[% d ]\x7d\nb" true
    (fun t => 2 ∈ t.elements ∧
    t.texts.map (fun x => (t.arena.get x).kind) = [.text "a\n" true, .text "  " true, .text "b" true])
      (by decide +kernel)
  obtain ⟨raw, -, -, hraw, -⟩ := exists_finished_of_parse ht
  have hloaded : (Tree.parse ⟨none, "a\n  \x7b[% c ]\x7d  \x7b[% d ]\x7d\nb"⟩).toOption.any (fun raw =>
      (Arena.load {} raw).1.size = 5 + 1 ∧ (Arena.load {} raw).1.child (Arena.load {} raw).2 0 = .ok 0 ∧
        0 < (Arena.load {} raw).1.childCount (Arena.load {} raw).2 ∧
        ((Arena.load {} raw).1.get 0).kind = .text "a\n  " false ∧
        (Arena.load {} raw).1.trailingStrip 0 "a\n  ".toList = .ok 2 ∧
        ((Arena.load {} raw).1.nextTerminal? 0).bind (Arena.load {} raw).1.nextTerminal? = some 2 ∧
        (Arena.load {} raw).1.goesWhenStripping 2 = .ok true ∧
        (Arena.load {} raw).1.heedsTrailing 2 = .ok false) = true := by
    decide +kernel
  rw [hraw] at hloaded
  obtain ⟨hsize, hfirst, hcount, hkind, hstrip, hmet, hgoes, hheeds⟩ := of_decide_eq_true hloaded
  obtain ⟨hin, htexts⟩ := of_decide_eq_true hleft
  exact ⟨t, raw, ht, hraw, Edit.reaches_first true hsize hfirst hcount, hkind, hstrip, hmet, hgoes,
    hheeds, hin, htexts⟩

end Template

end

end

end Stencil
