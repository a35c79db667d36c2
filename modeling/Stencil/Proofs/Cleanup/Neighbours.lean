import Stencil.Proofs.Cleanup.Moments
import Stencil.Proofs.Cleanup.Thinning

/-! # Quiet neighbours

A blank text goes that stands between elements which write nothing. When its turn comes, the element
after it still is the one it had at first, and so is the element before it unless that has gone,
being a comment or a text. -/

namespace Stencil

open Execution Shape

section
variable {a : Arena} {used : ElementId → Prop} {p x : ElementId} {pre post : List ElementId}

/-! ### Dropping what is foretold -/

/-- A blank text is among the children that have not been looked at, and its neighbours are quiet, of which
the one before it stays. -/
structure Doomed (a : Arena) (p x : ElementId) (pre post : List Shape) : Prop where
  blank : ∃ text trimmed, (a.get x).kind = .text text trimmed ∧ Text.AllBlank text.toList
  among : ∃ mid parts rest, post = mid ++ ⟨x, parts⟩ :: rest ∧
    a.QuietAt p ((pre ++ mid).map root) (rest.map root) ∧
    ∀ s ∈ (pre ++ mid).getLast?, ∀ comment, (a.get s.root).kind ≠ .comment comment

theorem Arena.QuietAt.sameNodes {b : Arena} (h : a.QuietAt p pre post) (hsame : a.SameNodes b)
    (hparent : (b.get p).parent = (a.get p).parent) : b.QuietAt p pre post :=
  ⟨fun x hx => by rw [(hsame.2 x).1]; exact h.before x hx, fun x hx => by
    rw [(hsame.2 x).1]; exact h.after x hx,
    fun hend => hparent.trans (h.top hend)⟩

section
variable {b : Arena} {pre post : List Shape} {s : Shape}

/-- A quiet element that is no comment stays. -/
theorem not_isIgnorable_silent {e : ElementId} (hsilent : (a.get e).kind.isSilent = true)
    (hcomment : ∀ comment, (a.get e).kind ≠ .comment comment) : a.isIgnorable e true = .ok false := by
  rw [Arena.isIgnorable]
  cases hkind : (a.get e).kind with
  | comment text => exact absurd hkind (hcomment text)
  | text text trimmed => rw [hkind] at hsilent; cases hsilent
  | sequence => rw [hkind] at hsilent; cases hsilent
  | _ => rfl

/-- When a child before the text goes, the text still stands between quiet neighbours. -/
theorem Doomed.goes (h : Doomed a p x pre (s :: post)) (htidy : Tidy a used p (pre ++ s :: post))
    (hgoes : a.isIgnorable s.root true = .ok true) :
    x ∉ (pre ++ post).map root ∨ Doomed (a.without p (pre.map root) s.root) p x pre post := by
  have hnodes := Arena.sameNodes_without a p (pre.map root) s.root
  obtain ⟨⟨text, trimmed, hkind, hblank⟩, mid, parts, rest, hpost, hquiet, hcomment⟩ := h
  cases mid with
  | nil =>
    obtain ⟨rfl, rfl⟩ := List.cons.inj hpost
    exact .inl fun hin => htidy.root_notMem ((roots_sublist_ids _).subset hin)
  | cons m mid =>
    obtain ⟨rfl, rfl⟩ := List.cons.inj hpost
    have hmid : mid ≠ [] := by
      rintro rfl
      have hlast : (a.get s.root).kind.isSilent = true := hquiet.before s.root (by simp)
      rw [not_isIgnorable_silent hlast (hcomment s (by simp))] at hgoes
      cases hgoes
    have hlast : (pre ++ mid).getLast? = (pre ++ s :: mid).getLast? := by
      obtain ⟨m, mid', rfl⟩ := List.exists_cons_of_ne_nil hmid
      rw [List.getLast?_append, List.getLast?_append, List.getLast?_cons_cons]
    have hquiet' : a.QuietAt p ((pre ++ mid).map root) (rest.map root) := by
      refine ⟨fun y hy => hquiet.before y ?_, hquiet.after, fun hend =>
        hquiet.top (hend.imp_left fun hnil => ?_)⟩
      · rwa [List.getLast?_map, ← hlast, ← List.getLast?_map]
      · exact absurd (List.append_eq_nil_iff.1 (List.map_eq_nil_iff.1 hnil)).2 hmid
    refine .inr ⟨⟨text, trimmed, (hnodes.2 x).1.trans hkind, hblank⟩, mid, parts, rest, rfl,
      hquiet'.sameNodes hnodes htidy.takenOut.self.1, fun u hu => ?_⟩
    rw [(hnodes.2 u.root).1]
    exact hcomment u (hlast ▸ hu)

/-- When a child stays, it is not the text. -/
theorem Doomed.stays (h : Doomed a p x pre (s :: post)) (htidy : Tidy a used p (pre ++ s :: post))
    (hstays : a.isIgnorable s.root true = .ok false) : Doomed a p x (pre ++ [s]) post := by
  obtain ⟨⟨text, trimmed, hkind, hblank⟩, mid, parts, rest, hpost, hquiet, hcomment⟩ := h
  cases mid with
  | nil =>
    obtain ⟨rfl, rfl⟩ := List.cons.inj hpost
    rw [List.append_nil] at hquiet
    have hchildren : a.children p = pre.map root ++ x :: post.map root := by
      rw [htidy.children, List.map_append, List.map_cons]
      rfl
    have hgoes := (htidy.sound.isIgnorable_text_iff htidy.root hchildren hkind).2 (.inr ⟨hblank, hquiet⟩)
    cases hgoes.symm.trans hstays
  | cons m mid =>
    obtain ⟨rfl, rfl⟩ := List.cons.inj hpost
    refine ⟨⟨text, trimmed, hkind, hblank⟩, mid, parts, rest, rfl, ?_, ?_⟩
    · simpa using hquiet
    · simpa using hcomment

/-- A blank text between quiet neighbours is dropped, if the one before it stays. -/
theorem Tidy.exists_gone (h : Tidy a used p (pre ++ s :: post)) {text : String} {trimmed : Bool}
    (hkind : (a.get s.root).kind = .text text trimmed) (hblank : Text.AllBlank text.toList)
    (hquiet : a.QuietAt p (pre.map Shape.root) (post.map Shape.root))
    (hcomment : ∀ u ∈ pre.getLast?, ∀ comment, (a.get u.root).kind ≠ .comment comment) :
    ∃ b, Edit.dropIgnorable true p (pre ++ s :: post).length 0 a = .ok () b ∧ s.root ∉ b.children p := by
  obtain ⟨x, parts⟩ := s
  have htidy : Tidy a used p ([] ++ (pre ++ ⟨x, parts⟩ :: post)) := h
  have hdoomed : Doomed a p x [] (pre ++ ⟨x, parts⟩ :: post) :=
    ⟨⟨text, trimmed, hkind, hblank⟩, pre, parts, post, rfl, hquiet, hcomment⟩
  obtain ⟨b, ss', hedit, -, htidy', hgone⟩ := htidy.exists_dropIgnorable (P := fun b pre post =>
    x ∉ (pre ++ post).map Shape.root ∨ Doomed b p x pre post) _ (.inr hdoomed)
    (fun b pre s post htidy hignorable hP => hP.elim
      (fun hnot => .inl fun hin => hnot
        ((((List.sublist_cons_self s post).append_left pre).map _).subset hin))
      fun hdoomed => hdoomed.goes htidy hignorable)
    (fun b pre s post htidy hignorable hP => hP.imp (fun hnot => by simpa using hnot) fun hdoomed =>
      hdoomed.stays htidy hignorable)
    (Nat.le_refl _)
  refine ⟨b, hedit, ?_⟩
  rw [htidy'.children]
  rcases hgone with hnot | ⟨-, mid, parts, rest, hnone, -⟩
  · rwa [List.append_nil] at hnot
  · simp at hnone

end

/-! ### Neighbours later and before -/

section
variable {strip : Bool} {b c : Arena} {pre post pre' post' : List ElementId} {e g : ElementId}

/-- A quiet element does not change. -/
theorem SameElement.kind_eq {e e' : Element} (h : SameElement strip e e')
    (hsilent : e.kind.isSilent = true ∨ e'.kind.isSilent = true) :
    e'.kind = e.kind := by
  cases h with
  | text _ _ _ _ _ hkind hkind' =>
    rw [hkind, hkind'] at hsilent
    rcases hsilent with hsilent | hsilent <;> cases hsilent
  | other kind _ => exact kind

/-- What stands for a quiet element is the element. -/
theorem Arena.StandsFor.eq_of_silent (h : a.StandsFor g e) (hsilent : (a.get e).kind.isSilent = true) :
    g = e := by
  refine h.eq (fun hkind => ?_) fun hkind => ?_ <;> rw [hkind] at hsilent <;> cases hsilent

/-- What is quiet in the place of an element is the element, unless that was a sequence. -/
theorem Arena.StandsFor.eq_of_silent_after (h : a.StandsFor g e) (he : Evolves strip a b)
    (hsilent : (b.get g).kind.isSilent = true) (hsequence : (a.get e).kind ≠ .sequence) : g = e := by
  rcases h with rfl | hsame | ⟨-, branch, condition, hbranch⟩
  · rfl
  · exact absurd hsame hsequence
  · rw [((he.element g).kind_iff (by rintro ⟨⟩)).2 hbranch] at hsilent
    cases hsilent

/-- A place between quiet neighbours is one as long as nothing is gone. -/
theorem Arena.QuietAt.thinned (h : a.QuietAt p pre post) (he : Evolves strip a b) (hpre : a.Thinned pre pre')
    (hpost : a.Thinned post post') (hlength : pre.length ≤ pre'.length)
    (hlength' : post.length ≤ post'.length) (hparent : (b.get p).parent = (a.get p).parent) :
    b.QuietAt p pre' post' := by
  refine ⟨fun g hg => ?_, fun g hg => ?_, fun hend =>
    hparent.trans (h.top (hend.imp (fun hnil => ?_) fun hnil => ?_))⟩
  · obtain ⟨e, hlast, hstands⟩ := hpre.exists_getLast hlength hg
    have hsilent := h.before e hlast
    rwa [hstands.eq_of_silent hsilent, (he.element e).kind_eq (.inl hsilent)]
  · obtain ⟨e, hfirst, hstands⟩ := hpost.exists_head hlength' hg
    have hsilent := h.after e hfirst
    rwa [hstands.eq_of_silent hsilent, (he.element e).kind_eq (.inl hsilent)]
  · rw [hnil] at hlength
    exact List.length_eq_zero_iff.1 (Nat.le_zero.1 hlength)
  · rw [hnil] at hlength'
    exact List.length_eq_zero_iff.1 (Nat.le_zero.1 hlength')

/-- A place between quiet neighbours was one before, unless a text or a comment stood before
it or a text after it. -/
theorem Arena.QuietAt.of_thinned (h : b.QuietAt p pre' post') (he : Evolves strip a b)
    (hpre : a.Thinned pre pre') (hpost : a.Thinned post post')
    (hsequence : ∀ e ∈ pre ++ post, (a.get e).kind ≠ .sequence)
    (hlast : ∀ e ∈ pre.getLast?, ¬ Kind.IsLeaf (a.get e).kind)
    (hfirst : ∀ e ∈ post.head?, (a.get e).kind.isText = false)
    (hparent : (b.get p).parent = none → (a.get p).parent = none) : a.QuietAt p pre post := by
  refine ⟨fun e hlaste => ?_, fun e hfirste => ?_, fun hend =>
    hparent (h.top (hend.imp (fun hnil => ?_) fun hnil => ?_))⟩
  · obtain ⟨front, rfl⟩ := List.getLast?_eq_some_iff.1 hlaste
    have hkind := hsequence e (by simp)
    obtain ⟨front', g, back, rfl, hstands, -, hback⟩ := hpre.exists_after (not_or.2 ⟨hlast e hlaste, hkind⟩)
    cases hback
    have hsilent := h.before g (by simp)
    rw [hstands.eq_of_silent_after he hsilent hkind] at hsilent
    rwa [← (he.element e).kind_eq (.inr hsilent)]
  · obtain ⟨back, rfl⟩ := List.head?_eq_some_iff.1 hfirste
    have hkind := hsequence e (by simp)
    by_cases hleaf : Kind.IsLeaf (a.get e).kind
    · cases hcomment : (a.get e).kind with
      | comment text => rfl
      | text text trimmed =>
        have htext := hfirst e rfl
        rw [hcomment] at htext
        cases htext
      | _ => rw [hcomment] at hleaf; cases hleaf
    · have hpost' : a.Thinned ([] ++ e :: back) post' := hpost
      obtain ⟨front', g, back', rfl, hstands, hfront, -⟩ := hpost'.exists_after (not_or.2 ⟨hleaf, hkind⟩)
      cases hfront
      have hsilent := h.after g rfl
      rw [hstands.eq_of_silent_after he hsilent hkind] at hsilent
      rwa [← (he.element e).kind_eq (.inr hsilent)]
  · rw [hnil] at hpre
    cases hpre
    rfl
  · rw [hnil] at hpost
    cases hpost
    rfl

end

/-! ### The turn of an element -/

/-- A text that has been trimmed does not change any more. -/
theorem Became.kind_of_trimmed {strip : Bool} {b : Arena} (h : Became strip a b x)
    (htrimmed : ∀ text trimmed, (a.get x).kind = .text text trimmed → trimmed = true) :
    (b.get x).kind = (a.get x).kind := by
  cases h with
  | kept kind _ => exact kind
  | trimmed before => exact absurd (htrimmed _ _ before) Bool.false_ne_true

/-- A text that is blank at the end is dropped if it stands between quiet children of which
the one before it stays. -/
theorem Turn.gone {b b' c : Arena} {done : List Shape} {pre post : List ElementId}
    (h : Turn true a c p b b' done) (hchildren : a.children p = pre ++ x :: post)
    (hnodup : (pre ++ x :: post).Nodup) (hsequence : ∀ e ∈ a.children p, (a.get e).kind ≠ .sequence)
    (hquiet : a.QuietAt p pre post)
    (hcomment : ∀ e ∈ pre.getLast?, ∀ comment, (a.get e).kind ≠ .comment comment) {text : String}
    {trimmed : Bool} (hkind : (c.get x).kind = .text text trimmed) (hblank : Text.AllBlank text.toList) :
    x ∉ c.children p := by
  intro hin
  obtain ⟨used, htidy⟩ := h.tidy
  have htext : (a.get x).kind.isText = true := by
    rw [← (((h.before.trans h.dropped).trans h.after).became x).isText, hkind]
    rfl
  -- The text has been there all the time, with as many children before it and after it as at first.
  have hmem : x ∈ b.children p := h.before.mem_children (h.dropped.trans h.after) hsequence htext hin
  obtain ⟨pre', post', hb⟩ := List.append_of_mem hmem
  have hthinned := h.before.thinned p
  rw [hb] at hthinned
  obtain ⟨pre₀, post₀, hsame, hpre, hpost⟩ := hthinned.exists_text hsequence htext
  obtain ⟨-, hpostnodup, hdisjoint⟩ := List.nodup_append.1 hnodup
  obtain ⟨rfl, -, rfl⟩ := (List.append_cons_inj_of_notMem (fun hx => hdisjoint x hx x List.mem_cons_self rfl)
    (List.nodup_cons.1 hpostnodup).1).1 (hchildren.symm.trans hsame)
  have hroots : done.map root = pre' ++ x :: post' := htidy.children.symm.trans hb
  have hlength := h.length
  rw [← List.length_map (f := root), hroots, hchildren, List.length_append, List.length_append,
    List.length_cons, List.length_cons] at hlength
  have hle := hpre.length_le
  have hle' := hpost.length_le
  have hquiet' : b.QuietAt p pre' post' :=
    hquiet.thinned h.before.evolves hpre hpost (by omega) (by omega) h.parent
  have hcomment' : ∀ e ∈ pre'.getLast?, ∀ comment, (b.get e).kind ≠ .comment comment := by
    intro e he comment hcommented
    obtain ⟨e', he', hstands⟩ := hpre.exists_getLast (by omega) he
    have hsilent := hquiet.before e' he'
    rw [hstands.eq_of_silent hsilent, (h.before.evolves.element e').kind_eq (.inl hsilent)] at hcommented
    exact hcomment e' he' comment hcommented
  obtain ⟨front, rest, rfl, rfl, hrest⟩ := List.map_eq_append_iff.1 hroots
  obtain ⟨s, back, rfl, rfl, rfl⟩ := List.map_eq_cons_iff.1 hrest
  have hkept : (c.get s.root).kind = (b.get s.root).kind :=
    ((h.dropped.trans h.after).became s.root).kind_of_trimmed
    fun text trimmed hkind => h.trimmed rfl (root_mem_ids (by simp)) hkind
  obtain ⟨b'', hdrop, hgone⟩ := htidy.exists_gone (hkept.symm.trans hkind) hblank hquiet' fun u hu =>
      hcomment' u.root (by
    rw [List.getLast?_map, Option.mem_def.1 hu]
    rfl)
  obtain rfl : b'' = b' := (EStateM.Result.ok.inj (hdrop.symm.trans h.drop)).2
  exact hgone ((h.before.trans h.dropped).mem_children h.after hsequence htext hin)

end

end Stencil
