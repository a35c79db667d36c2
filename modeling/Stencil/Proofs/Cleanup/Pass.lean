import Stencil.Proofs.Cleanup.Underway

/-! # The cleanup pass

Cleaning up an element cleans up its children first, one by one and each with everything below it, and
then decides what takes the element's own place. -/

namespace Stencil

open Execution Shape

/-- An element and what was below it have given way to another, which the parent does not know yet. The
element itself is still in use. -/
structure Cleaned (strip : Bool) (a a' : Arena) (used used' : ElementId → Prop) (p : ElementId)
    (ss : List Shape) (p' : ElementId) (ss' : List Shape) : Prop where
  tidy : Tidy a' used' p' ss'
  touches : Touches strip a a' used used' p (ids ss)
  fewer : (ids [⟨p', ss'⟩]).Sublist (ids [⟨p, ss⟩])
  place : p' = p ∨ p' ≠ p ∧ a'.children p = [p']
  run (branches : Bool) : (branches = true → ∃ branch condition, (a.get p).kind =
    .conditional branch condition) →
    Cleans strip a a' branches [⟨p, ss⟩] [⟨p', ss'⟩]
  settles : Settles a a' [⟨p, ss⟩] [⟨p', ss'⟩]
  weeds : Weeds strip a' [⟨p, ss⟩] [⟨p', ss'⟩]
  stands : a'.StandsFor p' p
  rests : Rests strip a a' [⟨p, ss⟩] [⟨p', ss'⟩]

section
variable {strip : Bool} {a a' b : Arena} {used used' : ElementId → Prop} {p : ElementId} {ss ss' : List Shape}

/-! ### What takes an element's place -/

theorem Underway.tidy_done {branches : Bool} (h : Underway strip a a' used used' branches p ss ss' []) :
    Tidy a' used' p ss' := by
  simpa using h.tidy

/-- An element stays. -/
theorem Underway.stays (h : Underway strip a a' used used' (a.get p).kind.isIfBlock p ss ss' [])
    (hp : p ∉ ids ss) (hshown : Shown a' ss')
    (hown : ∀ text, strip = true → (a'.get p).kind ≠ .text text false)
    (hseveral : (a'.get p).kind = .sequence ∨ (a'.get p).kind = .ifBlock → a'.childCount p ≠ 1)
    (hcleared : Sparse a [⟨p, ss⟩] → a'.Cleared strip p) : Cleaned strip a a' used used' p ss p ss' := by
  have hrests : Rests strip a a' [⟨p, ss⟩] [⟨p, ss'⟩] :=
    h.rests.stays fun hsparse => ⟨hcleared hsparse, hseveral, fun hstrip text => hown text hstrip⟩
  refine ⟨h.tidy_done, h.touches, ?_, .inl rfl, fun branches _ texts htexts inBlock inBlock' => ?_,
    h.settles.stays h.own hshown, h.weeds.stays hshown hown, .inl rfl, hrests⟩
  · rw [ids_singleton, ids_singleton]
    exact h.fewer.cons_cons p
  · rw [trees_singleton, trees_singleton]
    refine .cons ((h.touches.evolves.element p).node _ _ _ _ _) ?_ .nil
    simp only [Kind.isIfBlock_withText]
    refine h.run texts (fun x hx hnot => htexts x ?_ ?_) _ _
    · rw [ids_singleton]
      exact List.mem_cons_of_mem p hx
    · rw [ids_singleton]
      rintro hin
      rcases List.mem_cons.1 hin with rfl | hin
      · exact hp hx
      · exact hnot hin

/-- An element whose children have come down to one gives way to it. -/
theorem Underway.givesWay {branches : Bool} {g : ElementId} {us : List Shape}
    (h : Underway strip a a' used used' branches p ss [⟨g, us⟩] []) (hlinks : a'.SameLinks b)
    (htouches : Touches strip a' b used' used' p (ids [⟨g, us⟩]))
    (hkind : ∀ branch condition, (a.get p).kind ≠ .conditional branch condition)
    (hrun : Cleans strip a b false [⟨p, ss⟩] [⟨g, us⟩]) (hsettles : Settles a b [⟨p, ss⟩] [⟨g, us⟩])
    (hweeds : Weeds strip b [⟨p, ss⟩] [⟨g, us⟩]) (hstands : b.StandsFor g p)
    (hrests : Rests strip a b ss [⟨g, us⟩]) :
    Cleaned strip a b used used' p ss g us := by
  have htidy := h.tidy_done
  have hg : g ≠ p := by
    rintro rfl
    exact htidy.notMem (root_mem_ids (s := ⟨g, us⟩) (List.mem_singleton_self _))
  refine ⟨htidy.only.sameLinks hlinks,
    h.touches.trans htouches fun x hx => h.fewer.subset hx, ?_, .inr ⟨hg, ?_⟩,
    fun branches hbranches => ?_, hsettles,
    hweeds, hstands, hrests.givesWay⟩
  · rw [ids_singleton p ss]
    exact h.fewer.trans (List.sublist_cons_self _ _)
  · rw [hlinks.children, htidy.children]
    rfl
  · cases branches with
    | false => exact hrun
    | true =>
      obtain ⟨branch, condition, hconditional⟩ := hbranches rfl
      exact absurd hconditional (hkind branch condition)

/-- A sequence runs as the only element it holds. -/
theorem Underway.cleans_sequence {g : ElementId} {us : List Shape}
    (h : Underway strip a a' used used' false p ss [⟨g, us⟩] []) (hkind : (a.get p).kind = .sequence) :
    Cleans strip a a' false [⟨p, ss⟩] [⟨g, us⟩] := by
  intro texts htexts inBlock inBlock'
  have hrun := h.run texts (fun x hx hnot =>
    htexts x (by rw [ids_singleton]; exact List.mem_cons_of_mem p hx) hnot)
    (a.get p).kind.isIfBlock inBlock'
  rw [trees_singleton]
  refine .rewrite (.sequence (by rw [hkind]; rfl) []) ?_
  rwa [List.append_nil]

/-- An if block with one branch runs as that branch, wherever the branch says it stands. -/
theorem Underway.cleans_ifBlock {g : ElementId} {us : List Shape}
    (h : Underway strip a a' used used' true p ss [⟨g, us⟩] []) (hkind : (a.get p).kind = .ifBlock)
    (hbranches : ∀ s ∈ ss, ∃ branch condition, (a.get s.root).kind = .conditional branch condition)
    (hother : ∀ x, x ≠ g → b.get x = a'.get x) (hg : (b.get g).kind = (a'.get g).kind) :
    Cleans strip a b false [⟨p, ss⟩] [⟨g, us⟩] := by
  intro texts htexts inBlock inBlock'
  have hrun := h.run texts (fun x hx hnot =>
    htexts x (by rw [ids_singleton]; exact List.mem_cons_of_mem p hx) hnot)
    (a.get p).kind.isIfBlock inBlock'
  have hroots := h.run.branches
  obtain ⟨⟨e, parts⟩, rfl⟩ : ∃ s, ss = [s] := List.length_eq_one_iff.1 hroots.length_eq
  obtain ⟨branch, condition, hbranch⟩ := hbranches _ (List.mem_singleton_self _)
  simp only [root] at hbranch
  have hbelow : trees b texts (b.get g).kind.isIfBlock us = trees a' texts (a'.get g).kind.isIfBlock us := by
    rw [hg]
    refine trees_congr fun x hx => ?_
    have hxg : x ≠ g := by
      rintro rfl
      exact h.tidy_done.only.notMem hx
    rw [hother x hxg]
    exact ⟨rfl, rfl⟩
  rw [trees_singleton, trees_singleton, hkind] at hrun
  rw [trees_singleton, trees_singleton, hkind, trees_singleton, hbelow, hg]
  refine .rewrite (.onlyBranch rfl rfl branch condition (by rw [hbranch]; rfl) []) ?_
  cases hrun with
  | cons head body tail =>
    refine .cons ⟨head.kind, fun hshown => ?_⟩ body .nil
    rw [hbranch] at hshown
    cases hshown

/-- A branch that is alone in its if block is moved to where the block is. -/
theorem Tidy.touches_relocate {g : ElementId} {us : List Shape} {branch : Branch} {condition : Option Expr}
    (h : Tidy a used p [⟨g, us⟩]) (hblock : (a.get p).kind = .ifBlock)
    (hbranch : (a.get g).kind = .conditional branch condition) :
    Touches strip a (a.update g fun e => { e with location := (a.get p).location }) used used p
      (ids [⟨g, us⟩]) := by
  have hlinks : a.SameLinks (a.update g fun e => { e with location := (a.get p).location }) :=
    Arena.sameLinks_update a g _ ⟨rfl, rfl, rfl⟩
  refine ⟨.moved (.refl used) h.sound h.root hblock h.children hbranch, fun hx _ => hx,
    fun _ hx => ?_, hlinks.place p⟩
  rw [ids_singleton] at hx
  exact Arena.get_update_ne a _ (List.ne_of_not_mem_cons hx)

/-- A text is trimmed and stays where it is. -/
theorem Underway.trimmed {branches : Bool} (h : Underway strip a a' used used' branches p [] [] [])
    {text : String} (hkind : (a.get p).kind = .text text false) (hstrip : strip = true)
    {opening trailing : Nat} (hopening : a'.openingStrip p text.toList = .ok opening)
    (htrailing : a'.trailingStrip p text.toList = .ok trailing) :
    Leads strip a' (a'.trimming p text opening trailing) used' used' ∧
      Cleaned strip a (a'.trimming p text opening trailing) used used' p [] p [] := by
  have hkind' : (a'.get p).kind = .text text false := h.own.1.trans hkind
  have hself := a'.get_trimming (h.tidy_done.sound.inside h.tidy_done.root) text opening trailing
  have hlinks := a'.sameLinks_trimming p text opening trailing
  have hupdate : Touches strip a' (a'.trimming p text opening trailing) used' used' p (ids []) :=
    ⟨.trimmed (.refl used') h.tidy_done.sound h.tidy_done.root hstrip hkind' hopening htrailing,
      fun hx _ => hx,
      fun hx _ => a'.get_trimming_ne hx text opening trailing, hlinks.place p⟩
  have htouches := h.touches.trans hupdate fun y hy => hy
  have hsettles : Settles a (a'.trimming p text opening trailing) [⟨p, []⟩] [⟨p, []⟩] := by
    refine .trimmed hkind (Arena.opens_openingStrip hopening) (Arena.closes_trailingStrip htrailing) ?_ ?_
    · rw [hself]
    · rw [hself, ← h.own.2]
  have hweeds : Weeds strip (a'.trimming p text opening trailing) [⟨p, []⟩] [⟨p, []⟩] :=
    weeds_nil.stays (List.forall_mem_nil _) fun text _ hsame => by rw [hself] at hsame; cases hsame
  have hrests : Rests strip a (a'.trimming p text opening trailing) [⟨p, []⟩] [⟨p, []⟩] := by
    refine rests_nil.stays fun _ =>
      ⟨.of_childless (h.tidy_done.sameLinks hlinks).children, fun hkind => ?_, fun _ text hsame => ?_⟩
    · rw [hself] at hkind
      exact hkind.elim Kind.noConfusion Kind.noConfusion
    · rw [hself] at hsame
      cases hsame
  refine ⟨hupdate.leads, h.tidy_done.sameLinks hlinks, htouches, .refl _, .inl rfl,
    fun _ _ texts _ inBlock inBlock' => ?_, hsettles, hweeds, .inl rfl, hrests⟩
  rw [trees_singleton, trees_singleton, trees_nil, trees_nil]
  exact .cons ((htouches.evolves.element p).node _ _ _ _ _) .nil .nil

theorem trimText_ok {text : String} {opening trailing : Nat}
    (hopening : a.openingStrip p text.toList = .ok opening)
    (htrailing : a.trailingStrip p text.toList = .ok trailing) :
    Edit.trimText p text.toList a = .ok () (a.trimming p text opening trailing) := by
  simp only [Edit.trimText, Edit.bind_ok (Edit.observe_ok (·.openingStrip p text.toList) hopening),
    Edit.bind_ok (Edit.observe_ok (·.trailingStrip p text.toList) htrailing)]
  rfl

/-- Simplifying gives an element that stands for what was cleaned up. -/
def Simplifies (strip : Bool) (a a' : Arena) (used used' : ElementId → Prop) (p : ElementId)
    (ss : List Shape) : Prop :=
  ∃ b p' us, Edit.simplify strip p a' = .ok p' b ∧ Leads strip a' b used' used' ∧
    Cleaned strip a b used used' p ss p' us

theorem Underway.simplify_sequence (h : Underway strip a a' used used' (a.get p).kind.isIfBlock p ss ss' [])
    (hp : p ∉ ids ss) (hshown : Shown a' ss') (hcleared : Sparse a [⟨p, ss⟩] → a'.Cleared strip p)
    (hkind : (a.get p).kind = .sequence) :
    Simplifies strip a a' used used' p ss := by
  have htidy := h.tidy_done
  have hkind' : (a'.get p).kind = .sequence := h.own.1.trans hkind
  by_cases hone : a'.childCount p = 1
  · obtain ⟨⟨g, us⟩, rfl⟩ : ∃ s, ss' = [s] := List.length_eq_one_iff.1 (htidy.childCount.symm.trans hone)
    have hchild : a'.child p 0 = .ok g := htidy.child_only
    have hrun : Cleans strip a a' false [⟨p, ss⟩] [⟨g, us⟩] := by
      rw [hkind] at h
      exact h.cleans_sequence hkind
    have hweeds : Weeds strip a' [⟨p, ss⟩] [⟨g, us⟩] :=
      h.weeds.givesWay hshown fun _ _ => by rw [hkind']; exact Kind.noConfusion
    refine ⟨a', g, us, ?_, .refl used', h.givesWay ⟨rfl, fun _ => rfl, fun _ => ⟨rfl, rfl⟩⟩
      (.refl strip a' used' p _) ?_ hrun
      (h.settles.sequence hkind) hweeds (.inr (.inl hkind')) h.rests⟩
    · simp only [Edit.simplify, Edit.bind_ok (Edit.get_ok a'), hkind', if_pos hone]
      exact Edit.observe_ok (·.child p 0) hchild
    · rw [hkind]
      exact fun _ _ => Kind.noConfusion
  · refine ⟨a', p, ss', ?_, .refl used', h.stays hp hshown (fun _ _ => by rw [hkind']; exact Kind.noConfusion)
      (fun _ => hone) hcleared⟩
    simp only [Edit.simplify, Edit.bind_ok (Edit.get_ok a'), hkind', if_neg hone]
    rfl

theorem Underway.simplify_ifBlock (h : Underway strip a a' used used' (a.get p).kind.isIfBlock p ss ss' [])
    (hp : p ∉ ids ss) (hshown : Shown a' ss') (hcleared : Sparse a [⟨p, ss⟩] → a'.Cleared strip p)
    (hkind : (a.get p).kind = .ifBlock)
    (hbranches : ∀ s ∈ ss, ∃ branch condition, (a.get s.root).kind = .conditional branch condition) :
    Simplifies strip a a' used used' p ss := by
  have htidy := h.tidy_done
  have hkind' : (a'.get p).kind = .ifBlock := h.own.1.trans hkind
  by_cases hone : a'.childCount p = 1
  · obtain ⟨⟨g, us⟩, rfl⟩ : ∃ s, ss' = [s] := List.length_eq_one_iff.1 (htidy.childCount.symm.trans hone)
    have hchild : a'.child p 0 = .ok g := htidy.child_only
    rw [hkind] at h
    obtain ⟨branch, condition, hbranch⟩ : ∃ branch condition, (a'.get g).kind =
        .conditional branch condition :=
      h.run.conditional hbranches _ (List.mem_singleton_self _)
    have hg : g < a'.size := htidy.inside (root_mem_ids (s := ⟨g, us⟩) (List.mem_singleton_self _))
    have hedit : Edit.simplify strip p a' =
        .ok g (a'.update g fun e => { e with location := (a'.get p).location }) := by
      simp only [Edit.simplify, Edit.bind_ok (Edit.get_ok a'), hkind', if_pos hone,
        Edit.bind_ok (Edit.observe_ok (·.child p 0) hchild)]
      rfl
    have hlinks : a'.SameLinks (a'.update g fun e => { e with location := (a'.get p).location }) :=
      Arena.sameLinks_update a' g _ ⟨rfl, rfl, rfl⟩
    have htouches : Touches strip a'
        (a'.update g fun e => { e with location := (a'.get p).location }) used' used' p
        (ids [⟨g, us⟩]) := htidy.touches_relocate hkind' hbranch
    have hother : ∀ x, x ≠ g → (a'.update g fun e => { e with location := (a'.get p).location }).get x =
        a'.get x :=
      fun _ hx => Arena.get_update_ne a' _ hx
    have hself := Arena.get_update_self a' (fun e => { e with location := (a'.get p).location }) hg
    have hundisturbed : ∀ x, a'.Undisturbed
        (a'.update g fun e => { e with location := (a'.get p).location }) x := fun x => by
      by_cases hx : x = g
      · rw [hx]
        constructor <;> rw [hself]
        exact id
      · exact .of_get (hother x hx)
    generalize a'.update g (fun e => { e with location := (a'.get p).location }) = b at *
    have hsame : (b.get g).kind = (a'.get g).kind := by rw [hself]
    have hkinds : ∀ x, (b.get x).kind = (a'.get x).kind := fun x => by
      by_cases hx : x = g
      · rw [hx, hsame]
      · rw [hother x hx]
    have hweeds : Weeds strip a' [⟨p, ss⟩] [⟨g, us⟩] :=
      h.weeds.givesWay hshown fun _ _ => by rw [hkind']; exact Kind.noConfusion
    have hsub : ids [⟨g, us⟩] ⊆ ids [⟨p, ss⟩] := fun x hx => by
      rw [ids_singleton p ss]
      exact List.mem_cons_of_mem p (h.fewer.subset hx)
    have hmoved : (b.get g).location = (a.get p).location := by rw [hself, ← h.own.2]
    refine ⟨b, g, us, hedit, htouches.leads,
      h.givesWay hlinks htouches ?_ (h.cleans_ifBlock hkind hbranches hother hsame)
      (h.settles.branch hkind hbranch htidy.only.notMem hother hsame hmoved)
        (hweeds.congr hsub fun x _ => hkinds x)
      (.inr (.inr ⟨(hkinds p).trans hkind', branch, condition, hsame.trans hbranch⟩))
      (h.rests.later htidy.parts fun x _ => hundisturbed x)⟩
    rw [hkind]
    exact fun _ _ => Kind.noConfusion
  · refine ⟨a', p, ss', ?_, .refl used', h.stays hp hshown (fun _ _ => by rw [hkind']; exact Kind.noConfusion)
      (fun _ => hone) hcleared⟩
    simp only [Edit.simplify, Edit.bind_ok (Edit.get_ok a'), hkind', if_neg hone]
    rfl

theorem Underway.simplify_text {branches : Bool} (h : Underway strip a a' used used' branches p [] [] [])
    {text : String} (hkind : (a.get p).kind = .text text false) (hstrip : strip = true) :
    Simplifies strip a a' used used' p [] := by
  have htidy := h.tidy_done
  have hkind' : (a'.get p).kind = .text text false := h.own.1.trans hkind
  obtain ⟨opening, hopening⟩ := htidy.sound.openingStrip htidy.root text.toList
  obtain ⟨trailing, htrailing⟩ := htidy.sound.trailingStrip htidy.root text.toList
  refine ⟨_, p, [], ?_, h.trimmed hkind hstrip hopening htrailing⟩
  simp only [Edit.simplify, Edit.bind_ok (Edit.get_ok a'), hkind', hstrip, Bool.not_false,
    Bool.and_self, if_true, Edit.bind_ok (trimText_ok hopening htrailing)]
  rfl

/-- What simplifying makes of an element whose children have been cleaned up. -/
theorem Underway.simplify (h : Underway strip a a' used used' (a.get p).kind.isIfBlock p ss ss' [])
    (hformed : Formed a [⟨p, ss⟩]) (hp : p ∉ ids ss) (hshown : Shown a' ss')
    (hcleared : Sparse a [⟨p, ss⟩] → a'.Cleared strip p) :
    Simplifies strip a a' used used' p ss := by
  rw [Formed] at hformed
  obtain ⟨hleaf, hblock, -⟩ := hformed
  have hkind' := h.own.1
  have hstays : Edit.simplify strip p a' = .ok p a' →
      (∀ text, strip = true → (a'.get p).kind ≠ .text text false) →
      (a'.get p).kind ≠ .sequence ∧ (a'.get p).kind ≠ .ifBlock →
      Simplifies strip a a' used used' p ss := fun hedit hown hneither =>
    ⟨a', p, ss', hedit, .refl used',
      h.stays hp hshown hown (fun hkind => absurd hkind (not_or.2 hneither)) hcleared⟩
  cases hkind : (a.get p).kind with
  | sequence => exact h.simplify_sequence hp hshown hcleared hkind
  | ifBlock => exact h.simplify_ifBlock hp hshown hcleared hkind (hblock hkind)
  | text text trimmed =>
    rw [hkind] at hkind'
    cases hstrip : strip && !trimmed with
    | false =>
      refine hstays ?_ (fun text hon hsame => ?_) (by rw [hkind']; exact ⟨Kind.noConfusion, Kind.noConfusion⟩)
      · simp only [Edit.simplify, Edit.bind_ok (Edit.get_ok a'), hkind', hstrip]
        rfl
      · obtain ⟨-, rfl⟩ := Kind.text.inj (hkind'.symm.trans hsame)
        rw [hon] at hstrip
        cases hstrip
    | true =>
      obtain ⟨hstrips, htrimmed⟩ := Bool.and_eq_true_iff.1 hstrip
      obtain rfl : trimmed = false := by simpa using htrimmed
      obtain rfl : ss = [] := hleaf (by rw [hkind]; exact .text text false)
      obtain rfl : ss' = [] := by
        have hroots := (roots_sublist_ids ss').trans h.fewer
        rw [ids_nil] at hroots
        exact List.map_eq_nil_iff.1 (List.sublist_nil.1 hroots)
      exact h.simplify_text hkind hstrips
  | _ =>
    rw [hkind] at hkind'
    refine hstays ?_ (fun _ _ => by rw [hkind']; exact Kind.noConfusion)
      (by rw [hkind']; exact ⟨Kind.noConfusion, Kind.noConfusion⟩)
    simp only [Edit.simplify, Edit.bind_ok (Edit.get_ok a'), hkind']
    rfl

/-! ### Cleaning up the children -/

/-- The arena after an element is linked in the place of a child, which may be the same. -/
def Arena.placing (a : Arena) (p : ElementId) (i : Nat) (e g : ElementId) : Arena :=
  (if g ≠ e then a.putChild p i g else a).link g p i

theorem cleanEach_cons {clean : ElementId → Edit ElementId} {i : Nat} {e g : ElementId}
    (hchild : a.child p i = .ok e) (hclean : clean e a = .ok g b) (rest : List Nat) :
    Edit.cleanEach clean p (i :: rest) a = Edit.cleanEach clean p rest (b.placing p i e g) := by
  simp only [Edit.cleanEach, Edit.bind_ok (Edit.observe_ok (·.child p i) hchild),
    Edit.bind_ok hclean, Arena.placing]
  split <;> rfl

theorem exists_placed {pre post : List ElementId} {e g : ElementId} (hsound : a.Sound used) (hp : used p)
    (hchildren : a.children p = pre ++ e :: post) (hplace : g = e ∨ g ≠ e ∧ a.children e = [g]) (hpe : p ≠ e)
    (hpg : p ≠ g) : ∃ used', Placed a (a.placing p pre.length e g) used used' p pre e g post := by
  obtain ⟨he, hparent, hindex⟩ := hsound.child hp (Arena.children_getElem?_length hchildren)
  rcases hplace with rfl | ⟨hge, honly⟩
  · have hplacing : a.placing p pre.length g g = a.link g p pre.length := by
      rw [Arena.placing, if_neg fun hne => hne rfl]
    have hlinks : a.SameLinks (a.link g p pre.length) :=
      Arena.sameLinks_update a g _ ⟨rfl, hparent.symm, hindex.symm⟩
    have hput : Arena.PutIn a (a.link g p pre.length) p pre g post :=
      ⟨(hlinks.children p).trans hchildren, hlinks.place p, Arena.get_update_self a _ (hsound.inside he),
        fun _ hx => Arena.get_update_ne a _ hx⟩
    rw [hplacing]
    exact ⟨used, Arena.sameNodes_link a g p pre.length, hsound.sameLinks hlinks, hput, id, fun hx _ => hx⟩
  · have hplacing : a.placing p pre.length e g = a.replacing p pre g := by
      rw [Arena.placing, if_pos hge, Arena.replacing]
    have hg : used g := (hsound.child_mem he (honly ▸ List.mem_singleton_self g)).1
    have hput := Arena.putIn_replacing hchildren hpg (hsound.inside hp) (hsound.inside hg)
    have hnodes := Arena.sameNodes_replacing a p pre g
    rw [hplacing]
    exact ⟨fun x => used x ∧ x ≠ e, hnodes, hsound.putIn hp hchildren honly hpe (Ne.symm hge) hnodes.1 hput,
      hput, And.left, fun hx hxe => ⟨hx, fun h => hge (hxe h)⟩⟩

theorem Cleaned.outside (h : Cleaned strip a a' used used' p ss p' ss') {x : ElementId}
    (hx : x ∉ ids [⟨p, ss⟩]) :
    a'.get x = a.get x := by
  rw [ids_singleton] at hx
  obtain ⟨hxp, hxparts⟩ := List.ne_and_not_mem_of_not_mem_cons hx
  exact h.touches.outside hxp hxparts

theorem Cleaned.root_mem (h : Cleaned strip a a' used used' p ss p' ss') : p' ∈ ids [⟨p, ss⟩] :=
  h.fewer.subset (root_mem_ids (s := ⟨p', ss'⟩) (List.mem_singleton_self _))

theorem Cleaned.fewer_among (h : Cleaned strip a a' used used' p ss p' ss') (pre post : List Shape) :
    (ids (pre ++ ⟨p', ss'⟩ :: post)).Sublist (ids (pre ++ ⟨p, ss⟩ :: post)) := by
  rw [ids_append, ids_append, ids_cons, ids_cons ⟨p, ss⟩]
  exact (List.Sublist.refl _).append (h.fewer.append (.refl _))

/-- The siblings of a child are as they were when it has been cleaned up. -/
theorem Cleaned.spans_among {pre post parts us : List Shape} {e g : ElementId}
    (hc : Cleaned strip a b used used' e parts g us) (h : Tidy a used p (pre ++ ⟨e, parts⟩ :: post)) :
    Spans b (pre ++ ⟨g, us⟩ :: post) := by
  obtain ⟨-, hpre, hpost⟩ := h.apart
  obtain ⟨hbefore, hrest⟩ := spans_append.1 h.parts
  obtain ⟨-, hafter⟩ := spans_cons.1 hrest
  refine spans_append.2 ⟨hbefore.of_children fun x hx => ?_,
    spans_cons.2 ⟨hc.tidy.spans, hafter.of_children fun x hx => ?_⟩⟩
  · exact congrArg Element.children (hc.outside (hpre x hx))
  · exact congrArg Element.children (hc.outside (hpost x hx))

/-- A child that has been cleaned up is linked in its place. -/
theorem Cleaned.exists_linked {pre post parts us : List Shape} {e g : ElementId}
    (hc : Cleaned strip a b used used' e parts g us) (h : Tidy a used p (pre ++ ⟨e, parts⟩ :: post)) :
    ∃ used₁, Leads strip b (b.placing p pre.length e g) used' used₁ ∧
      b.SameNodes (b.placing p pre.length e g) ∧
      Tidy (b.placing p pre.length e g) used₁ p (pre ++ ⟨g, us⟩ :: post) ∧
      Touches strip a (b.placing p pre.length e g) used used₁ p (ids [⟨e, parts⟩]) ∧
      ∀ x, x ≠ p → b.Undisturbed (b.placing p pre.length e g) x := by
  obtain ⟨hp, -, -⟩ := h.apart
  have hpe : p ≠ e := by
    rintro rfl
    exact hp (root_mem_ids (s := ⟨p, parts⟩) (List.mem_singleton_self _))
  have hpg : p ≠ g := by
    rintro rfl
    exact hp hc.root_mem
  have hchildren : b.children p = pre.map root ++ e :: post.map root := by
    rw [Arena.children, hc.outside hp, ← Arena.children, h.children, List.map_append, List.map_cons]
    rfl
  have hpused : used' p := hc.touches.still h.root fun hin => hp (by
    rw [ids_singleton]
    exact List.mem_cons_of_mem e hin)
  obtain ⟨used₁, placed⟩ := exists_placed hc.tidy.sound hpused hchildren hc.place hpe hpg
  rw [List.length_map] at placed
  generalize b.placing p pre.length e g = c at placed
  have hfewer := hc.fewer_among pre post
  have hspans : Spans c (pre ++ ⟨g, us⟩ :: post) := by
    refine (hc.spans_among h).of_children fun x hx => placed.put.children_of_ne ?_
    rintro rfl
    exact h.notMem (hfewer.subset hx)
  have htidy : Tidy c used₁ p (pre ++ ⟨g, us⟩ :: post) := by
    refine ⟨placed.sound, placed.still hpused fun hpe' => absurd hpe' hpe, spans_singleton.2 ⟨?_, hspans⟩, ?_⟩
    · rw [placed.put.children, List.map_append, List.map_cons]
      rfl
    · have hnodup := h.nodup
      rw [ids_singleton] at hnodup ⊢
      exact (hfewer.cons_cons p).nodup hnodup
  have hleads : Leads strip b c used' used₁ :=
    .placed (.refl used') hc.tidy.sound hpused hchildren placed hc.stands hc.place
  refine ⟨used₁, hleads, placed.nodes, htidy,
    ⟨hc.touches.leads.trans hleads, fun hx hnot => ?_, fun {x} hxp hnot => ?_, ?_⟩,
    fun x hxp => placed.put.undisturbed hxp⟩
  · rw [ids_singleton] at hnot
    obtain ⟨hxe, hxparts⟩ := List.ne_and_not_mem_of_not_mem_cons hnot
    exact placed.still (hc.touches.still hx hxparts) fun h => absurd h hxe
  · have hxg : x ≠ g := by
      rintro rfl
      exact hnot hc.root_mem
    rw [placed.put.other hxp hxg, hc.outside hnot]
  · rw [placed.put.self.1, placed.put.self.2, hc.outside hp]
    exact ⟨rfl, rfl⟩

/-- One more child has been cleaned up and linked. -/
theorem Underway.advance {branches : Bool} {used'' : ElementId → Prop} {done done' todo parts us : List Shape}
    {e g : ElementId} (h : Underway strip a a' used used' branches p done done' (⟨e, parts⟩ :: todo))
    (hc : Cleaned strip a' b used' used'' e parts g us) (hnew : ∀ x ∈ ids [⟨e, parts⟩], x ∉ ids done)
    (hmode : branches = true → ∃ branch condition, (a.get e).kind = .conditional branch condition) :
    ∃ used₁, Leads strip b (b.placing p done'.length e g) used'' used₁ ∧
      Underway strip a (b.placing p done'.length e g) used used₁ branches p (done ++ [⟨e, parts⟩])
        (done' ++ [⟨g, us⟩]) todo := by
  obtain ⟨hp, hbefore, -⟩ := h.tidy.apart
  obtain ⟨used₁, hleads, hnodes, htidy, htouches, hundisturbed⟩ := hc.exists_linked h.tidy
  have hids : ids (done ++ [⟨e, parts⟩]) = ids done ++ ids [⟨e, parts⟩] := ids_append _ _
  have huntouched : ∀ x ∈ ids [⟨e, parts⟩], a'.get x = a.get x := by
    intro x hx
    refine h.touches.outside ?_ (hnew x hx)
    rintro rfl
    exact hp hx
  have hkinds : ∀ x ∈ ids [⟨e, parts⟩], (a'.get x).kind = (a.get x).kind ∧
      (a'.get x).location = (a.get x).location :=
    fun x hx => huntouched x hx ▸ ⟨rfl, rfl⟩
  have hkept : ∀ x ∈ ids done', (b.get x).kind = (a'.get x).kind ∧ (b.get x).location = (a'.get x).location :=
    fun x hx => hc.outside (hbefore x hx) ▸ ⟨rfl, rfl⟩
  have hweeds : Weeds strip b (done ++ [⟨e, parts⟩]) (done' ++ [⟨g, us⟩]) :=
    (h.weeds.congr h.fewer.subset fun x hx =>
      congrArg Element.kind (hc.outside fun hin => hnew x hin hx)).append hc.weeds
  have hfewer : (ids (done' ++ [⟨g, us⟩])).Sublist (ids (done ++ [⟨e, parts⟩])) := by
    rw [hids, ids_append]
    exact h.fewer.append hc.fewer
  have hrests : Rests strip a (b.placing p done'.length e g) (done ++ [⟨e, parts⟩]) (done' ++ [⟨g, us⟩]) := by
    obtain ⟨hspans, hrest⟩ := spans_append.1 h.tidy.parts
    have hbelow : Spans a [⟨e, parts⟩] :=
      (spans_cons.1 hrest).1.of_children fun x hx => (congrArg Element.children (huntouched x hx)).symm
    have hlinked : Spans b (done' ++ [⟨g, us⟩]) := by
      obtain ⟨hbefore, hafter⟩ := spans_append.1 (hc.spans_among h.tidy)
      exact spans_append.2 ⟨hbefore, (spans_cons.1 hafter).1⟩
    refine ((h.rests.later hspans fun x hx => .of_get (hc.outside (hbefore x hx))).append
      (hc.rests.earlier hbelow huntouched)).later
      hlinked fun x hx => hundisturbed x ?_
    rintro rfl
    refine h.tidy.notMem ((hc.fewer_among done' todo).subset ?_)
    rw [ids_append, ids_cons ⟨g, us⟩ todo, ← List.append_assoc]
    exact List.mem_append_left _ (by rwa [← ids_append])
  refine ⟨used₁, hleads,
    by simpa using htidy, ?_, hfewer, ?_, ?_, (h.settles.append hc.settles hkinds hkept).sameNodes hnodes,
    hweeds.congr hfewer.subset fun x _ => (hnodes.2 x).1, hrests⟩
  · rw [hids]
    exact (h.touches.mono (List.subset_append_left _ _)).trans htouches fun y hy => List.mem_append_right _ hy
  · rw [(hnodes.2 p).1, (hnodes.2 p).2, hc.outside hp]
    exact h.own
  · have hmode' : branches = true → ∃ branch condition, (a'.get e).kind = .conditional branch condition := by
      rwa [huntouched e (root_mem_ids (s := ⟨e, parts⟩) (List.mem_singleton_self _))]
    exact (h.run.append (hc.run branches hmode') hkinds hkept (fun x hx hin => hnew x hin hx)
      h.fewer.subset hc.fewer.subset).sameNodes hnodes

/-- A way to clean up elements with at most `n` elements from them on. -/
def CleansUp (strip : Bool) (clean : ElementId → Edit ElementId) (n : Nat) : Prop :=
  ∀ {a : Arena} {used : ElementId → Prop} {p : ElementId} {ss : List Shape}, Tidy a used p ss →
    Formed a [⟨p, ss⟩] →
    (ids [⟨p, ss⟩]).length ≤ n →
      ∃ a' used' p' ss', clean p a = .ok p' a' ∧ Cleaned strip a a' used used' p ss p' ss'

/-- Some more children are cleaned up, one by one. -/
theorem Underway.cleanEach {clean : ElementId → Edit ElementId} {n : Nat}
    (hclean : CleansUp strip clean n) {branches : Bool}
    {done done' todo later : List Shape}
    (h : Underway strip a a' used used' branches p done done' (todo ++ later))
    (hnodup : (ids (done ++ todo)).Nodup) (hformed : Formed a todo) (hsize : (ids todo).length ≤ n)
    (hmode : branches = true → ∀ s ∈ todo, ∃ branch condition, (a.get s.root).kind =
      .conditional branch condition) :
    ∃ b used'' ss', Edit.cleanEach clean p (List.range' done'.length todo.length) a' = .ok () b ∧
      ss'.length = done'.length + todo.length ∧ Leads strip a' b used' used'' ∧
      Underway strip a b used used'' branches p (done ++ todo) ss' later := by
  induction todo generalizing a' used' done done' with
  | nil =>
    rw [List.append_nil]
    exact ⟨a', used', done', rfl, rfl, .refl used', h⟩
  | cons s todo ih =>
    obtain ⟨e, parts⟩ := s
    have htidy := h.tidy
    have hone : Formed a [⟨e, parts⟩] := (formed_cons.1 hformed).1
    rw [ids_cons, List.length_append] at hsize
    obtain ⟨b, used'', g, us, hedit, hcleaned⟩ :=
      hclean htidy.part (hone.evolves h.touches.evolves) (by omega)
    have hnew : ∀ x ∈ ids [⟨e, parts⟩], x ∉ ids done := by
      rw [ids_append, ids_cons] at hnodup
      exact fun x hx hin => (List.nodup_append.1 hnodup).2.2 x hin x (List.mem_append_left _ hx) rfl
    obtain ⟨used₁, hlinked, hnext⟩ := h.advance hcleaned hnew fun hb => hmode hb _ List.mem_cons_self
    obtain ⟨c, used₂, ss', hrest, hlength, hleads, hdone⟩ := ih hnext (by simpa using hnodup)
      (formed_cons.1 hformed).2 (by omega) fun hb s hs => hmode hb s (List.mem_cons_of_mem _ hs)
    rw [List.length_append, List.length_singleton] at hrest hlength
    refine ⟨c, used₂, ss', ?_,
      by rw [hlength, List.length_cons]; omega, hcleaned.touches.leads.trans (hlinked.trans hleads),
      by simpa using hdone⟩
    rw [List.length_cons, List.range'_succ, cleanEach_cons htidy.child hedit]
    exact hrest

/-! ### The whole pass -/

theorem touches_setBuffer (strip : Bool) (a : Arena) (used : ElementId → Prop) (xs : List ElementId)
    {buffer : Option ChildBuffer} (hitems : (buffer.map (·.items)).getD [] = a.children p) :
    Touches strip a (a.setBuffer p buffer) used used p xs := by
  have hlinks : a.SameLinks (a.setBuffer p buffer) := Arena.sameLinks_update a p _ ⟨hitems, rfl, rfl⟩
  exact ⟨.stored (.refl used) (Arena.sameNodes_setBuffer a p buffer) hlinks, fun hx _ => hx,
    fun hx _ => Arena.get_update_ne a _ hx, hlinks.place p⟩

/-- Storage of another size makes no difference. -/
theorem Underway.setBuffer {branches : Bool} (h : Underway strip a a' used used' branches p ss ss' [])
    {buffer : Option ChildBuffer} (hitems : (buffer.map (·.items)).getD [] = a'.children p) :
    Underway strip a (a'.setBuffer p buffer) used used' branches p ss ss' [] := by
  have hlinks : a'.SameLinks (a'.setBuffer p buffer) := Arena.sameLinks_update a' p _ ⟨hitems, rfl, rfl⟩
  have hnodes := Arena.sameNodes_setBuffer a' p buffer
  refine ⟨h.tidy.sameLinks hlinks,
    h.touches.trans (touches_setBuffer strip a' used' (ids ss) hitems) fun y hy => hy, h.fewer,
    ⟨(hnodes.2 p).1.trans h.own.1, (hnodes.2 p).2.trans h.own.2⟩, h.run.sameNodes hnodes,
    h.settles.sameNodes hnodes,
    h.weeds.congr h.fewer.subset fun x _ => (hnodes.2 x).1,
    h.rests.later h.tidy_done.parts fun x hx => .of_get ?_⟩
  refine Arena.get_update_ne a' _ ?_
  rintro rfl
  exact h.tidy_done.notMem hx

theorem items_shrink (buffer : Option ChildBuffer) :
    ((buffer.map ChildBuffer.shrink).map (·.items)).getD [] = (buffer.map (·.items)).getD [] := by
  cases buffer with
  | none => rfl
  | some b =>
    simp only [Option.map_some, Option.getD_some, ChildBuffer.shrink]
    split <;> rfl

/-- The children of an if block are branches. -/
theorem Shape.Formed.branches (h : Formed a [⟨p, ss⟩]) (hblock : (a.get p).kind.isIfBlock = true) :
    ∀ s ∈ ss, ∃ branch condition, (a.get s.root).kind = .conditional branch condition := by
  rw [Formed] at h
  refine h.2.1 ?_
  cases hkind : (a.get p).kind with
  | ifBlock => rfl
  | _ => rw [hkind] at hblock; cases hblock

theorem Shape.Formed.parts (h : Formed a [⟨p, ss⟩]) : Formed a ss := by
  rw [Formed] at h
  exact h.2.2.1

/-- The children of an element are cleaned up as far as some of them. -/
theorem CleansUp.exists_upTo {clean : ElementId → Edit ElementId} {n : Nat} {pre post : List Shape}
    (hclean : CleansUp strip clean n) (h : Tidy a used p ss) (hformed : Formed a [⟨p, ss⟩])
    (hparts : ss = pre ++ post) (hsize : (ids pre).length ≤ n) :
    ∃ b mid done, Edit.cleanEach clean p (List.range pre.length) a = .ok () b ∧ done.length = pre.length ∧
      Leads strip a b used mid ∧
      Underway strip a b used mid (a.get p).kind.isIfBlock p pre done post := by
  subst hparts
  have hnodup := h.nodup_parts
  rw [ids_append] at hnodup
  obtain ⟨b, mid, done, heach, hlength, hleads, hunder⟩ :=
    (Underway.start strip h (a.get p).kind.isIfBlock).cleanEach hclean
    (List.nodup_append.1 hnodup).1 (formed_append.1 hformed.parts).1 hsize
    fun hblock s hs => hformed.branches hblock s (List.mem_append_left _ hs)
  rw [List.length_nil, ← List.range_eq_range'] at heach
  rw [List.length_nil, Nat.zero_add] at hlength
  exact ⟨b, mid, done, heach, hlength, hleads, hunder⟩

theorem shrink_shrink (b : ChildBuffer) : b.shrink.shrink = b.shrink := by
  by_cases h : b.items.length < b.capacity ∧ b.items.length ≤ b.capacity * 3 / 4
  · simp [ChildBuffer.shrink, h]
  · simp only [ChildBuffer.shrink, if_neg h]

/-- An element whose children have been cleaned up and dropped as far as they can go needs no more
than to give up storage. -/
theorem Underway.exists_cleared {branches : Bool} {done : List Shape}
    (h : Underway strip a a' used used' branches p ss done []) (htidy : Tidy a used p ss)
    (hlength : done.length = ss.length) (hsparse : Sparse a [⟨p, ss⟩]) :
    ∃ b, Edit.dropIgnorable strip p done.length 0 a' = .ok () b ∧
      (b.setBuffer p ((b.get p).buffer.map ChildBuffer.shrink)).Cleared strip p := by
  have hloose : a'.Loose (a'.children p) := by
    refine hsparse.parts.1.of_steps h.touches.steps ?_
    rw [htidy.children, h.tidy_done.children, List.length_map, List.length_map, hlength]
  obtain ⟨b, hdrop, hfirm⟩ := h.tidy_done.exists_firm hloose
  have hnodes := Arena.sameNodes_setBuffer b p ((b.get p).buffer.map ChildBuffer.shrink)
  have hlinks : b.SameLinks (b.setBuffer p ((b.get p).buffer.map ChildBuffer.shrink)) :=
    Arena.sameLinks_update b p _ ⟨items_shrink (b.get p).buffer, rfl, rfl⟩
  refine ⟨b, hdrop, fun {pre post x} hx => ?_, .inl ?_⟩
  · rw [hlinks.children] at hx
    exact (hfirm hx).congr (fun y _ => (hnodes.2 y).1) (by rw [(hlinks.place p).1]; exact id)
  · -- Outside the arena there is no storage at all.
    by_cases hin : p < b.size
    · rw [Arena.setBuffer, Arena.get_update_self b _ hin]
      cases (b.get p).buffer with
      | none => rfl
      | some buffer => simp only [Option.map_some, shrink_shrink]
    · rw [Arena.setBuffer, b.get_update_of_size_le _ (Nat.le_of_not_lt hin),
        b.get_eq_default (Nat.le_of_not_lt hin)]
      rfl

/-- When all children of an element have been cleaned up, those that can go are dropped and the
element is simplified. -/
theorem Underway.exists_end {depth : Nat} {done : List Shape}
    (h : Underway strip a a' used used' (a.get p).kind.isIfBlock p ss done []) (htidy : Tidy a used p ss)
    (hformed : Formed a [⟨p, ss⟩]) (hsome : 0 < ss.length) (hlength : done.length = ss.length)
    (heach : Edit.cleanEach (Edit.cleanWithin strip depth) p (List.range ss.length) a = .ok () a') :
    ∃ b c p' us, Edit.dropIgnorable strip p done.length 0 a' = .ok () b ∧
      Edit.cleanWithin strip (depth + 1) p a = .ok p' c ∧
      Leads strip a' b used' used' ∧ Leads strip b c used' used' ∧
      Cleaned strip a c used used' p ss p' us := by
  have hparts := hformed.parts
  obtain ⟨b, ss', hdrop, hdropped, hunder, hshown⟩ :=
    h.dropIgnorable hparts (hparts.bare htidy.parts) hformed.branches
  have hitems := items_shrink (b.get p).buffer
  have hshown' : Shown (b.setBuffer p ((b.get p).buffer.map ChildBuffer.shrink)) ss' := fun s hs => by
    rw [((Arena.sameNodes_setBuffer b p _).2 s.root).1]
    exact hshown s hs
  have hcleared : Sparse a [⟨p, ss⟩] →
      (b.setBuffer p ((b.get p).buffer.map ChildBuffer.shrink)).Cleared strip p := fun hsparse => by
    obtain ⟨b', hdrop', hcleared⟩ := h.exists_cleared htidy hlength hsparse
    obtain rfl : b' = b := (EStateM.Result.ok.inj (hdrop'.symm.trans hdrop)).2
    exact hcleared
  obtain ⟨c, p', us, hsimplify, hleads, hcleaned⟩ :=
    (hunder.setBuffer hitems).simplify hformed htidy.notMem hshown' hcleared
  refine ⟨b, c, p', us, hdrop, ?_, hdropped,
    (touches_setBuffer strip b used' (ids ss) hitems).leads.trans hleads, hcleaned⟩
  rw [hlength] at hdrop
  simp only [Edit.cleanWithin, Edit.bind_ok (Edit.get_ok a), htidy.childCount, if_pos hsome,
    Edit.bind_ok heach, Edit.bind_ok hdrop]
  exact hsimplify

theorem cleansUp_cleanWithin (strip : Bool) (depth : Nat) :
    CleansUp strip (Edit.cleanWithin strip depth) (depth + 1) := by
  induction depth with
  | zero =>
    intro a used p ss h hformed hsize
    obtain rfl : ss = [] := by
      cases ss with
      | nil => rfl
      | cons s ss =>
        obtain ⟨e, parts⟩ := s
        rw [ids_singleton, ids] at hsize
        simp at hsize
    obtain ⟨b, p', us, hsimplify, -, hcleaned⟩ :=
      (Underway.start strip h _).simplify hformed (by simp) (List.forall_mem_nil _)
      fun _ => .of_childless h.children
    exact ⟨b, used, p', us, hsimplify, hcleaned⟩
  | succ depth ih =>
    intro a used p ss h hformed hsize
    rw [ids_singleton, List.length_cons] at hsize
    by_cases hsome : 0 < ss.length
    · obtain ⟨b, used', done, heach, hlength, -, hunder⟩ :=
        ih.exists_upTo h hformed (List.append_nil ss).symm (by omega)
      obtain ⟨-, c, p', us, -, hedit, -, -, hcleaned⟩ := hunder.exists_end h hformed hsome hlength heach
      exact ⟨c, used', p', us, hedit, hcleaned⟩
    · obtain rfl : ss = [] := List.length_eq_zero_iff.1 (by omega)
      obtain ⟨b, p', us, hsimplify, -, hcleaned⟩ :=
        (Underway.start strip h _).simplify hformed (by simp) (List.forall_mem_nil _)
        fun _ => .of_childless h.children
      refine ⟨b, used, p', us, ?_, hcleaned⟩
      simp only [Edit.cleanWithin, Edit.bind_ok (Edit.get_ok a), h.childCount, if_neg hsome]
      exact hsimplify

end

end Stencil
