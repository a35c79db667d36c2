import Stencil.Proofs.Cleanup.Thinning
import Mathlib.Data.List.Chain

/-! # Elements at rest

What another pass would leave as it is. A blank text that stays has something beside it that
writes and cannot go, or it stands at an end of a body; so whatever else is dropped later, nothing
makes it one that can go. -/

namespace Stencil

open Execution Shape

/-- What stands right before and right after a place among the children of an element writes nothing; at the
beginning and at the end this is so at the top of a template. -/
structure Arena.QuietAt (a : Arena) (p : ElementId) (pre post : List ElementId) : Prop where
  before : ∀ x ∈ pre.getLast?, (a.get x).kind.isSilent = true
  after : ∀ x ∈ post.head?, (a.get x).kind.isSilent = true
  top : pre = [] ∨ post = [] → (a.get p).parent = none

/-- A text that can go is blank, and empty unless blanks are stripped. -/
theorem allBlank_of_isIgnorable {strip : Bool} {a : Arena} {x : ElementId} {text : String} {trimmed : Bool}
    (hkind : (a.get x).kind = .text text trimmed) (h : a.isIgnorable x strip = .ok true) :
    Text.AllBlank text.toList ∧ (strip = false → text = "") := by
  rw [Arena.isIgnorable, hkind] at h
  by_cases hempty : text = ""
  · subst hempty
    exact ⟨Text.allBlank_nil, fun _ => rfl⟩
  · simp only [Arena.isDroppedText, List.isEmpty_iff, String.toList_eq_nil_iff, hempty, if_false] at h
    split at h
    · cases h
    · next hgoes =>
      simp only [Bool.or_eq_true, Bool.not_eq_true', decide_eq_false_iff_not, not_or,
        Bool.not_eq_false, not_not] at hgoes
      exact ⟨hgoes.2, fun hstrip => by rw [hstrip] at hgoes; cases hgoes.1⟩

namespace Arena

/-- No two texts stand side by side. -/
abbrev Apart (a : Arena) (xs : List ElementId) : Prop :=
  xs.IsChain fun x y => (a.get x).kind.isText = true → (a.get y).kind.isText = false

/-- Children as they are read: no two texts side by side, and no sequence among them. -/
structure Loose (a : Arena) (xs : List ElementId) : Prop where
  apart : a.Apart xs
  flat : ∀ x ∈ xs, (a.get x).kind ≠ .sequence

/-- A place beside something that writes and stays, or at an end below the top. -/
inductive Held (a : Arena) (p : ElementId) (pre post : List ElementId) : Prop
  | before {y : ElementId} (last : y ∈ pre.getLast?) (writes : (a.get y).kind.isSilent = false)
  | after {y : ElementId} (first : y ∈ post.head?) (writes : (a.get y).kind.isSilent = false)
    (stays : ¬ (Kind.IsLeaf (a.get y).kind ∨ (a.get y).kind = .sequence))
  | edge (ends : pre = [] ∨ post = []) (below : (a.get p).parent ≠ none)

/-- A child that is not dropped from among the others, even when some of those after it are. -/
structure Firm (strip : Bool) (a : Arena) (p : ElementId) (pre : List ElementId) (x : ElementId)
    (post : List ElementId) : Prop
    extends Kind.Lasting (a.get x).kind where
  notSequence : (a.get x).kind ≠ .sequence
  held {text : String} {trimmed : Bool} : strip = true → (a.get x).kind = .text text trimmed →
    Text.AllBlank text.toList →
    a.Held p pre post

/-- An element with no child that can go, and no more storage than it needs. -/
structure Cleared (strip : Bool) (a : Arena) (p : ElementId) : Prop where
  firm {pre post : List ElementId} {x : ElementId} : a.children p = pre ++ x :: post →
    a.Firm strip p pre x post
  fits : (a.get p).buffer.map ChildBuffer.shrink = (a.get p).buffer ∨ a.children p = []

/-- An element that another pass leaves as it is. -/
structure AtRest (strip : Bool) (a : Arena) (p : ElementId) : Prop extends Cleared strip a p where
  several : (a.get p).kind = .sequence ∨ (a.get p).kind = .ifBlock → a.childCount p ≠ 1
  trimmed : strip = true → ∀ text, (a.get p).kind ≠ .text text false

/-- What decides whether an element is at rest is kept: what it is, its storage, and
that it hangs somewhere. -/
structure Undisturbed (a b : Arena) (x : ElementId) : Prop where
  kind : (b.get x).kind = (a.get x).kind
  buffer : (b.get x).buffer = (a.get x).buffer
  hangs : (a.get x).parent ≠ none → (b.get x).parent ≠ none

section
variable {strip : Bool} {a b : Arena} {used : ElementId → Prop} {p x e g : ElementId}
  {pre post back : List ElementId}

/-! ### Children that stay -/

theorem isQuiet_iff {atTop : Bool} {sibling : Option ElementId} : a.isQuiet atTop sibling = true ↔
    (∀ y ∈ sibling, (a.get y).kind.isSilent = true) ∧ (sibling = none → atTop = true) := by
  cases sibling <;> simp [isQuiet]

/-- When blanks are stripped, just those texts can go that are empty, or blank between quiet neighbours. -/
theorem Sound.isIgnorable_text_iff (h : a.Sound used) (hp : used p)
    (hchildren : a.children p = pre ++ x :: post) {text : String} {trimmed : Bool}
    (hkind : (a.get x).kind = .text text trimmed) :
    a.isIgnorable x true = .ok true ↔ text = "" ∨ Text.AllBlank text.toList ∧ a.QuietAt p pre post := by
  have hparent := (h.child hp (children_getElem?_length hchildren)).2.1
  have htop : a.isAtTop x = (a.get p).parent.isNone := by rw [isAtTop, hparent]
  have hsame : a.isIgnorable x true = a.isDroppedText x text.toList true := by rw [Arena.isIgnorable, hkind]
  rw [hsame]
  by_cases hempty : text = ""
  · subst hempty
    exact ⟨fun _ => .inl rfl, fun _ => rfl⟩
  by_cases hblank : Text.AllBlank text.toList
  · have hdropped : a.isDroppedText x text.toList true =
        .ok (a.isQuiet (a.get p).parent.isNone pre.getLast? && a.isQuiet
          (a.get p).parent.isNone post.head?) := by
      simp [Arena.isDroppedText, hempty, hblank, h.previousSibling_eq hp hchildren,
        h.nextSibling_eq hp hchildren, htop, bind, Except.bind, pure, Except.pure]
    rw [hdropped, Except.ok.injEq, Bool.and_eq_true, isQuiet_iff, isQuiet_iff, List.getLast?_eq_none_iff,
      List.head?_eq_none_iff, Option.isNone_iff_eq_none]
    constructor
    · rintro ⟨⟨hbefore, hfirst⟩, hafter, hlast⟩
      exact .inr ⟨hblank, hbefore, hafter, fun hend => hend.elim hfirst hlast⟩
    · intro hgoes
      obtain ⟨-, hquiet⟩ := hgoes.resolve_left hempty
      exact ⟨⟨hquiet.before, fun hend => hquiet.top (.inl hend)⟩, hquiet.after, fun hend =>
        hquiet.top (.inr hend)⟩
  · have hstays : a.isDroppedText x text.toList true = .ok false := by
      simp [Arena.isDroppedText, hempty, hblank, pure, Except.pure]
    rw [hstays]
    simp [hempty, hblank]

theorem Held.not_quietAt (h : a.Held p pre post) : ¬ a.QuietAt p pre post := by
  rintro ⟨hbefore, hafter, htop⟩
  cases h with
  | before last writes => rw [hbefore _ last] at writes; cases writes
  | after first writes _ => rw [hafter _ first] at writes; cases writes
  | edge ends below => exact below (htop ends)

/-- What can go of the elements after a place does not hold it. -/
theorem Held.goes (h : a.Held p pre (back ++ e :: post))
    (he : Kind.IsLeaf (a.get e).kind ∨ (a.get e).kind = .sequence) :
    a.Held p pre (back ++ post) := by
  cases h with
  | before last writes => exact .before last writes
  | after first writes stays =>
    cases back with
    | nil =>
      obtain rfl := Option.some.inj first
      exact absurd he stays
    | cons y back => exact .after first writes stays
  | edge ends below =>
    refine .edge (.inl (ends.resolve_right ?_)) below
    simp

theorem Held.congr (h : a.Held p pre post) (hsame : ∀ y ∈ pre ++ post, (b.get y).kind = (a.get y).kind)
    (hangs : (a.get p).parent ≠ none → (b.get p).parent ≠ none) : b.Held p pre post := by
  cases h with
  | before last writes =>
    exact .before last (by rwa [hsame _ (List.mem_append_left _ (List.mem_of_mem_getLast? last))])
  | after first writes stays =>
    have hkind := hsame _ (List.mem_append_right _ (List.mem_of_mem_head? first))
    exact .after first (by rwa [hkind]) (by rwa [hkind])
  | edge ends below => exact .edge ends (hangs below)

theorem Firm.congr (h : a.Firm strip p pre x post)
    (hsame : ∀ y ∈ pre ++ x :: post, (b.get y).kind = (a.get y).kind)
    (hangs : (a.get p).parent ≠ none → (b.get p).parent ≠ none) : b.Firm strip p pre x post := by
  have hkind := hsame x (by simp)
  refine ⟨by rw [hkind]; exact h.toLasting, by rw [hkind]; exact h.notSequence, fun hstrip htext hblank => ?_⟩
  refine (h.held hstrip (hkind ▸ htext) hblank).congr (fun y hy => hsame y ?_) hangs
  exact (List.mem_append.1 hy).elim (List.mem_append_left _) fun hy =>
    List.mem_append_right _ (List.mem_cons_of_mem x hy)

theorem Firm.goes (h : a.Firm strip p pre x (back ++ e :: post))
    (he : Kind.IsLeaf (a.get e).kind ∨ (a.get e).kind = .sequence) :
    a.Firm strip p pre x (back ++ post) :=
  ⟨h.toLasting, h.notSequence, fun hstrip htext hblank => (h.held hstrip htext hblank).goes he⟩

/-- Comments and empty texts always go. -/
theorem lasting_of_not_isIgnorable (h : a.isIgnorable x strip = .ok false) : (a.get x).kind.Lasting := by
  constructor
  · intro comment hkind
    rw [Arena.isIgnorable, hkind] at h
    cases h
  · intro trimmed hkind
    rw [Arena.isIgnorable, hkind] at h
    cases h

/-- A child that stays when its turn comes is firm, since what comes after it is as it was read. -/
theorem Sound.firm (h : a.Sound used) (hp : used p) (hchildren : a.children p = pre ++ x :: post)
    (hloose : a.Loose (x :: post)) (hstays : a.isIgnorable x strip = .ok false) :
    a.Firm strip p pre x post := by
  refine ⟨lasting_of_not_isIgnorable hstays, hloose.flat x List.mem_cons_self,
    fun {text trimmed} hstrip hkind hblank => ?_⟩
  subst hstrip
  have hnot : ¬ a.QuietAt p pre post := fun hquiet => by
    rw [(h.isIgnorable_text_iff hp hchildren hkind).2 (.inr ⟨hblank, hquiet⟩)] at hstays
    cases hstays
  by_contra hfree
  refine hnot ⟨fun y hy => ?_, fun y hy => ?_, fun hend => ?_⟩
  · by_contra hwrites
    exact hfree (.before hy (Bool.not_eq_true _ ▸ hwrites))
  · by_contra hwrites
    refine hfree (.after hy (Bool.not_eq_true _ ▸ hwrites) (not_or.2 ⟨fun hleaf => ?_, ?_⟩))
    · have hnext := (List.isChain_cons.1 hloose.apart).1 y hy (by rw [hkind]; rfl)
      generalize (a.get y).kind = kind at hleaf hnext hwrites
      cases hleaf with
      | comment text => exact hwrites rfl
      | text text trimmed => cases hnext
    · exact hloose.flat y (List.mem_cons_of_mem x (List.mem_of_mem_head? hy))
  · by_contra hbelow
    exact hfree (.edge hend hbelow)

theorem Firm.not_isIgnorable (h : a.Firm strip p pre x post) (hsound : a.Sound used) (hp : used p)
    (hchildren : a.children p = pre ++ x :: post) : a.isIgnorable x strip = .ok false := by
  obtain ⟨ignorable, hignorable⟩ := hsound.isIgnorable
    (hsound.child_mem hp (hchildren ▸ List.mem_append_right pre List.mem_cons_self)).1 strip
  cases ignorable with
  | false => exact hignorable
  | true =>
    rcases goes_of_isIgnorable hignorable with hleaf | hsequence
    · exfalso
      generalize hkind : (a.get x).kind = kind at hleaf
      cases hleaf with
      | comment comment => exact h.notComment comment hkind
      | text text trimmed =>
        obtain ⟨hblank, hempty⟩ := allBlank_of_isIgnorable hkind hignorable
        cases strip with
        | false => exact h.shown trimmed (hempty rfl ▸ hkind)
        | true =>
          rcases (hsound.isIgnorable_text_iff hp hchildren hkind).1 hignorable with rfl | ⟨-, hquiet⟩
          · exact h.shown trimmed hkind
          · exact (h.held rfl hkind hblank).not_quietAt hquiet
    · exact absurd hsequence h.notSequence

theorem Loose.tail (h : a.Loose (x :: post)) : a.Loose post :=
  ⟨h.apart.tail, fun y hy => h.flat y (List.mem_cons_of_mem x hy)⟩

theorem Loose.sameNodes {xs : List ElementId} (h : a.Loose xs) (hsame : a.SameNodes b) : b.Loose xs := by
  refine ⟨h.apart.imp fun y z => ?_, fun y hy => (hsame.2 y).1 ▸ h.flat y hy⟩
  rw [(hsame.2 y).1, (hsame.2 z).1]
  exact id

/-! ### Elements at rest -/

theorem Undisturbed.of_get (h : b.get x = a.get x) : a.Undisturbed b x := by
  constructor <;> rw [h]
  exact id

theorem Cleared.of_childless (h : a.children p = []) : a.Cleared strip p := by
  refine ⟨fun {pre post x} hx => ?_, .inr h⟩
  rw [h] at hx
  simp at hx

theorem TakenOut.undisturbed (h : TakenOut a b p pre e post) (hxp : x ≠ p) (hxe : x ≠ e) :
    a.Undisturbed b x := by
  by_cases hx : x ∈ post
  · obtain ⟨j, hj⟩ := List.getElem?_of_mem hx
    have hget := h.after hj
    constructor <;> rw [hget]
    exact fun _ => Option.some_ne_none p
  · exact .of_get (h.other hxp hxe hx)

theorem PutIn.undisturbed (h : PutIn a b p pre g post) (hxp : x ≠ p) : a.Undisturbed b x := by
  by_cases hx : x = g
  · subst hx
    constructor <;> rw [h.put]
    exact fun _ => Option.some_ne_none p
  · exact .of_get (h.other hxp hx)

theorem AtRest.undisturbed (h : a.AtRest strip p) (hself : a.Undisturbed b p)
    (hsame : ∀ x ∈ a.children p, (b.get x).kind = (a.get x).kind) :
    b.AtRest strip p := by
  have hchildren : b.children p = a.children p := by rw [Arena.children, Element.children, hself.buffer]; rfl
  refine ⟨⟨fun {pre post x} hx => ?_, ?_⟩, ?_, ?_⟩
  · rw [hchildren] at hx
    exact (h.firm hx).congr (hx ▸ hsame) hself.hangs
  · rw [hself.buffer, hchildren]
    exact h.fits
  · rw [hself.kind, Arena.childCount, hchildren]
    exact h.several
  · rw [hself.kind]
    exact h.trimmed

theorem Thinned.apart {xs ys : List ElementId} (h : a.Thinned xs ys) (hlength : xs.length ≤ ys.length)
    (hloose : a.Loose xs) :
    a.Apart ys := by
  induction h with
  | nil => exact .nil
  | gone _ rest _ =>
    have hle := rest.length_le
    rw [List.length_cons] at hlength
    omega
  | @left x g xs ys stands rest ih =>
    obtain ⟨happart, hflat⟩ := hloose
    obtain ⟨hx, hxs⟩ := List.forall_mem_cons.1 hflat
    obtain ⟨hnext, hrest⟩ := List.isChain_cons.1 happart
    have hle : xs.length ≤ ys.length := Nat.le_of_succ_le_succ hlength
    refine List.isChain_cons.2 ⟨fun y hy htext => ?_, ih hle ⟨hrest, hxs⟩⟩
    obtain rfl := stands.eq_of_isText hx htext
    obtain ⟨z, hz, hstands⟩ := rest.exists_head hle hy
    rw [← Bool.not_eq_true]
    intro htext'
    obtain rfl := hstands.eq_of_isText (hxs z (List.mem_of_mem_head? (Option.mem_def.1 hz))) htext'
    rw [hnext _ hz htext] at htext'
    cases htext'

/-- Children none of which has been dropped stand as they were read, since each stands for the one it was. -/
theorem Loose.of_steps (h : a.Loose (a.children p)) (hsteps : Steps strip a b)
    (hlength : (a.children p).length ≤ (b.children p).length) :
    b.Loose (b.children p) := by
  have hthinned := hsteps.thinned p
  refine ⟨(hthinned.apart hlength h).imp fun y z => ?_, fun y hy hkind => ?_⟩
  · rw [(hsteps.became y).isText, (hsteps.became z).isText]
    exact id
  · exact hthinned.ne_sequence h.flat y hy (((hsteps.evolves.element y).kind_iff (by rintro ⟨⟩)).1 hkind)

end

end Arena

/-! ### What is left at rest -/

namespace Shape

/-- The children below some shapes are as they were read. -/
def Sparse (a : Arena) (ss : List Shape) : Prop := ∀ x ∈ ids ss, a.Loose (a.children x)

/-- What is left of some shapes is at rest, if the children below them were as they are read. -/
def Rests (strip : Bool) (a a' : Arena) (ss ss' : List Shape) : Prop :=
  Sparse a ss → ∀ x ∈ ids ss', a'.AtRest strip x

section
variable {strip : Bool} {a a' b : Arena} {ss ss' us us' pre post : List Shape} {p g : ElementId} {s : Shape}

theorem rests_nil : Rests strip a a' [] [] := fun _ x hx => by
  rw [ids_nil] at hx
  cases hx

theorem Sparse.parts (h : Sparse a [⟨p, ss⟩]) : a.Loose (a.children p) ∧ Sparse a ss := by
  rw [Sparse, ids_singleton] at h
  exact List.forall_mem_cons.1 h

theorem Spans.mem_ids_of_mem (h : Spans a ss) {x y : ElementId} (hx : x ∈ ids ss) (hy : y ∈ a.children x) :
    y ∈ ids ss := by
  induction ss using forest_induction with
  | nil => rw [ids_nil] at hx; cases hx
  | cons id parts ss ihParts ih =>
    rw [Spans] at h
    obtain ⟨hchildren, hparts, hss⟩ := h
    rw [mem_ids_cons]
    rcases mem_ids_cons.1 hx with rfl | hx | hx
    · rw [hchildren] at hy
      exact .inr (.inl ((roots_sublist_ids parts).subset hy))
    · exact .inr (.inl (ihParts hparts hx))
    · exact .inr (.inr (ih hss hx))

theorem Rests.later (h : Rests strip a a' ss ss') (hspans : Spans a' ss')
    (hsame : ∀ x ∈ ids ss', a'.Undisturbed b x) :
    Rests strip a b ss ss' := fun hsparse x hx =>
  (h hsparse x hx).undisturbed (hsame x hx) fun y hy => (hsame y (hspans.mem_ids_of_mem hx hy)).kind

theorem Rests.earlier (h : Rests strip a' b us us') (hspans : Spans a us)
    (hsame : ∀ x ∈ ids us, a'.get x = a.get x) :
    Rests strip a b us us' := by
  refine fun hsparse => h fun x hx => ?_
  have hchildren : a'.children x = a.children x := congrArg Element.children (hsame x hx)
  have hbelow : ∀ y ∈ a.children x, a'.get y = a.get y := fun y hy => hsame y (hspans.mem_ids_of_mem hx hy)
  rw [hchildren]
  obtain ⟨hapart, hflat⟩ := hsparse x hx
  refine ⟨hapart.imp_of_mem_imp fun y z hy hz => ?_, fun y hy => hbelow y hy ▸ hflat y hy⟩
  rw [hbelow y hy, hbelow z hz]
  exact id

theorem Rests.append (h : Rests strip a b ss ss') (h' : Rests strip a b us us') :
    Rests strip a b (ss ++ us) (ss' ++ us') := by
  intro hsparse
  rw [Sparse, ids_append] at hsparse
  obtain ⟨hss, hus⟩ := List.forall_mem_append.1 hsparse
  rw [ids_append]
  exact List.forall_mem_append.2 ⟨h hss, h' hus⟩

theorem Rests.fewer (h : Rests strip a a' ss ss') (hfewer : ids us ⊆ ids ss') : Rests strip a a' ss us :=
  fun hsparse x hx => h hsparse x (hfewer hx)

theorem Rests.stays (h : Rests strip a a' ss ss') (hself : Sparse a [⟨p, ss⟩] → a'.AtRest strip p) :
    Rests strip a a' [⟨p, ss⟩] [⟨p, ss'⟩] := by
  intro hsparse
  rw [ids_singleton]
  exact List.forall_mem_cons.2 ⟨hself hsparse, h hsparse.parts.2⟩

theorem Rests.givesWay (h : Rests strip a a' ss us) : Rests strip a a' [⟨p, ss⟩] us :=
  fun hsparse => h hsparse.parts.2

end

end Shape

end Stencil
