import Stencil.Proofs.Cleanup.Foretold
import Stencil.Proofs.Cleanup.Innermost

/-! # Passes that take nothing away

As long as no element is dropped and no blanks are taken off a text, all that a pass does is to put branches
in the places of the if blocks where they stand alone, with the spans of these. So the children of an
element stay as many as they were, and since neither if blocks nor branches are silent, just those texts can
go that could at first. -/

namespace Stencil

open Execution Shape

/-- What stands in the middle of a list has its like in any list that is alike. -/
theorem exists_of_forall₂_middle {α : Type} {R : α → ElementId → Prop} {us : List α}
    {pre post : List ElementId} {x : ElementId} (h : List.Forall₂ R us (pre ++ x :: post)) :
    ∃ pre' u post', us = pre' ++ u :: post' ∧ List.Forall₂ R pre' pre ∧ R u x ∧
    List.Forall₂ R post' post := by
  obtain ⟨u, post', hu, hpost, hrest⟩ :=
    List.forall₂_cons_right_iff.1 (List.forall₂_drop_append us pre (x :: post) h)
  exact ⟨us.take pre.length, u, post',
    by rw [← hrest, List.take_append_drop], List.forall₂_take_append us pre (x :: post) h, hu, hpost⟩

namespace Arena

/-- An element is the only child of an if block. -/
def Alone (a : Arena) (e g : ElementId) : Prop := (a.get e).kind = .ifBlock ∧ a.children e = [g]

/-- An element stands in its own place, or in that of the if block where it is alone. -/
def Replaces (a : Arena) (e g : ElementId) : Prop := g = e ∨ a.Alone e g

/-- An arena as it was read: what it holds hangs together as some shapes say, below a
sequence that is the only one. -/
structure AsRead (a : Arena) (r : ElementId) (ss : List Shape) : Prop where
  tidy : Tidy a (· < a.size) r ss
  all {x : ElementId} : x < a.size → x ∈ ids [⟨r, ss⟩]
  orphan : (a.get r).parent = none
  root : (a.get r).kind = .sequence
  flat {x : ElementId} : x < a.size → (a.get x).kind = .sequence → x = r
  branches {e x : ElementId} : (a.get e).kind = .ifBlock → x ∈ a.children e →
    ∃ branch condition, (a.get x).kind = .conditional branch condition
  texts {x : ElementId} {text : String} {trimmed : Bool} : (a.get x).kind = .text text trimmed →
    text ≠ "" ∧ trimmed = false
  nested : Nested a [⟨r, ss⟩]

/-- An arena that a pass came to without dropping an element or taking anything off a text. -/
structure Intact (a b : Arena) (used : ElementId → Prop) : Prop where
  sound : b.Sound used
  size : b.size = a.size
  stays {x : ElementId} : x < a.size → (a.get x).kind ≠ .ifBlock → used x
  kind (x : ElementId) : (b.get x).kind = (a.get x).kind ∨ ∃ text, (a.get x).kind = .text text false ∧
    (b.get x).kind = .text text true
  location (x : ElementId) : (b.get x).location = (a.get x).location ∨ ∃ e, a.Alone e x ∧
    (b.get x).location = (a.get e).location
  children {q : ElementId} : used q → List.Forall₂ a.Replaces (a.children q) (b.children q)
  hangs (x : ElementId) : (b.get x).parent = none ↔ (a.get x).parent = none

section
variable {a b c : Arena} {used used' : ElementId → Prop} {r p q e g x : ElementId}
  {pre post xs : List ElementId} {ss : List Shape}

/-- What takes the place of a child hangs somewhere. -/
theorem Sound.hangs_of_only (h : b.Sound used) (hp : used p) (hchildren : b.children p = pre ++ e :: post)
    (honly : g = e ∨ g ≠ e ∧ b.children e = [g]) : (b.get g).parent ≠ none := by
  obtain ⟨he, hparent⟩ := h.child_mem hp (hchildren ▸ List.mem_append_right _ List.mem_cons_self)
  obtain rfl | ⟨-, honly⟩ := honly
  · rw [hparent]
    exact Option.some_ne_none p
  · rw [(h.child_mem he (honly ▸ List.mem_singleton_self g)).2]
    exact Option.some_ne_none e

theorem goesWhenStripping_eq (a : Arena) (x : ElementId) :
    a.goesWhenStripping x = if (a.get x).kind.isText then a.isIgnorable x true else .ok false := by
  rw [goesWhenStripping]
  cases (a.get x).kind <;> rfl

theorem Alone.inside (h : a.Alone e g) : e < a.size := lt_size_of_kind (by rw [h.1]; exact Kind.noConfusion)

section
variable (hread : a.AsRead r ss)
include hread

theorem Alone.branch (h : a.Alone e g) : ∃ branch condition, (a.get g).kind = .conditional branch condition :=
  hread.branches h.1 (h.2 ▸ List.mem_singleton_self g)

/-- Only a branch stands in another place than its own. -/
theorem Replaces.eq (h : a.Replaces e g)
    (hkind : ∀ branch condition, (a.get g).kind ≠ .conditional branch condition) : g = e := by
  obtain rfl | halone := h
  · rfl
  · obtain ⟨branch, condition, hbranch⟩ := halone.branch hread
    exact absurd hbranch (hkind branch condition)

theorem AsRead.parent_ne_none (hx : x < a.size) (hkind : (a.get x).kind ≠ .sequence) :
    (a.get x).parent ≠ none := by
  have hin := hread.all hx
  rw [ids_singleton] at hin
  obtain ⟨q, hq, hmem⟩ := hread.tidy.exists_parent
    ((List.mem_cons.1 hin).resolve_left fun hroot => hkind (hroot ▸ hread.root))
  rw [(hread.tidy.sound.child_mem hq hmem).2]
  exact Option.some_ne_none q

theorem AsRead.intact : a.Intact a (· < a.size) :=
  ⟨hread.tidy.sound, rfl, fun hx _ => hx, fun _ => .inl rfl, fun _ => .inl rfl,
    fun _ => List.forall₂_same.2 fun _ _ => .inl rfl, fun _ => .rfl⟩

end

namespace Intact

variable (h : a.Intact b used)
include h

/-! ### Elements -/

theorem inside (hq : used q) : q < a.size := h.size ▸ h.sound.inside hq

/-- Whatever does not tell whether texts have been trimmed is the same. -/
theorem kind_congr {α : Type} (f : Kind → α)
    (hf : ∀ text, f (.text text true) = f (.text text false)) (x : ElementId) :
    f (b.get x).kind = f (a.get x).kind := by
  obtain hsame | ⟨text, hbefore, hafter⟩ := h.kind x
  · rw [hsame]
  · rw [hbefore, hafter, hf]

theorem isText (x : ElementId) : (b.get x).kind.isText = (a.get x).kind.isText :=
  h.kind_congr Kind.isText (fun _ => rfl) x

theorem kind_eq (hx : (b.get x).kind.isText = false) : (b.get x).kind = (a.get x).kind := by
  obtain hsame | ⟨text, -, hafter⟩ := h.kind x
  · exact hsame
  · rw [hafter] at hx
    cases hx

theorem kind_text {text : String} {trimmed : Bool} (hx : (b.get x).kind = .text text trimmed) :
    ∃ trimmed, (a.get x).kind = .text text trimmed := by
  obtain hsame | ⟨text', hbefore, hafter⟩ := h.kind x
  · exact ⟨trimmed, hsame.symm.trans hx⟩
  · obtain ⟨rfl, -⟩ := Kind.text.inj (hafter.symm.trans hx)
    exact ⟨false, hbefore⟩

/-! ### Steps -/

theorem stored (nodes : b.SameNodes c) (links : b.SameLinks c) : a.Intact c used := by
  refine ⟨h.sound.sameLinks links, links.size.trans h.size, h.stays, fun x => ?_, fun x => ?_,
    fun {q} hq => ?_, fun x => ?_⟩
  · rw [(nodes.2 x).1]
    exact h.kind x
  · rw [(nodes.2 x).2]
    exact h.location x
  · rw [links.children]
    exact h.children hq
  · rw [(links.place x).1]
    exact h.hangs x

section
variable (hread : a.AsRead r ss)
include hread

/-- What is alone in an if block was so at first. -/
theorem alone (he : used e) (hblock : (b.get e).kind = .ifBlock) (honly : b.children e = [g]) :
    a.Alone e g := by
  have hkind : (a.get e).kind = .ifBlock := (h.kind_eq (by rw [hblock]; rfl)).symm.trans hblock
  have hchildren := h.children he
  rw [honly] at hchildren
  obtain ⟨x, ys, hx, hys, hfirst⟩ := List.forall₂_cons_right_iff.1 hchildren
  obtain rfl := List.forall₂_nil_right_iff.1 hys
  obtain rfl | halone := hx
  · exact ⟨hkind, hfirst⟩
  · obtain ⟨branch, condition, hbranch⟩ := hread.branches hkind (hfirst ▸ List.mem_singleton_self x)
    rw [halone.1] at hbranch
    cases hbranch

/-- What takes the place of another child is alone in that, and nothing has stood in its place before. -/
theorem givesWay (hp : used p) (hchildren : b.children p = pre ++ e :: post) (hstands : b.StandsFor g e)
    (hne : g ≠ e) (honly : b.children e = [g]) : a.Alone e g ∧ ∀ y, a.Replaces y e → e = y := by
  have he : used e := (h.sound.child_mem hp (hchildren ▸ List.mem_append_right _ List.mem_cons_self)).1
  obtain ⟨y, hy, hreplaces⟩ : ∃ y ∈ a.children p, a.Replaces y e := by
    obtain ⟨pre', y, post', hbefore, -, hy, -⟩ := exists_of_forall₂_middle (hchildren ▸ h.children hp)
    exact ⟨y, hbefore ▸ List.mem_append_right _ List.mem_cons_self, hy⟩
  have hblock : (b.get e).kind = .ifBlock := by
    obtain hsame | hsequence | ⟨hblock, -⟩ := hstands
    · exact absurd hsame hne
    · have hbefore := (h.kind_eq (by rw [hsequence]; rfl)).symm.trans hsequence
      obtain rfl := hreplaces.eq hread (by rw [hbefore]; exact fun _ _ => Kind.noConfusion)
      obtain ⟨hin, hparent⟩ := hread.tidy.sound.child_mem (h.inside hp) hy
      rw [hread.flat hin hbefore, hread.orphan] at hparent
      cases hparent
    · exact hblock
  have halone := h.alone hread he hblock honly
  exact ⟨halone, fun y hy => hy.eq hread (by rw [halone.1]; exact fun _ _ => Kind.noConfusion)⟩

theorem placed (hp : used p) (hchildren : b.children p = pre ++ e :: post)
    (placed : Placed b c used used' p pre e g post) (hstands : b.StandsFor g e)
    (honly : g = e ∨ g ≠ e ∧ b.children e = [g]) : a.Intact c used' := by
  have hput := placed.put
  have halone : g ≠ e → a.Alone e g ∧ ∀ y, a.Replaces y e → e = y := fun hne =>
    h.givesWay hread hp hchildren hstands hne (honly.resolve_left hne).2
  refine ⟨placed.sound, placed.nodes.1.trans h.size, fun {x} hx hkind => ?_, fun x => ?_, fun x => ?_,
    fun {q} hq => ?_, fun x => ?_⟩
  · refine placed.still (h.stays hx hkind) fun hxe => ?_
    by_contra hne
    exact hkind (hxe ▸ (halone hne).1.1)
  · rw [(placed.nodes.2 x).1]
    exact h.kind x
  · rw [(placed.nodes.2 x).2]
    exact h.location x
  · by_cases hqp : q = p
    · rw [hqp, hput.children]
      obtain ⟨pre', y, post', hbefore, hpre, hy, hpost⟩ :=
        exists_of_forall₂_middle (hchildren ▸ h.children hp)
      rw [hbefore]
      refine List.rel_append hpre (.cons ?_ hpost)
      by_cases hge : g = e
      · rwa [hge]
      · obtain ⟨hnew, hold⟩ := halone hge
        obtain rfl := hold y hy
        exact .inr hnew
    · rw [hput.children_of_ne hqp]
      exact h.children (placed.fewer hq)
  · by_cases hxg : x = g
    · have hparent := h.sound.hangs_of_only hp hchildren honly
      rw [hxg, ← h.hangs, hput.put]
      exact ⟨fun hnone => absurd hnone (Option.some_ne_none p), fun hnone => absurd hnone hparent⟩
    · rw [(hput.links hxg).1]
      exact h.hangs x

theorem moved (he : used e) (hblock : (b.get e).kind = .ifBlock) (honly : b.children e = [g]) :
    a.Intact (b.update g fun d => { d with location := (b.get e).location }) used := by
  have halone := h.alone hread he hblock honly
  have hlinks : b.SameLinks (b.update g fun d => { d with location := (b.get e).location }) :=
    sameLinks_update b g _ ⟨rfl, rfl, rfl⟩
  have hself := get_update_self b (fun d => { d with location := (b.get e).location })
    (h.sound.inside (h.sound.child_mem he (honly ▸ List.mem_singleton_self g)).1)
  have hlocation : (b.get e).location = (a.get e).location := by
    obtain hsame | ⟨f, hf, -⟩ := h.location e
    · exact hsame
    · obtain ⟨branch, condition, hbranch⟩ := hf.branch hread
      rw [halone.1] at hbranch
      cases hbranch
  refine ⟨h.sound.sameLinks hlinks, hlinks.size.trans h.size, h.stays, fun x => ?_, fun x => ?_,
    fun {q} hq => ?_, fun x => ?_⟩
  · by_cases hx : x = g
    · rw [hx, hself]
      exact h.kind g
    · rw [b.get_update_ne _ hx]
      exact h.kind x
  · by_cases hx : x = g
    · rw [hx, hself]
      exact .inr ⟨e, halone, hlocation⟩
    · rw [b.get_update_ne _ hx]
      exact h.location x
  · rw [hlinks.children]
    exact h.children hq
  · rw [(hlinks.place x).1]
    exact h.hangs x

/-- Taking nothing off a text marks it as trimmed. -/
theorem trimmed {text : String} (hx : used x) (hkind : (b.get x).kind = .text text false) :
    a.Intact (b.trimming x text 0 0) used := by
  have hlinks := b.sameLinks_trimming x text 0 0
  have hself := b.get_trimming (h.sound.inside hx) text 0 0
  have hsame : trimmedText text.toList 0 0 = text.toList := by simp [trimmedText]
  have hbefore : (a.get x).kind = .text text false := by
    obtain ⟨trimmed, hbefore⟩ := h.kind_text hkind
    rw [hbefore, (hread.texts hbefore).2]
  refine ⟨h.sound.sameLinks hlinks, hlinks.size.trans h.size, h.stays, fun y => ?_, fun y => ?_,
    fun {q} hq => ?_, fun y => ?_⟩
  · by_cases hy : y = x
    · rw [hy, hself, hsame, String.ofList_toList]
      exact .inr ⟨text, hbefore, rfl⟩
    · rw [b.get_trimming_ne hy]
      exact h.kind y
  · by_cases hy : y = x
    · rw [hy, hself]
      exact h.location x
    · rw [b.get_trimming_ne hy]
      exact h.location y
  · rw [hlinks.children]
    exact h.children hq
  · rw [(hlinks.place y).1]
    exact h.hangs y

end

/-! ### Texts that can go -/

/-- What takes a place writes where the element before did. -/
theorem isSilent (hread : a.AsRead r ss) (hreplaces : a.Replaces e g) :
    (b.get g).kind.isSilent = (a.get e).kind.isSilent := by
  rw [h.kind_congr Kind.isSilent (fun _ => rfl) g]
  obtain rfl | halone := hreplaces
  · rfl
  · obtain ⟨branch, condition, hbranch⟩ := halone.branch hread
    rw [hbranch, halone.1]
    rfl

section
variable (hread : a.AsRead r ss)
include hread

theorem isQuiet_head {ys : List ElementId} (hall : List.Forall₂ a.Replaces xs ys) (atTop : Bool) :
    b.isQuiet atTop ys.head? = a.isQuiet atTop xs.head? := by
  cases hall with
  | nil => rfl
  | cons hreplaces _ => exact h.isSilent hread hreplaces

theorem isQuiet_last {ys : List ElementId} (hall : List.Forall₂ a.Replaces xs ys) (atTop : Bool) :
    b.isQuiet atTop ys.getLast? = a.isQuiet atTop xs.getLast? := by
  rw [← List.head?_reverse, ← List.head?_reverse]
  exact h.isQuiet_head hread (List.rel_reverse hall) atTop

/-- The neighbours of a text are those it had, or branches in their places. -/
theorem exists_siblings (hx : (a.get x).kind.isText = true) :
    ∃ q pre post pre' post', used q ∧ a.children q = pre ++ x :: post ∧
    b.children q = pre' ++ x :: post' ∧ List.Forall₂ a.Replaces pre pre' ∧
    List.Forall₂ a.Replaces post post' := by
  have hkind : ∀ kind : Kind, kind.isText = false → (a.get x).kind ≠ kind := fun _ => Kind.ne_of_isText hx
  have hin := lt_size_of_kind (hkind .sequence rfl)
  obtain ⟨q, hparent⟩ := Option.ne_none_iff_exists'.1 (hread.parent_ne_none hin (hkind .sequence rfl))
  obtain ⟨hq, hplace⟩ := hread.tidy.sound.parent hin hparent
  have hmem := List.mem_of_getElem? hplace
  -- An if block has no texts among its children, so the parent stays.
  have hused : used q := h.stays hq fun hblock => by
    obtain ⟨branch, condition, hbranch⟩ := hread.branches hblock hmem
    exact hkind _ rfl hbranch
  obtain ⟨pre, post, hchildren⟩ := List.append_of_mem hmem
  have hall := (h.children hused).flip
  rw [hchildren] at hall
  obtain ⟨pre', y, post', hafter, hpre, hy, hpost⟩ := exists_of_forall₂_middle hall
  obtain rfl | halone := hy
  · exact ⟨q, pre, post, pre', post', hused, hchildren, hafter, hpre.flip, hpost.flip⟩
  · exact absurd halone.1 (hkind _ rfl)

/-- Just those texts can go that could at first. -/
theorem isIgnorable (hx : (a.get x).kind.isText = true) (strip : Bool) :
    b.isIgnorable x strip = a.isIgnorable x strip := by
  obtain ⟨q, pre, post, pre', post', hq, hbefore, hafter, hpre, hpost⟩ := h.exists_siblings hread hx
  obtain ⟨text, trimmed, hkind⟩ := Kind.exists_of_isText ((h.isText x).trans hx)
  obtain ⟨trimmed', hkind'⟩ := h.kind_text hkind
  have htop : b.isAtTop x = a.isAtTop x := by
    rw [isAtTop, isAtTop, (h.sound.child_mem hq (hafter ▸ List.mem_append_right _ List.mem_cons_self)).2,
      (hread.tidy.sound.child_mem (h.inside hq) (hbefore ▸ List.mem_append_right _ List.mem_cons_self)).2,
      Bool.eq_iff_iff,
      Option.isNone_iff_eq_none, Option.isNone_iff_eq_none]
    exact h.hangs q
  rw [Arena.isIgnorable, Arena.isIgnorable, hkind, hkind']
  simp only [isDroppedText, h.sound.previousSibling_eq hq hafter,
    hread.tidy.sound.previousSibling_eq (h.inside hq) hbefore, h.sound.nextSibling_eq hq hafter,
    hread.tidy.sound.nextSibling_eq (h.inside hq) hbefore, htop, bind, Except.bind,
    h.isQuiet_last hread hpre, h.isQuiet_head hread hpost]

theorem goesWhenStripping (x : ElementId) : b.goesWhenStripping x = a.goesWhenStripping x := by
  rw [goesWhenStripping_eq, goesWhenStripping_eq, h.isText]
  split
  · next hx => exact h.isIgnorable hread hx true
  · rfl

theorem heedsOpening (x : ElementId) : b.heedsOpening x = a.heedsOpening x := by
  rw [Arena.heedsOpening, Arena.heedsOpening, h.goesWhenStripping hread,
    h.kind_congr Kind.heedsOpening (fun _ => rfl)]

theorem heedsTrailing (x : ElementId) : b.heedsTrailing x = a.heedsTrailing x := by
  rw [Arena.heedsTrailing, Arena.heedsTrailing, h.goesWhenStripping hread,
    h.kind_congr Kind.heedsTrailing (fun _ => rfl)]

end

end Intact

end

end Arena

/-! ### What was read -/

section
variable {source : Source} {raw : Tree} {parts ss : List Shape} {a : Arena} {x : ElementId}

/-- The children of if blocks are branches. -/
theorem Shape.Formed.children_ifBlock (h : Formed a ss) (hspans : Spans a ss) {e : ElementId}
    (he : e ∈ ids ss) (hblock : (a.get e).kind = .ifBlock) (hx : x ∈ a.children e) :
    ∃ branch condition, (a.get x).kind = .conditional branch condition := by
  induction ss using forest_induction with
  | nil =>
    rw [ids_nil] at he
    cases he
  | cons id parts ss ihParts ih =>
    rw [Formed] at h
    rw [Spans] at hspans
    rcases mem_ids_cons.1 he with rfl | he | he
    · rw [hspans.1] at hx
      obtain ⟨s, hs, rfl⟩ := List.mem_map.1 hx
      exact h.2.1 hblock s hs
    · exact ihParts h.2.2.1 hspans.2.1 he
    · exact ih h.2.2.2 hspans.2.2 he

theorem JustLoaded.asRead (h : JustLoaded raw parts) (hraw : Tree.parse source = .ok raw) :
    (Arena.load {} raw).1.AsRead (Arena.load {} raw).2 parts := by
  refine ⟨h.tidy, h.all, h.orphan, h.root_kind.trans (Tree.written_of_parse hraw).1, fun {x} hx hkind => ?_,
    fun hblock hx => ?_,
    fun {x text trimmed} hkind => ?_, h.holds.nested (Tree.nested_of_parse hraw)⟩
  · by_contra hroot
    exact h.ne_sequence hraw hx hroot hkind
  · exact h.formed.children_ifBlock h.tidy.spans
      (h.all (Arena.lt_size_of_kind (by rw [hblock]; exact Kind.noConfusion))) hblock hx
  · obtain ⟨tokens, hread⟩ := Tree.exists_readFrom hraw
    have hin : x ∈ (ids [⟨(Arena.load {} raw).2, parts⟩]).filter fun x =>
        ((Arena.load {} raw).1.get x).kind.isText := by
      refine List.mem_filter.2 ⟨h.all (Arena.lt_size_of_kind (by rw [hkind]; exact Kind.noConfusion)), ?_⟩
      rw [hkind]
      rfl
    obtain ⟨pre, post, hsplit⟩ := List.append_of_mem hin
    obtain ⟨_, u, _, -, -, hu, -⟩ := exists_of_forall₂_middle (hsplit ▸ h.readAs hread)
    obtain ⟨rfl, rfl⟩ := Kind.text.inj (hkind.symm.trans hu.kind)
    exact ⟨(hu.placed.text hu.text).1, rfl⟩

end

end Stencil
