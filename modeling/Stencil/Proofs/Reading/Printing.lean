import Stencil.Proofs.Reading.Canonical

/-! # Printing

What a tree prints depends on its texts and tags and on where its branches stand: a branch is closed by its
own tag unless an if block holds it. So leaving elements out that run as nothing changes nothing that is
printed, comments apart, and what is read back from a printed tree prints the same. -/

namespace Stencil

open Execution

/-! ### Tags -/

namespace Kind

theorem Like.eq_or_text {k k' : Kind} (h : k.Like Eq k') :
    k' = k ∨ ∃ s trimmed trimmed', k = .text s trimmed ∧ k' = .text s trimmed' := by
  cases h with
  | text s trimmed trimmed' => exact .inr ⟨s, trimmed, trimmed', rfl, rfl⟩
  | conditional branch h =>
    left
    cases h with
    | none => rfl
    | some h => rw [h]
  | interpolation h | list _ h | assignment _ h | inclusion h =>
    left
    rw [h]
  | call name h =>
    left
    rw [List.forall₂_eq_eq_eq] at h
    rw [h]
  | sequence | ifBlock | capture | definition | comment => exact .inl rfl

theorem openTag_unplaced (kind : Kind) : kind.unplaced.openTag = kind.openTag := by
  cases kind with
  | conditional branch condition => cases condition <;> simp [unplaced, openTag, Expr.canonical_unplaced]
  | call name arguments =>
    have hsame : (arguments.map Expr.unplaced).map Expr.canonical = arguments.map Expr.canonical := by
      simp [Expr.canonical_unplaced]
    cases arguments with
    | nil => rfl
    | cons e es =>
      simp only [List.map_cons] at hsame
      simp only [unplaced, openTag, List.map_cons, hsame]
  | interpolation | list | assignment | inclusion => simp only [unplaced, openTag, Expr.canonical_unplaced]
  | _ => rfl

theorem unplaced_ne_text {kind : Kind} (h : ∀ s trimmed, kind ≠ .text s trimmed) :
    ∀ s trimmed, kind.unplaced ≠ .text s trimmed := by
  intro s trimmed
  cases kind with
  | text s' trimmed' => exact absurd rfl (h s' trimmed')
  | _ => nofun

theorem isIfBlock_unplaced (kind : Kind) : kind.unplaced.isIfBlock = kind.isIfBlock := by
  cases kind <;> rfl

end Kind

namespace Tree

theorem closeTag_unplaced (kind : Kind) (inBlock : Bool) :
    closeTag kind.unplaced inBlock = closeTag kind inBlock := by
  cases kind <;> rfl

/-! ### What is printed -/

mutual

/-- The characters of an element that stands in an if block or not, whatever it says itself. -/
def print (inBlock : Bool) : Tree → List Char
  | ⟨kind, _, _, children⟩ =>
    match kind with
    | .text s _ => escapeText s.toList
    | _ => kind.openTag.toList ++ (prints kind.isIfBlock children ++ (closeTag kind inBlock).toList)

/-- The characters of some elements, one after the other. -/
def prints (inBlock : Bool) : List Tree → List Char
  | [] => []
  | t :: ts => t.print inBlock ++ prints inBlock ts

end

section
variable {inBlock : Bool} {t t' : Tree} {ts us : List Tree} {before : List Char}

@[simp] theorem prints_nil : prints inBlock [] = [] := by rw [prints]

@[simp] theorem prints_cons : prints inBlock (t :: ts) =
    t.print inBlock ++ prints inBlock ts := by rw [prints]

@[simp] theorem prints_append (ts us : List Tree) :
    prints inBlock (ts ++ us) = prints inBlock ts ++ prints inBlock us := by
  induction ts with
  | nil => simp
  | cons t ts ih => simp [ih]

theorem print_text {s : String} {trimmed : Bool} (h : t.kind = .text s trimmed) :
    t.print inBlock = escapeText s.toList := by
  obtain ⟨kind, location, within, children⟩ := t
  obtain rfl : kind = .text s trimmed := h
  rw [print]

theorem print_element (h : ∀ s trimmed, t.kind ≠ .text s trimmed) : t.print inBlock =
    t.kind.openTag.toList ++ (prints t.kind.isIfBlock t.children ++ (closeTag t.kind inBlock).toList) := by
  obtain ⟨kind, location, within, children⟩ := t
  rw [print]
  exact h

theorem print_ifBlock (h : t.kind = .ifBlock) :
    t.print inBlock = prints true t.children ++ (Kind.tag "/if").toList := by
  rw [print_element (by rw [h]; nofun), h]
  rfl

/-- A branch is closed by the if block that holds it, or else by itself. -/
theorem print_branch {branch : Branch} {condition : Option Expr}
    (h : t.kind = .conditional branch condition) :
    t.print inBlock = t.kind.openTag.toList ++
    (prints false t.children ++ (if inBlock then "" else Kind.tag "/if").toList) := by
  rw [print_element (by rw [h]; nofun), h]
  rfl

/-- Elements that say where they stand print as they are written. -/
theorem prints_of_placed (hwritten : Written inBlock ts) (h : Placed inBlock ts) :
    prints inBlock ts = (markups true ts).toList := by
  induction hwritten with
  | nil => simp [markups]
  | @cons inBlock t ts kind leaf _ _ _ body tail ihBody ih =>
    obtain ⟨hin, hbody, htail⟩ := placed_cons.1 h
    rw [prints_cons, markups, String.toList_append, ih htail]
    congr 1
    obtain ⟨s, trimmed, hkind⟩ | htext := t.kind.text_or_ne
    · rw [print_text hkind, markup_text hkind]
    · rw [print_element htext, markup_element htext, ihBody hbody, hin]
      cases hhas : t.kind.hasBody with
      | true => simp
      | false => simp [leaf hhas, markups]

/-- An element prints as another one of its kind whose body prints the same. -/
theorem print_congr (hkind : t.kind.Like Eq t'.kind)
    (hbody : prints t.kind.isIfBlock t'.children = prints t.kind.isIfBlock t.children) :
    t'.print inBlock = t.print inBlock := by
  rcases hkind.eq_or_text with hsame | ⟨s, trimmed, trimmed', ht, ht'⟩
  · obtain ⟨s, trimmed, hkind⟩ | htext := t.kind.text_or_ne
    · rw [print_text hkind, print_text (hsame.trans hkind)]
    · rw [print_element htext, print_element (hsame ▸ htext), hsame, hbody]
  · rw [print_text ht, print_text ht']

/-! ### Trees without places -/

theorem prints_unplaceds (ts : List Tree) : prints inBlock (unplaceds ts) = prints inBlock ts := by
  induction ts using forest_induction generalizing inBlock with
  | nil => rw [unplaceds_nil]
  | cons t ts ihBody ih =>
    rw [unplaceds_cons, prints_cons, prints_cons, ih, unplaced_eq]
    congr 1
    obtain ⟨s, trimmed, hkind⟩ | htext := t.kind.text_or_ne
    · have hsame : t.kind.unplaced = .text s trimmed := by rw [hkind]; rfl
      rw [print_text hkind, print_text hsame]
    · rw [print_element htext, print_element (Kind.unplaced_ne_text htext)]
      simp only [Kind.openTag_unplaced, Kind.isIfBlock_unplaced, closeTag_unplaced, ihBody]

/-! ### Elements that are left out -/

/-- Leaving out what runs as nothing changes nothing that is printed, unless it is a comment. -/
theorem prints_of_leavesOut (h : LeavesOut ts us) (hts : Each Kind.Shows ts) :
    prints false us = prints false ts := by
  cases h with
  | comment comment hkind =>
    cases hts with
    | cons kind _ _ => exact absurd hkind (kind comment)
  | emptyText trimmed hkind => rw [prints_cons, print_text hkind]; rfl
  | @sequence t hkind ts =>
    rw [prints_cons, print_element (by rw [hkind]; nofun), hkind, prints_append]
    simp [Kind.openTag, Kind.isIfBlock, closeTag]
  | onlyBranch hkind hchildren branch condition hbranch =>
    rw [prints_cons, prints_cons, print_ifBlock hkind, hchildren, prints_cons, prints_nil,
      print_branch hbranch, print_branch hbranch]
    simp

theorem Each.leavesOut {P : Kind → Prop} (h : Each P ts) (hstep : LeavesOut ts us) : Each P us := by
  cases h with
  | nil => cases hstep
  | cons kind body tail =>
    cases hstep with
    | comment | emptyText => exact tail
    | sequence => exact body.append tail
    | onlyBranch _ hchildren =>
      rw [hchildren] at body
      exact body.append tail

/-- Bodies that run alike print alike, if they have no comments. -/
theorem prints_of_sameRun (h : SameRun inBlock ts us) (hts : Each Kind.Shows ts) :
    prints inBlock us = prints inBlock ts := by
  induction h with
  | nil => rfl
  | cons head _ _ ihBody ihTail =>
    cases hts with
    | cons kind body tail => rw [prints_cons, prints_cons, print_congr head.kind (ihBody body), ihTail tail]
  | rewrite step _ ih => rw [ih (hts.leavesOut step), prints_of_leavesOut step hts]

/-! ### Elements that were read back -/

theorem prints_textOf (text : List Char) : prints inBlock (textOf text) = escapeText text := by
  by_cases hnone : text = []
  · rw [textOf, if_pos hnone, hnone]
    rfl
  · rw [textOf, if_neg hnone, prints_cons, prints_nil, List.append_nil, print, String.toList_ofList]

/-- An element that was read back prints as the one that was printed, once its body does: a branch that
stood alone is held by an if block now, which closes it. -/
theorem print_reread (htext : ∀ s trimmed, t.kind ≠ .text s trimmed) (hin : t.inBlock = inBlock)
    (hbody : prints t.kind.isIfBlock (rereadAfter [] t.children) = prints t.kind.isIfBlock t.children) :
    t.reread.print inBlock = t.print inBlock := by
  obtain ⟨branch, condition, hkind⟩ | hbranch := t.kind.branch_or_ne
  · have hbody : prints false (rereadAfter [] t.children) = prints false t.children := by rwa [hkind] at hbody
    have hsame : ∀ u : Tree, u.kind = t.kind.unplaced → u.children = rereadAfter [] t.children → ∀ inBlock,
        u.print inBlock = t.print inBlock := by
      intro u hu hchildren inBlock
      rw [print_branch (hu.trans (congrArg Kind.unplaced hkind)), print_branch hkind, hu,
        Kind.openTag_unplaced, hchildren, hbody]
    rw [reread_branch hkind, hin]
    cases inBlock with
    | true => exact hsame _ rfl rfl true
    | false =>
      rw [if_neg Bool.false_ne_true, print_ifBlock rfl, prints_cons, prints_nil, hsame _ rfl rfl,
        print_branch hkind, print_branch hkind]
      simp
  · rw [reread_eq hbranch, print_element (Kind.unplaced_ne_text htext), print_element htext]
    simp only [Kind.openTag_unplaced, Kind.isIfBlock_unplaced, closeTag_unplaced, hbody]

/-- What was read back from a printed tree prints the same, if no texts meet in it so that they open a tag. -/
theorem prints_rereadAfter {branches : Bool} (h : Written branches ts) (hplaced : Placed branches ts)
    (hseams : hasSeams before ts = false) (hbefore : branches = true → before = []) :
    prints branches (rereadAfter before ts) = escapeText before ++ prints branches ts := by
  induction h generalizing before with
  | nil => rw [rereadAfter, prints_textOf, prints_nil, List.append_nil]
  | @cons branches t ts kind leaf block outside inside body tail ihBody ihTail =>
    obtain ⟨hin, hplacedBody, hplacedTail⟩ := placed_cons.1 hplaced
    obtain ⟨s, trimmed, hkind⟩ | htext := t.kind.text_or_ne
    · have hfalse : branches = false := by
        by_contra htrue
        obtain ⟨branch, condition, hbranch⟩ := inside (Bool.not_eq_false _ ▸ htrue)
        rw [hkind] at hbranch
        cases hbranch
      rw [hasSeams_text hkind, Bool.or_eq_false_iff] at hseams
      rw [rereadAfter_text hkind, ihTail hplacedTail hseams.2
        (fun htrue => Bool.noConfusion (hfalse.symm.trans htrue)), prints_cons, print_text hkind,
        escapeText_append hseams.1, List.append_assoc]
    · rw [hasSeams_element htext, Bool.or_eq_false_iff] at hseams
      have hbody := ihBody hplacedBody hseams.1 fun _ => rfl
      have htail := ihTail hplacedTail hseams.2 fun _ => rfl
      rw [rereadAfter_element htext, prints_append, prints_textOf, prints_cons, prints_cons,
        print_reread htext hin hbody, htail]
      rfl

end

end Tree

end Stencil
