import Stencil.Proofs.Reading.Readers
import Stencil.Proofs.Reading.Tags

/-! # Lexing printed trees

The text of a tree is read back as the tokens of its elements, with texts that stand side by side taken
together. Where such texts meet, an opening brace and a bracket can come together that neither of the two
escapes; everywhere else the text says what it should. -/

namespace Stencil.Tree

open Lexer

/-! ### Texts side by side -/

/-- Whether one text goes on with another so that a tag is opened. -/
def opensBetween (cs ds : List Char) : Bool := cs.getLast? == some '\x7b' && ds.head? == some '['

mutual

/-- Whether texts meet somewhere below an element so that they open a tag. -/
def hasSeam : Tree → Bool
  | ⟨_, _, _, children⟩ => hasSeams [] children

/-- Whether texts meet so that they open a tag, in or below some elements that follow a text. -/
def hasSeams (before : List Char) : List Tree → Bool
  | [] => false
  | t :: ts =>
    match t.kind with
    | .text s _ => opensBetween before s.toList || hasSeams (before ++ s.toList) ts
    | _ => t.hasSeam || hasSeams [] ts

end

@[simp] theorem opensBetween_nil (ds : List Char) : opensBetween [] ds = false := rfl

theorem opensBetween_cons {cs : List Char} (hcs : cs ≠ []) (c : Char) (ds : List Char) :
    opensBetween (c :: cs) ds = opensBetween cs ds := by
  rw [opensBetween, opensBetween, List.getLast?_cons_of_ne_nil hcs]

theorem opensBetween_opened (cs ds : List Char) :
    opensBetween ('\x7b' :: '[' :: cs) ds = opensBetween cs ds := by
  rw [opensBetween_cons (by simp)]
  cases cs with
  | nil => rfl
  | cons c cs => exact opensBetween_cons (by simp) _ _

theorem escapeText_append {cs ds : List Char} (h : opensBetween cs ds = false) :
    escapeText (cs ++ ds) = escapeText cs ++ escapeText ds := by
  fun_induction escapeText cs with
  | case1 => rfl
  | case2 cs ih =>
    rw [opensBetween_opened] at h
    simp only [List.cons_append, escapeText, ih h]
  | case3 c cs hnot ih =>
    cases cs with
    | nil =>
      have hstop : escapeText (c :: ds) = c :: escapeText ds := by
        rw [escapeText]
        rintro es rfl rfl
        cases h
      exact hstop
    | cons d cs =>
      rw [opensBetween_cons (by simp)] at h
      rw [List.cons_append, escapeText, ih h]
      · rfl
      · rintro es rfl hes
        obtain ⟨rfl, -⟩ := List.cons.inj hes
        exact hnot cs rfl rfl

/-! ### Tokens of trees -/

/-- The token of some text, if there is any. -/
def textForms (text : List Char) : List Form := if text = [] then [] else [(.text, String.ofList text)]

mutual

/-- The tokens of an element other than a text. -/
def forms : Tree → List Form
  | ⟨kind, _, inBlock, children⟩ =>
    kind.openForms ++ (formsAfter [] children ++ ((kind.block? inBlock).map Kind.closeForms).getD [])

/-- The tokens of some elements after a text. -/
def formsAfter (before : List Char) : List Tree → List Form
  | [] => textForms before
  | t :: ts =>
    match t.kind with
    | .text s _ => formsAfter (before ++ s.toList) ts
    | _ => textForms before ++ (t.forms ++ formsAfter [] ts)

end

/-- Every element says whether it stands in an if block. -/
def Placed (branches : Bool) : List Tree → Prop
  | [] => True
  | ⟨kind, _, inBlock, children⟩ :: ts => inBlock = branches ∧
    Placed kind.isIfBlock children ∧ Placed branches ts

theorem placed_cons {branches : Bool} {t : Tree} {ts : List Tree} :
    Placed branches (t :: ts) ↔ t.inBlock = branches ∧ Placed t.kind.isIfBlock t.children ∧
    Placed branches ts := by
  cases t
  rw [Placed]

section
variable {t : Tree} {ts : List Tree} {before : List Char}

theorem hasSeam_eq (t : Tree) : t.hasSeam = hasSeams [] t.children := by
  cases t
  rw [hasSeam]

theorem forms_eq (t : Tree) : t.forms =
    t.kind.openForms ++ (formsAfter [] t.children ++
      ((t.kind.block? t.inBlock).map Kind.closeForms).getD []) := by
  cases t
  rw [forms]

theorem markup_text {s : String} {trimmed : Bool} (h : t.kind = .text s trimmed) :
    (t.markup true).toList = escapeText s.toList := by
  obtain ⟨kind, location, inBlock, children⟩ := t
  obtain rfl : kind = .text s trimmed := h
  rw [markup, String.toList_ofList]

theorem showsChildren_true (kind : Kind) : showsChildren kind true = kind.hasBody := by
  cases kind <;> rfl

theorem markup_element (h : ∀ s trimmed, t.kind ≠ .text s trimmed) : t.markup true =
    t.kind.openTag ++ (if t.kind.hasBody then markups true t.children else "") ++
    closeTag t.kind t.inBlock := by
  obtain ⟨kind, location, inBlock, children⟩ := t
  rw [markup, showsChildren_true]
  exact h

theorem hasSeams_text {s : String} {trimmed : Bool} (h : t.kind = .text s trimmed) :
    hasSeams before (t :: ts) =
      (opensBetween before s.toList || hasSeams (before ++ s.toList) ts) := by
  rw [hasSeams, h]

theorem hasSeams_element (h : ∀ s trimmed, t.kind ≠ .text s trimmed) :
    hasSeams before (t :: ts) = (hasSeams [] t.children || hasSeams [] ts) := by
  rw [hasSeams, hasSeam_eq]
  split
  · next s trimmed htext => exact absurd htext (h s trimmed)
  · rfl

theorem formsAfter_text {s : String} {trimmed : Bool} (h : t.kind = .text s trimmed) :
    formsAfter before (t :: ts) = formsAfter (before ++ s.toList) ts := by
  rw [formsAfter, h]

theorem formsAfter_element (h : ∀ s trimmed, t.kind ≠ .text s trimmed) :
    formsAfter before (t :: ts) = textForms before ++ (t.forms ++ formsAfter [] ts) := by
  rw [formsAfter]
  split
  · next s trimmed htext => exact absurd htext (h s trimmed)
  · rfl

/-! ### Lexing -/

theorem lexes_textForms {rest : List Char} (hrest : EndsText rest) :
    Lexes false (escapeText before ++ rest) (textForms before) false rest := by
  by_cases hnone : before = []
  · rw [textForms, if_pos hnone, hnone]
    exact .self false rest
  · rw [textForms, if_neg hnone]
    exact lexes_text hrest hnone

theorem endsText_tag {s : String} {c : Char} {t : List Char} (hs : s.toList = c :: t) (hc : c ≠ '\x7b')
    (rest : List Char) :
    EndsText ((Kind.tag s).toList ++ rest) := by
  have hchars : (Kind.tag s).toList ++ rest = '\x7b' :: '[' :: (s.toList ++ ("]\x7d".toList ++ rest)) := by
    simp only [Kind.tag, String.toList_append, List.append_assoc]
    rfl
  rw [hchars, hs]
  exact .inr ⟨c, _, rfl, hc⟩

theorem endsText_openTag {kind : Kind} (htext : ∀ s trimmed, kind ≠ .text s trimmed)
    (hblock : kind ≠ .ifBlock) (hwritten : kind.Written) (rest : List Char) :
    EndsText (kind.openTag.toList ++ rest) := by
  have happend : ∀ {s : String} {c : Char} {cs : List Char}, s.toList = c :: cs → c ≠ '\x7b' → ∀ t : String,
      EndsText ((Kind.tag (s ++ t)).toList ++ rest) := by
    intro s c cs hs hc t
    exact endsText_tag (t := cs ++ t.toList) (by rw [String.toList_append, hs]; rfl) hc rest
  cases kind with
  | sequence => exact hwritten.elim
  | text s trimmed => exact absurd rfl (htext s trimmed)
  | ifBlock => exact absurd rfl hblock
  | interpolation e =>
    rw [Kind.openTag, String.append_assoc]
    exact happend (s := " ") rfl (by decide) _
  | conditional branch condition =>
    have hkeyword : ∃ cs, branch.keyword.toList = '#' :: cs := by cases branch <;> exact ⟨_, rfl⟩
    obtain ⟨cs, hcs⟩ := hkeyword
    cases condition with
    | none => exact endsText_tag hcs (by decide) rest
    | some c =>
      rw [Kind.openTag, String.append_assoc]
      exact happend hcs (by decide) _
  | list source item =>
    rw [Kind.openTag, String.append_assoc, String.append_assoc]
    exact happend (s := "#list ") rfl (by decide) _
  | assignment target value =>
    rw [Kind.openTag, String.append_assoc, String.append_assoc]
    exact happend (s := "#assign ") rfl (by decide) _
  | capture target => exact happend (s := "#assign ") rfl (by decide) _
  | definition name parameters => exact happend (s := "#macro ") rfl (by decide) _
  | call name arguments =>
    cases arguments with
    | nil => exact happend (s := "@") rfl (by decide) _
    | cons e es =>
      rw [Kind.openTag, String.append_assoc, String.append_assoc]
      · exact happend (s := "@") rfl (by decide) _
      · rintro ⟨⟩
  | inclusion path => exact happend (s := "#include ") rfl (by decide) _
  | comment text => exact happend (s := "%") rfl (by decide) _

theorem endsText_element (htext : ∀ s trimmed, t.kind ≠ .text s trimmed) (hblock : t.kind ≠ .ifBlock)
    (hwritten : t.kind.Written) (rest : List Char) : EndsText ((t.markup true).toList ++ rest) := by
  rw [markup_element htext, String.append_assoc, String.toList_append, List.append_assoc]
  exact endsText_openTag htext hblock hwritten _

theorem endsText_branches {rest : List Char} (h : Written true ts) (hrest : ts = [] → EndsText rest) :
    EndsText ((markups true ts).toList ++ rest) := by
  cases h with
  | nil => exact hrest rfl
  | @cons _ t ts kind leaf block outside inside body tail =>
    obtain ⟨branch, condition, hkind⟩ := inside rfl
    rw [markups, String.toList_append, List.append_assoc]
    exact endsText_element (by rw [hkind]; nofun) (by rw [hkind]; nofun) kind _

theorem endsText_markup {branches : Bool} (htext : ∀ s trimmed, t.kind ≠ .text s trimmed)
    (h : Written branches [t]) (rest : List Char) : EndsText ((t.markup true).toList ++ rest) := by
  cases h with
  | cons kind leaf block outside inside body tail =>
    by_cases hblock : t.kind = .ifBlock
    · rw [markup_element htext, String.append_assoc, hblock, Kind.openTag, String.empty_append,
        Kind.hasBody, if_pos rfl, String.toList_append, List.append_assoc]
      rw [hblock] at body
      refine endsText_branches body fun hnone => ?_
      have hbranches := block hblock
      rw [hnone] at hbranches
      cases hbranches
    · exact endsText_element htext hblock kind rest

/-- What stands between the body of an element and what comes after it. -/
theorem lexes_close {b : Option Block} (rest : List Char) :
    Lexes false (((b.map fun b => Kind.tag ("/" ++ b.keyword)).getD "").toList ++ rest)
      ((b.map Kind.closeForms).getD []) false rest := by
  cases b with
  | none => exact .self false rest
  | some b => exact Kind.lexes_closeTag b rest

theorem inBlock_of_block? {kind : Kind} {inBlock : Bool} (hbody : kind.hasBody = true)
    (hwritten : kind.Written) (h : kind.block? inBlock = none) : inBlock = true := by
  cases kind with
  | conditional branch condition =>
    cases inBlock with
    | true => rfl
    | false => cases h
  | sequence => exact hwritten.elim
  | ifBlock | list | capture | definition => cases h
  | _ => cases hbody

/-- A tree without seams is read back as its tokens. The text before it is escaped together with the texts
it begins with, so the induction is on the elements, with any text before. -/
theorem lexes_markups {branches : Bool} (h : Written branches ts) (hplaced : Placed branches ts)
    (hseams : hasSeams before ts = false) {rest : List Char} (hrest : EndsText rest) :
    Lexes false (escapeText before ++ ((markups true ts).toList ++ rest))
      (formsAfter before ts) false rest := by
  induction h generalizing before rest with
  | nil => exact lexes_textForms hrest
  | @cons branches t ts kind leaf block outside inside body tail ihBody ihTail =>
    obtain ⟨hin, hplacedBody, hplacedTail⟩ := placed_cons.1 hplaced
    rw [markups, String.toList_append, List.append_assoc]
    obtain ⟨s, trimmed, hkind⟩ | htext := t.kind.text_or_ne
    · rw [hasSeams_text hkind, Bool.or_eq_false_iff] at hseams
      rw [markup_text hkind, formsAfter_text hkind, ← List.append_assoc, ← escapeText_append hseams.1]
      exact ihTail hplacedTail hseams.2 hrest
    · rw [hasSeams_element htext, Bool.or_eq_false_iff] at hseams
      have hself : Written branches [t] := .cons kind leaf block outside inside body .nil
      have hends := endsText_markup htext hself ((markups true ts).toList ++ rest)
      have hbefore : Lexes false (escapeText before ++
          ((t.markup true).toList ++ ((markups true ts).toList ++ rest)))
          (textForms before) false _ := lexes_textForms hends
      have htail := ihTail hplacedTail hseams.2 hrest
      rw [formsAfter_element htext]
      refine hbefore.trans (Lexes.trans ?_ htail)
      rw [markup_element htext, forms_eq, closeTag_eq, String.append_assoc,
        String.toList_append, List.append_assoc]
      refine (Kind.lexes_openTag kind _).trans ?_
      rw [String.toList_append, List.append_assoc]
      by_cases hbody : t.kind.hasBody = true
      · rw [if_pos hbody]
        refine Lexes.trans (ihBody hplacedBody hseams.1 ?_) (lexes_close _)
        -- Either a closing tag comes next, or the element is a branch and the next branch does.
        cases hclose : t.kind.block? t.inBlock with
        | some b => exact endsText_tag (c := '/') (t :=
          b.keyword.toList) (by rw [String.toList_append]; rfl) (by decide) _
        | none =>
          obtain rfl : branches = true := hin.symm.trans (inBlock_of_block? hbody kind hclose)
          exact endsText_branches tail fun _ => hrest
      · rw [if_neg hbody, leaf (Bool.eq_false_iff.2 hbody)]
        exact lexes_close _

end

/-! ### Whole templates -/

/-- The elements that a whole template consists of. -/
def topmost (t : Tree) : List Tree :=
  match t.kind with
  | .sequence => t.children
  | _ => [t]

theorem topmost_sequence {t : Tree} (h : t.kind = .sequence) : t.topmost = t.children := by
  rw [topmost, h]

theorem topmost_of_ne {t : Tree} (h : t.kind ≠ .sequence) : t.topmost = [t] := by
  rw [topmost]
  split
  · next hkind => exact absurd hkind h
  · rfl

theorem fullCanonical_eq (t : Tree) : t.fullCanonical = markups true t.topmost := by
  by_cases h : t.kind = .sequence
  · have htext : ∀ s trimmed, t.kind ≠ .text s trimmed := by rw [h]; nofun
    rw [fullCanonical, topmost_sequence h, markup_element htext, h]
    simp [Kind.openTag, Kind.hasBody, closeTag]
  · rw [fullCanonical, topmost_of_ne h, markups, markups, String.append_empty]

theorem hasSeams_topmost {t : Tree} (h : Written false t.topmost) : hasSeams [] t.topmost = t.hasSeam := by
  by_cases hkind : t.kind = .sequence
  · rw [topmost_sequence hkind, hasSeam_eq]
  · rw [topmost_of_ne hkind] at h ⊢
    cases h with
    | cons _ leaf =>
      obtain ⟨s, trimmed, hkind⟩ | htext := t.kind.text_or_ne
      · rw [hasSeams_text hkind, hasSeam_eq, leaf (by rw [hkind]; rfl)]
        rfl
      · rw [hasSeams_element htext, hasSeam_eq, hasSeams, Bool.or_false]

end Stencil.Tree
