import Stencil.Proofs.Reading.Pieces

/-! # Lexing expressions and tags

The canonical forms of expressions and the tags of elements are read back as the tokens they were printed
from, wherever they stand in a text. -/

namespace Stencil

open Lexer

/-! ### Expressions -/

namespace Expr

/-- The characters that an expression can begin with. -/
def startsWith (c : Char) : Bool := isWordPart c || c = '"' || c = '!' || c = '('

theorem not_isBlank_of_startsWith {c : Char} (h : startsWith c = true) : Text.isBlank c = false := by
  simp only [startsWith, Bool.or_eq_true, decide_eq_true_eq] at h
  rcases h with ((h | rfl) | rfl) | rfl
  · exact not_isBlank_of_isWordPart h
  · decide
  · decide
  · decide

theorem canonical_head {n : Nat} {e : Expr} (h : e.Written n) :
    ∃ c cs, e.canonical.toList = c :: cs ∧ startsWith c = true := by
  have hword : ∀ {w : String}, IsWord w → ∃ c cs, w.toList = c :: cs ∧ startsWith c = true := by
    rintro w ⟨c, cs, hcs, hstart, -⟩
    exact ⟨c, cs, hcs, by simp only [startsWith, isWordPart, hstart, Bool.true_or]⟩
  have happend : ∀ {s : String} (t : String), (∃ c cs, s.toList = c :: cs ∧ startsWith c = true) →
      ∃ c cs, (s ++ t).toList = c :: cs ∧ startsWith c = true := by
    rintro s t ⟨c, cs, hcs, hstart⟩
    exact ⟨c, cs ++ t.toList, by rw [String.toList_append, hcs]; rfl, hstart⟩
  induction h with
  | string loc value => exact ⟨'"', _, by rw [canonical, quote, String.toList_ofList]; rfl, by decide⟩
  | @integer n loc value _ =>
    have hdigits : (toString (value : Int)).toList = Nat.toDigits 10 value := by
      rw [← Nat.toList_repr]
      rfl
    obtain ⟨c, cs, hcs⟩ := List.exists_cons_of_ne_nil
      (List.ne_nil_of_length_pos (Nat.length_toDigits_pos (b := 10) (n := value)))
    refine ⟨c, cs, hdigits.trans hcs, ?_⟩
    have hdigit := Nat.isDigit_of_mem_toDigits (by decide) (by decide) (hcs ▸ List.mem_cons_self)
    simp only [Char.isDigit, Bool.and_eq_true, decide_eq_true_eq] at hdigit
    have hdigit : isDigit c = true := isDigit_iff.2 hdigit
    simp only [startsWith, isWordPart, hdigit, Bool.or_true, Bool.true_or]
  | boolean loc value =>
    cases value with
    | true => exact hword (w := "true") (by decide)
    | false => exact hword (w := "false") (by decide)
  | null loc => exact hword (w := "null") (by decide)
  | var loc h => exact hword h.word
  | group loc h ih => exact happend _ (happend (s := "(") _ ⟨'(', [], rfl, by decide⟩)
  | dot loc h hkey ih => exact happend _ (happend _ ih)
  | eval loc h ih => exact happend _ ih
  | not loc hn h ih => exact happend (s := "!") _ ⟨'!', [], rfl, by decide⟩
  | binary loc hn hleft hright ihLeft ihRight => exact happend _ (happend _ (happend _ (happend _ ihLeft)))

theorem bounds_canonical {p : Char → Bool} (hp : ∀ c, startsWith c = true → p c = false) {n : Nat} {e : Expr}
    (h : e.Written n) (rest : List Char) : Bounds p (e.canonical.toList ++ rest) := by
  obtain ⟨c, cs, hcs, hstart⟩ := canonical_head h
  rw [hcs]
  rintro _ ⟨⟩
  exact hp c hstart

theorem token_mem_marks (op : BinaryOp) : op.token ∈ marks := by
  cases op <;> decide

theorem spelling_token (op : BinaryOp) : spelling op.token = op.symbol.toList := by
  cases op <;> rfl

theorem bounds_symbol (op : BinaryOp) (rest : List Char) :
    Bounds Text.isBlank (op.symbol.toList ++ rest) := by
  cases op <;> rintro _ ⟨⟩ <;> decide

/-- An expression is read back as its tokens, if no word goes on after it. -/
theorem lexes_canonical {n : Nat} {e : Expr} (h : e.Written n) {rest : List Char}
    (hrest : Bounds isWordPart rest) :
    Lexes true (e.canonical.toList ++ rest) e.forms true rest := by
  have hnot : ∀ {c : Char} {cs : List Char}, isWordPart c = false → Bounds isWordPart (c :: cs) := by
    rintro c cs hc _ ⟨⟩
    exact hc
  induction h generalizing rest with
  | string loc value => exact lexes_string value rest
  | @integer _ loc value _ => exact lexes_integer value hrest
  | boolean loc value =>
    cases value with
    | true => exact lexes_word (w := "true") (by decide) hrest
    | false => exact lexes_word (w := "false") (by decide) hrest
  | null loc => exact lexes_word (w := "null") (by decide) hrest
  | @var _ loc name h =>
    have hword := lexes_word h.word hrest
    rwa [h.free] at hword
  | group loc h ih =>
    simp only [canonical, String.toList_append, List.append_assoc]
    have hclose : Lexes true (")".toList ++ rest) [TokenKind.rightParen.form] true rest :=
      lexes_mark (by decide) rest
    exact (lexes_mark (show .leftParen ∈ marks by decide) _).trans ((ih (hnot (by decide))).trans hclose)
  | @dot _ loc target key h hkey ih =>
    simp only [canonical, String.toList_append, List.append_assoc]
    have hname := lexes_word hkey.word hrest
    rw [hkey.free] at hname
    have hdot : Lexes true (".".toList ++ (key.toList ++ rest)) [TokenKind.dot.form] true
        (key.toList ++ rest) :=
      lexes_mark (by decide) _
    exact (ih (hnot (by decide))).trans (hdot.trans hname)
  | eval loc h ih =>
    simp only [canonical, String.toList_append, List.append_assoc]
    have hquestion : Lexes true ("?eval".toList ++ rest) [TokenKind.question.form] true
        ("eval".toList ++ rest) :=
      lexes_mark (show .question ∈ marks by decide) _
    have hname : Lexes true ("eval".toList ++ rest) [(.identifier, "eval")] true rest :=
      lexes_word (w := "eval") (by decide) hrest
    exact (ih (hnot (by decide))).trans (hquestion.trans hname)
  | @not _ loc operand hn h ih =>
    simp only [canonical, String.toList_append, List.append_assoc]
    have hhead : (operand.canonical.toList ++ rest).head? ≠ some '=' := by
      obtain ⟨c, cs, hcs, hstart⟩ := canonical_head h
      rw [hcs]
      rintro ⟨⟩
      exact absurd hstart (by decide)
    exact (lexes_bang hhead).trans (ih hrest)
  | @binary _ loc op left right hn hleft hright ihLeft ihRight =>
    simp only [canonical, String.toList_append, List.append_assoc]
    have hsymbol : Lexes true (op.symbol.toList ++ (" ".toList ++ (right.canonical.toList ++ rest)))
        [op.token.form] true
        (" ".toList ++ (right.canonical.toList ++ rest)) := by
      rw [← spelling_token]
      exact lexes_mark (token_mem_marks op) _
    have hblanks : ∀ {cs : List Char}, Bounds Text.isBlank cs →
      Lexes true (" ".toList ++ cs) [] true cs := lexes_blank
    have hright := (hblanks (bounds_canonical (fun c => not_isBlank_of_startsWith) hright rest)).trans
      (ihRight hrest)
    exact (ihLeft (hnot (by decide))).trans ((hblanks (bounds_symbol op _)).trans (hsymbol.trans hright))

end Expr

/-! ### Tags -/

def Branch.word : Branch → String
  | main => "if"
  | elseIf => "elseif"
  | otherwise => "else"

/-- The tokens of the arguments of a call. -/
def argumentForms : List Expr → List Form
  | [] => []
  | [e] => e.forms
  | e :: es => e.forms ++ TokenKind.comma.form :: argumentForms es

namespace Kind

/-- The tokens of a tag around those of its content. -/
def tagForms (content : List Form) : List Form :=
  TokenKind.opening.form :: (content ++ [TokenKind.closing.form])

def directiveForms (word : String) (content : List Form) : List Form :=
  tagForms (TokenKind.hash.form :: (.identifier, word) :: content)

/-- The tokens that begin an element. -/
def openForms : Kind → List Form
  | sequence | text _ _ | ifBlock => []
  | interpolation e => tagForms e.forms
  | conditional branch condition => directiveForms branch.word ((condition.map Expr.forms).getD [])
  | list source item => directiveForms "list" (source.forms ++ [(.keywordAs, "as"), (.identifier, item)])
  | assignment target value => directiveForms "assign"
    ((.identifier, target) :: TokenKind.equal.form :: value.forms)
  | capture target => directiveForms "assign" [(.identifier, target)]
  | definition name parameters => directiveForms "macro" ((name :: parameters).map fun p => (.identifier, p))
  | call name arguments => tagForms (TokenKind.atSign.form :: (.identifier, name) :: argumentForms arguments)
  | inclusion path => directiveForms "include" path.forms
  | comment t => [(.comment, t)]

/-- The block that the tag after the body of an element closes, if there is such a tag. -/
def block? (inBlock : Bool) : Kind → Option Block
  | ifBlock => some .conditional
  | conditional _ _ => if inBlock then none else some .conditional
  | list _ _ => some .list
  | capture _ => some .assign
  | definition _ _ => some .definition
  | _ => none

def closeForms (b : Block) : List Form :=
  tagForms [TokenKind.slash.form, (.identifier, b.keyword)]

end Kind

theorem Tree.closeTag_eq (kind : Kind) (inBlock : Bool) :
    closeTag kind inBlock = ((kind.block? inBlock).map fun b => Kind.tag ("/" ++ b.keyword)).getD "" := by
  cases kind <;> cases inBlock <;> rfl

theorem IsName.lexes {name : String} (h : IsName name) {rest : List Char} (hrest : Bounds isWordPart rest) :
    Lexes true (name.toList ++ rest) [(.identifier, name)] true rest := by
  have hword := lexes_word h.word hrest
  rwa [h.free] at hword

theorem IsName.bounds {name : String} (h : IsName name) (rest : List Char) :
    Bounds Text.isBlank (name.toList ++ rest) := by
  obtain ⟨c, cs, hcs, hstart, -⟩ := h.word
  rw [hcs]
  rintro _ ⟨⟩
  exact not_isBlank_of_isWordPart (by rw [isWordPart, hstart, Bool.true_or])

theorem isName_of_mem {name : String}
    (h : name ∈ ["if", "elseif", "else", "list", "assign", "macro", "include"]) :
    IsName name := by
  simp only [List.mem_cons, List.not_mem_nil, or_false] at h
  rcases h with rfl | rfl | rfl | rfl | rfl | rfl | rfl
  all_goals decide

theorem bounds_blank (rest : List Char) : Bounds isWordPart (' ' :: rest) := by
  rintro _ ⟨⟩
  decide

theorem bounds_closing (rest : List Char) : Bounds isWordPart (']' :: rest) := by
  rintro _ ⟨⟩
  decide

/-- What some texts in a row begin with is what the first of them begins with. -/
theorem bounds_intercalate {p : Char → Bool} {s : String} (h : ∀ rest, Bounds p (s.toList ++ rest))
    (separator : String) (ss : List String) (rest : List Char) :
    Bounds p ((separator.intercalate (s :: ss)).toList ++ rest) := by
  cases ss with
  | nil =>
    rw [String.intercalate_singleton]
    exact h rest
  | cons next ss =>
    rw [String.intercalate_cons_cons, String.append_assoc, String.toList_append, List.append_assoc]
    exact h _

theorem bounds_arguments {e : Expr} (h : e.Written 0) (es : List Expr) (rest : List Char) :
    Bounds Text.isBlank ((", ".intercalate ((e :: es).map Expr.canonical)).toList ++ rest) :=
  bounds_intercalate (Expr.bounds_canonical (fun _ => Expr.not_isBlank_of_startsWith) h) _ _ rest

theorem lexes_names {name : String} {names : List String} (h : ∀ n ∈ name :: names, IsName n)
    {rest : List Char} (hrest : Bounds isWordPart rest) :
    Lexes true ((" ".intercalate (name :: names)).toList ++ rest)
      ((name :: names).map fun n => (TokenKind.identifier, n)) true rest := by
  induction names generalizing name with
  | nil =>
    rw [String.intercalate_singleton]
    exact (h name List.mem_cons_self).lexes hrest
  | cons next names ih =>
    have hlater := ih fun n hn => h n (List.mem_cons_of_mem name hn)
    have hnext : IsName next := h next (List.mem_cons_of_mem name List.mem_cons_self)
    have hbounds : Bounds Text.isBlank ((" ".intercalate (next :: names)).toList ++ rest) :=
      bounds_intercalate hnext.bounds _ _ rest
    have hblank : Lexes true (" ".toList ++ ((" ".intercalate (next :: names)).toList ++ rest)) [] true
        ((" ".intercalate (next :: names)).toList ++ rest) := lexes_blank hbounds
    simp only [String.intercalate_cons_cons, String.toList_append, List.append_assoc]
    exact ((h name List.mem_cons_self).lexes (bounds_blank _)).trans (hblank.trans hlater)

theorem lexes_arguments {e : Expr} {es : List Expr} (h : ∀ e' ∈ e :: es, e'.Written 0) {rest : List Char}
    (hrest : Bounds isWordPart rest) :
    Lexes true ((", ".intercalate ((e :: es).map Expr.canonical)).toList ++ rest)
      (argumentForms (e :: es)) true rest := by
  induction es generalizing e with
  | nil =>
    rw [List.map_singleton, String.intercalate_singleton]
    exact Expr.lexes_canonical (h e List.mem_cons_self) hrest
  | cons next es ih =>
    have hlater := ih fun e' he' => h e' (List.mem_cons_of_mem e he')
    have hnext := h next (List.mem_cons_of_mem e List.mem_cons_self)
    have hbounds := bounds_arguments hnext es rest
    have hcomma : Lexes true (", ".toList ++
        ((", ".intercalate ((next :: es).map Expr.canonical)).toList ++ rest))
        [TokenKind.comma.form] true ((", ".intercalate ((next :: es).map Expr.canonical)).toList ++ rest) :=
      (lexes_mark (show .comma ∈ marks by decide) _).trans (lexes_blank hbounds)
    have hcommaBounds : Bounds isWordPart
        (", ".toList ++ ((", ".intercalate ((next :: es).map Expr.canonical)).toList ++ rest)) := by
      rintro _ ⟨⟩
      decide
    have hfirst := Expr.lexes_canonical (h e List.mem_cons_self) hcommaBounds
    simp only [List.map_cons, String.intercalate_cons_cons, String.toList_append,
      List.append_assoc, argumentForms] at *
    exact hfirst.trans (hcomma.trans hlater)

namespace Kind

theorem lexes_tag {s : String} {fs : List Form} {c : Char} {t : List Char} (hs : s.toList = c :: t)
    (hc : c ≠ '\x7b' ∧ c ≠ '%') (hmark : ∀ rest, markAfterBlanks? (s.toList ++ rest) = none)
    (h : ∀ rest, Lexes true (s.toList ++ ']' :: '\x7d' :: rest) fs true (']' :: '\x7d' :: rest))
    (rest : List Char) :
    Lexes false ((tag s).toList ++ rest) (tagForms fs) false rest := by
  have hinside := h rest
  have hblanks := hmark (']' :: '\x7d' :: rest)
  have hchars : (tag s).toList ++ rest = '\x7b' :: '[' :: (s.toList ++ ']' :: '\x7d' :: rest) := by
    simp only [tag, String.toList_append, List.append_assoc]
    rfl
  rw [hs, List.cons_append] at hinside hblanks
  rw [hchars, hs, List.cons_append]
  exact (lexes_opening hc hblanks).trans (hinside.trans (lexes_closing rest))

theorem markAfterBlanks?_eq_none {c : Char} (h : Text.isBlank c = false) (cs : List Char) :
    markAfterBlanks? (c :: cs) = none := by
  unfold markAfterBlanks?
  split
  · next hc _ =>
    obtain ⟨rfl, -⟩ := List.cons.inj hc
    rw [h]
    rfl
  · rfl

theorem markAfterBlanks?_of_dropWhile {c d : Char} {cs ds : List Char}
    (hdrop : (c :: cs).dropWhile Text.isBlank = d :: ds) (hd : isMark d = false) :
    markAfterBlanks? (c :: cs) = none := by
  unfold markAfterBlanks?
  rw [hdrop]
  simp only [hd, Bool.and_false]
  rfl

theorem markAfterBlanks?_blank {c : Char} (hblank : Text.isBlank c = false)
    (hmark : isMark c = false) (cs : List Char) :
    markAfterBlanks? (' ' :: c :: cs) = none := by
  have hspace : Text.isBlank ' ' = true := by decide
  have hdrop : (' ' :: c :: cs).dropWhile Text.isBlank = c :: cs := by
    rw [List.dropWhile_cons, hspace, if_pos rfl, List.dropWhile_cons, hblank, if_neg Bool.false_ne_true]
  exact markAfterBlanks?_of_dropWhile hdrop hmark

theorem lexes_directive {word s : String} {t : List Char} {fs : List Form}
    (hs : s.toList = '#' :: (word.toList ++ t)) (hword : IsName word) (ht : Bounds isWordPart t)
    (h : ∀ rest, Lexes true (t ++ ']' :: '\x7d' :: rest) fs true (']' :: '\x7d' :: rest)) (rest : List Char) :
    Lexes false ((tag s).toList ++ rest) (directiveForms word fs) false rest := by
  refine lexes_tag hs (by decide) (fun rest => ?_) (fun rest => ?_) rest
  · rw [hs]
    exact markAfterBlanks?_eq_none (by decide) _
  · have hbounds : Bounds isWordPart (t ++ ']' :: '\x7d' :: rest) := by
      cases t with
      | nil => exact bounds_closing _
      | cons c t => exact ht
    rw [hs, List.cons_append, List.append_assoc]
    exact (lexes_mark (show .hash ∈ marks by decide) _).trans ((hword.lexes hbounds).trans (h rest))

theorem lexes_spaced {e : Expr} (h : e.Written 0) {rest : List Char} (hrest : Bounds isWordPart rest) :
    Lexes true (' ' :: (e.canonical.toList ++ rest)) e.forms true rest :=
  (lexes_blank (Expr.bounds_canonical (fun _ => Expr.not_isBlank_of_startsWith) h rest)).trans
    (Expr.lexes_canonical h hrest)

theorem lexes_spacedName {name : String} (h : IsName name) {rest : List Char}
    (hrest : Bounds isWordPart rest) :
    Lexes true (' ' :: (name.toList ++ rest)) [(.identifier, name)] true rest :=
  (lexes_blank (h.bounds rest)).trans (h.lexes hrest)

theorem lexes_interpolationTag {e : Expr} (h : e.Written 0) (rest : List Char) :
    Lexes false ((interpolation e).openTag.toList ++ rest) (interpolation e).openForms false rest := by
  refine lexes_tag (c := ' ') (t := e.canonical.toList ++ [' ']) ?_ (by decide) (fun rest => ?_)
    (fun rest => ?_) rest
  · simp only [String.toList_append, List.append_assoc]
    rfl
  · -- No expression begins with a mark that trims the blanks before it.
    obtain ⟨c, cs, hcs, hstart⟩ := Expr.canonical_head h
    have hmark : isMark c = false := by
      rw [Bool.eq_false_iff]
      intro hmark
      simp only [isMark, Bool.or_eq_true, decide_eq_true_eq] at hmark
      rcases hmark with (rfl | rfl) | rfl <;> exact absurd hstart (by decide)
    rw [String.toList_append, String.toList_append, hcs, List.append_assoc, List.append_assoc]
    exact markAfterBlanks?_blank (Expr.not_isBlank_of_startsWith hstart) hmark _
  · simp only [String.toList_append, List.append_assoc]
    have hblank : Lexes true (" ".toList ++ ']' :: '\x7d' :: rest) [] true (']' :: '\x7d' :: rest) :=
      lexes_blank (by rintro _ ⟨⟩; decide)
    have hvalue := (lexes_spaced h (bounds_blank (']' :: '\x7d' :: rest))).trans hblank
    rwa [List.append_nil] at hvalue

theorem lexes_conditionalTag (branch : Branch) {condition : Option Expr}
    (h : ∀ c, condition = some c → c.Written 0) (rest : List Char) :
    Lexes false ((conditional branch condition).openTag.toList ++ rest)
      (conditional branch condition).openForms false rest := by
  have hword : IsName branch.word := isName_of_mem (by cases branch <;> decide)
  cases condition with
  | none =>
    refine lexes_directive (t := []) ?_ hword (by rintro _ ⟨⟩) (fun rest => .self true _) rest
    cases branch <;> rfl
  | some c =>
    refine lexes_directive (t := ' ' :: c.canonical.toList) ?_ hword (bounds_blank _) (fun rest => ?_) rest
    · simp only [String.toList_append, List.append_assoc]
      cases branch <;> rfl
    · exact lexes_spaced (h c rfl) (bounds_closing _)

theorem lexes_listTag {source : Expr} {item : String} (hsource : source.Written 0) (hitem : IsName item)
    (rest : List Char) :
    Lexes false ((list source item).openTag.toList ++ rest) (list source item).openForms false rest := by
  refine lexes_directive (t := ' ' :: (source.canonical.toList ++ (" as ".toList ++ item.toList))) ?_
    (isName_of_mem (by decide)) (bounds_blank _) (fun rest => ?_) rest
  · simp only [String.toList_append, List.append_assoc]
    rfl
  · simp only [List.cons_append, List.append_assoc]
    have hspace : Bounds Text.isBlank ("as".toList ++ ' ' :: (item.toList ++ ']' :: '\x7d' :: rest)) := by
      rintro _ ⟨⟩
      decide
    have has : Lexes true (" as ".toList ++ (item.toList ++ ']' :: '\x7d' :: rest)) [(.keywordAs, "as")] true
        (' ' :: (item.toList ++ ']' :: '\x7d' :: rest)) :=
      (lexes_blank hspace).trans (lexes_word (w := "as") (by decide) (bounds_blank _))
    exact (lexes_spaced hsource (bounds_blank _)).trans
      (has.trans (lexes_spacedName hitem (bounds_closing _)))

theorem lexes_assignmentTag {target : String} {e : Expr} (htarget : IsName target) (he : e.Written 0)
    (rest : List Char) :
    Lexes false ((assignment target e).openTag.toList ++ rest)
      (assignment target e).openForms false rest := by
  refine lexes_directive (t := ' ' :: (target.toList ++ (" = ".toList ++ e.canonical.toList))) ?_
    (isName_of_mem (by decide)) (bounds_blank _) (fun rest => ?_) rest
  · simp only [String.toList_append, List.append_assoc]
    rfl
  · simp only [List.cons_append, List.append_assoc]
    have hspace : Bounds Text.isBlank ('=' :: ' ' :: (e.canonical.toList ++ ']' :: '\x7d' :: rest)) := by
      rintro _ ⟨⟩
      decide
    have hequal : Lexes true (" = ".toList ++ (e.canonical.toList ++ ']' :: '\x7d' :: rest))
        [TokenKind.equal.form] true
        (' ' :: (e.canonical.toList ++ ']' :: '\x7d' :: rest)) :=
      (lexes_blank hspace).trans (lexes_equal (by rintro ⟨⟩))
    exact (lexes_spacedName htarget (bounds_blank _)).trans
      (hequal.trans (lexes_spaced he (bounds_closing _)))

theorem lexes_definitionTag {name : String} {parameters : List String}
    (h : ∀ n ∈ name :: parameters, IsName n) (rest : List Char) :
    Lexes false ((definition name parameters).openTag.toList ++ rest)
      (definition name parameters).openForms false rest := by
  refine lexes_directive (t := ' ' :: (" ".intercalate (name :: parameters)).toList) ?_
    (isName_of_mem (by decide))
    (bounds_blank _) (fun rest => ?_) rest
  · simp only [String.toList_append]
    rfl
  · have hbounds := bounds_intercalate (h name List.mem_cons_self).bounds " " parameters
      (']' :: '\x7d' :: rest)
    exact (lexes_blank hbounds).trans (lexes_names h (bounds_closing _))

theorem lexes_callTag {name : String} {arguments : List Expr} (hname : IsName name)
    (h : ∀ e ∈ arguments, e.Written 0) (rest : List Char) :
    Lexes false ((call name arguments).openTag.toList ++ rest)
      (call name arguments).openForms false rest := by
  have hat : ∀ {cs : List Char}, Lexes true ('@' :: cs) [TokenKind.atSign.form] true cs :=
    lexes_mark (show .atSign ∈ marks by decide) _
  cases arguments with
  | nil =>
    refine lexes_tag (c := '@') (t := name.toList) ?_ (by decide) (fun rest => ?_) (fun rest => ?_) rest
    · rw [String.toList_append]
      rfl
    · rw [String.toList_append]
      exact markAfterBlanks?_eq_none (by decide) _
    · rw [String.toList_append, List.append_assoc]
      exact hat.trans (hname.lexes (bounds_closing _))
  | cons e es =>
    refine lexes_tag (c := '@') (t := name.toList ++
      (" ".toList ++ (", ".intercalate ((e :: es).map Expr.canonical)).toList))
      ?_ (by decide) (fun rest => ?_) (fun rest => ?_) rest
    · simp only [String.toList_append, List.append_assoc]
      rfl
    · simp only [String.toList_append, List.append_assoc]
      exact markAfterBlanks?_eq_none (by decide) _
    · simp only [String.toList_append, List.append_assoc]
      have hbounds := bounds_arguments (h e List.mem_cons_self) es (']' :: '\x7d' :: rest)
      have hspaced := (lexes_blank hbounds).trans (lexes_arguments h (bounds_closing ('\x7d' :: rest)))
      exact hat.trans ((hname.lexes (bounds_blank _)).trans hspaced)

/-- The tag that begins an element is read back as its tokens. -/
theorem lexes_openTag {kind : Kind} (h : kind.Written) (rest : List Char) :
    Lexes false (kind.openTag.toList ++ rest) kind.openForms false rest := by
  cases kind with
  | sequence | text | ifBlock => exact .self false rest
  | interpolation e => exact lexes_interpolationTag h rest
  | conditional branch condition => exact lexes_conditionalTag branch h.2 rest
  | list source item => exact lexes_listTag h.1 h.2 rest
  | assignment target e => exact lexes_assignmentTag h.1 h.2 rest
  | capture target =>
    refine lexes_directive (t := ' ' :: target.toList) ?_ (isName_of_mem (by decide)) (bounds_blank _)
      (fun rest => ?_) rest
    · rw [String.toList_append]
      rfl
    · exact lexes_spacedName h (bounds_closing _)
  | definition name parameters => exact lexes_definitionTag (List.forall_mem_cons.2 ⟨h.1, h.2.1⟩) rest
  | call name arguments => exact lexes_callTag h.1 h.2 rest
  | inclusion path =>
    refine lexes_directive (t := ' ' :: path.canonical.toList) ?_ (isName_of_mem (by decide)) (bounds_blank _)
      (fun rest => ?_) rest
    · rw [String.toList_append]
      rfl
    · exact lexes_spaced h (bounds_closing _)
  | comment t =>
    have hcomment := lexes_comment h rest
    rw [String.ofList_toList] at hcomment
    simp only [openTag, tag, String.toList_append, List.append_assoc]
    exact hcomment

theorem lexes_closeTag (b : Block) (rest : List Char) :
    Lexes false ((tag ("/" ++ b.keyword)).toList ++ rest) (closeForms b) false rest := by
  have hname : IsName b.keyword := isName_of_mem (by cases b <;> decide)
  refine lexes_tag (c := '/') (t := b.keyword.toList) ?_ (by decide) (fun rest => ?_) (fun rest => ?_) rest
  · rw [String.toList_append]
    rfl
  · rw [String.toList_append]
    exact markAfterBlanks?_eq_none (by decide) _
  · rw [String.toList_append, List.append_assoc]
    exact (lexes_mark (show .slash ∈ marks by decide) _).trans (hname.lexes (bounds_closing _))

end Kind

end Stencil
