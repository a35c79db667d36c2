import Stencil.ParseError
import Stencil.Text.Blank
import Stencil.Text.Quoted

/-!
# Lexer

Splits a text into tokens. Outside tags all characters up to the next tag or comment are one text
token, in which `{[{]}` stands for `{[`; inside tags blanks separate the tokens. The lexer reads the
text piece by piece: every piece is a stretch of the text that stands for one token or, between the
tokens of a tag, for none.
-/

namespace Stencil.Lexer

/-- Where the lexer stands. -/
inductive Mode
  /-- Outside tags. -/
  | text
  /-- In a tag that was opened at the position. -/
  | tag (opened : Position)
  /-- In an expression that stands alone. -/
  | expression
deriving DecidableEq, Repr, Inhabited

/-- A stretch of the text, what it stands for, and the text after it. -/
structure Piece where
  raw : List Char
  token : Option (TokenKind × List Char)
  rest : List Char
deriving DecidableEq, Repr, Inhabited

/-- Puts characters in front of a piece of text. -/
def Piece.push (raw value : List Char) (p : Piece) : Piece :=
  { p with raw := raw ++ p.raw, token := p.token.map fun t => (t.1, value ++ t.2) }

/-- The characters that open a tag. -/
def openMark : List Char := ['\x7b', '[']

/-- The characters that stand for `openMark` in text. -/
def escapedOpenMark : List Char := ['\x7b', '[', '\x7b', ']', '\x7d']

/-- Text up to the next tag or comment. -/
def textRun : List Char → Piece
  | [] => ⟨[], some (.text, []), []⟩
  | '\x7b' :: '[' :: '\x7b' :: ']' :: '\x7d' :: cs => (textRun cs).push escapedOpenMark openMark
  | '\x7b' :: '[' :: cs => ⟨[], some (.text, []), '\x7b' :: '[' :: cs⟩
  | c :: cs => (textRun cs).push [c] [c]

/-- The text of a comment up to its closing brackets, which the piece includes; `none` when they
are missing. -/
def commentRun : List Char → Option Piece
  | [] => none
  | ']' :: '\x7d' :: cs => some ⟨[']', '\x7d'], some (.comment, []), cs⟩
  | c :: cs => (commentRun cs).map (·.push [c] [c])

def isDigit (c : Char) : Bool := '0' ≤ c && c ≤ '9'

def isWordStart (c : Char) : Bool :=
  ('a' ≤ c && c ≤ 'z') || ('A' ≤ c && c ≤ 'Z') || c = '_'

def isWordPart (c : Char) : Bool := isWordStart c || isDigit c

/-- The kind of the punctuation at the beginning of a text; of two that fit, the longer one. -/
def punctuation? : List Char → Option TokenKind
  | ']' :: '\x7d' :: _ => some .closing
  | '=' :: '=' :: _ => some .equalEqual
  | '!' :: '=' :: _ => some .notEqual
  | '&' :: '&' :: _ => some .andAnd
  | '|' :: '|' :: _ => some .orOr
  | '#' :: _ => some .hash
  | '/' :: _ => some .slash
  | '@' :: _ => some .atSign
  | '.' :: _ => some .dot
  | ',' :: _ => some .comma
  | '+' :: _ => some .plus
  | '(' :: _ => some .leftParen
  | ')' :: _ => some .rightParen
  | '?' :: _ => some .question
  | '=' :: _ => some .equal
  | '!' :: _ => some .bang
  | _ => none

/-- The characters of a kind that is always written alike. -/
def spelling (kind : TokenKind) : List Char := (kind.spelling?.getD "").toList

/-- A character that marks a directive, a closing directive or a macro call. -/
def isMark (c : Char) : Bool := c = '#' || c = '/' || c = '@'

/-- The mark that follows the blanks at the beginning of a text, if there are blanks and a mark. -/
def markAfterBlanks? (cs : List Char) : Option Char :=
  match cs, cs.dropWhile Text.isBlank with
  | c :: _, m :: _ => if Text.isBlank c && isMark m then some m else none
  | _, _ => none

/-- The next piece outside tags: a comment, the opening brackets of a tag, or text. -/
def scanText (here : Position) (cs : List Char) : Except ParseError Piece :=
  match cs with
  | '\x7b' :: '[' :: '\x7b' :: ']' :: '\x7d' :: _ => .ok (textRun cs)
  | '\x7b' :: '[' :: '%' :: rest =>
    match commentRun rest with
    | some p => .ok { p with raw := '\x7b' :: '[' :: '%' :: p.raw }
    | none => .error ⟨.unterminated .comment, here⟩
  | '\x7b' :: '[' :: rest =>
    match markAfterBlanks? rest with
    | some m => .error ⟨.blankBeforeMark m, here.after openMark⟩
    | none => .ok ⟨openMark, some (.opening, openMark), rest⟩
  | _ => .ok (textRun cs)

/-- The next piece of a tag that begins with the character `c`. -/
def scanTag (here : Position) (c : Char) (cs : List Char) : Except ParseError Piece :=
  if Text.isBlank c then
    .ok ⟨c :: cs.takeWhile Text.isBlank, none, cs.dropWhile Text.isBlank⟩
  else
    match punctuation? (c :: cs) with
    | some kind => .ok ⟨spelling kind, some (kind, spelling kind), cs.drop ((spelling kind).length - 1)⟩
    | none =>
      if c = '"' then
        match Text.Quoted.decode cs with
        | some l => .ok ⟨c :: l.written, some (.string, l.value), l.rest⟩
        | none => .error ⟨.unterminated .stringLiteral, here⟩
      else if isDigit c then
        let digits := c :: cs.takeWhile isDigit
        .ok ⟨digits, some (.integer, digits), cs.dropWhile isDigit⟩
      else if isWordStart c then
        let word := c :: cs.takeWhile isWordPart
        .ok ⟨word, some (.ofWord (String.ofList word), word), cs.dropWhile isWordPart⟩
      else .error ⟨.unexpectedCharacter c, here⟩

/-- The next piece of a text that begins with the character `c`. -/
def scan (mode : Mode) (here : Position) (c : Char) (cs : List Char) : Except ParseError Piece :=
  match mode with
  | .text => scanText here (c :: cs)
  | _ => scanTag here c cs

/-- Where the lexer stands after a piece that began at `here`. -/
def Mode.after (mode : Mode) (here : Position) (p : Piece) : Mode :=
  match mode, p.token with
  | .text, some (.opening, _) => .tag here
  | .tag _, some (.closing, _) => .text
  | _, _ => mode

/-- The token that a piece stands for when it begins at `here`. -/
def Piece.token? (here : Position) (p : Piece) : Option Token :=
  p.token.map fun (kind, value) => ⟨kind, String.ofList value, here, here.last p.raw⟩

theorem length_rest_textRun (cs : List Char) : (textRun cs).rest.length ≤ cs.length := by
  fun_induction textRun cs with
  | case1 => simp
  | case2 cs ih => simp only [Piece.push, List.length_cons]; omega
  | case3 => simp
  | case4 c cs _ _ ih => simp only [Piece.push, List.length_cons]; omega

theorem length_rest_commentRun {cs : List Char} {p : Piece} (h : commentRun cs = some p) :
    p.rest.length ≤ cs.length := by
  fun_induction commentRun cs generalizing p with
  | case1 => simp at h
  | case2 cs => simp only [Option.some.injEq] at h; subst h; simp only [List.length_cons]; omega
  | case3 c cs _ ih =>
    obtain ⟨q, hq, rfl⟩ := Option.map_eq_some_iff.1 h
    have := ih hq
    simp only [Piece.push, List.length_cons]; omega

theorem length_rest_decode {cs : List Char} {l : Text.Quoted.Literal}
    (h : Text.Quoted.decode cs = some l) : l.rest.length ≤ cs.length := by
  rw [← Text.Quoted.written_append_rest h, List.length_append]; omega

/-- Outside tags, text that does not open a tag is read up to its next tag. -/
theorem length_rest_textRun_lt {c : Char} {cs : List Char}
    (h : ∀ r, c = '\x7b' → cs = '[' :: r → ∃ r', r = '\x7b' :: ']' :: '\x7d' :: r') :
    (textRun (c :: cs)).rest.length < (c :: cs).length := by
  unfold textRun
  split
  · next e => cases e
  · next r e =>
    cases e
    have := length_rest_textRun r
    simp only [Piece.push, List.length_cons]; omega
  · next r ne e =>
    cases e
    obtain ⟨r', rfl⟩ := h r rfl rfl
    exact absurd rfl (ne r')
  · next d ds _ _ e =>
    cases e
    have := length_rest_textRun cs
    simp only [Piece.push, List.length_cons]; omega

/-- Every piece takes at least one character. -/
theorem length_rest_scan {mode : Mode} {here : Position} {c : Char} {cs : List Char} {p : Piece}
    (h : scan mode here c cs = .ok p) : p.rest.length < (c :: cs).length := by
  have dropped : ∀ (q : Char → Bool), (cs.dropWhile q).length ≤ cs.length := fun q =>
    (List.dropWhile_sublist q).length_le
  have tagged : ∀ m, m ≠ Mode.text → scan m here c cs = .ok p →
      p.rest.length < (c :: cs).length := by
    intro m hm h
    have h : scanTag here c cs = .ok p := by
      cases m with
      | text => exact absurd rfl hm
      | tag _ => exact h
      | expression => exact h
    unfold scanTag at h
    split at h
    · cases h; have := dropped Text.isBlank; simp only [List.length_cons]; omega
    · split at h
      · cases h; simp only [List.length_drop, List.length_cons]; omega
      · split at h
        · split at h
          · next l hl => cases h; have := length_rest_decode hl; simp only [List.length_cons]; omega
          · cases h
        · split at h
          · cases h; have := dropped isDigit; simp only [List.length_cons]; omega
          · split at h
            · cases h; have := dropped isWordPart; simp only [List.length_cons]; omega
            · cases h
  cases mode with
  | tag o => exact tagged _ (by simp) h
  | expression => exact tagged _ (by simp) h
  | text =>
    change scanText here (c :: cs) = .ok p at h
    unfold scanText at h
    split at h
    · next r e => cases e; cases h; exact length_rest_textRun_lt (by simp)
    · next r e =>
      cases e
      split at h
      · next q hq => cases h; have := length_rest_commentRun hq; simp only [List.length_cons]; omega
      · cases h
    · next r _ _ e =>
      cases e
      split at h
      · cases h
      · cases h; simp only [List.length_cons]; omega
    · next ne₁ ne₂ ne₃ =>
      cases h
      refine length_rest_textRun_lt ?_
      rintro r rfl rfl
      exact absurd rfl (ne₃ r)

/-- The tokens of the text that begins at `here`, with the end of the input last. -/
def tokensFrom (mode : Mode) (here : Position) (cs : List Char) : Except ParseError (List Token) :=
  match cs with
  | [] =>
    match mode with
    | .tag opened => .error ⟨.unterminated .tag, opened⟩
    | _ => .ok [⟨.eof, "", here, here⟩]
  | c :: cs =>
    match _h : scan mode here c cs with
    | .error e => .error e
    | .ok p =>
      match tokensFrom (mode.after here p) (here.after p.raw) p.rest with
      | .error e => .error e
      | .ok tokens => .ok ((p.token? here).toList ++ tokens)
termination_by cs.length
decreasing_by exact length_rest_scan _h

end Stencil.Lexer

namespace Stencil

def tokenize (text : String) : Except ParseError (List Token) :=
  Lexer.tokensFrom .text .start text.toList

/-- The tokens of an expression that stands alone and whose first line is `firstLine`. -/
def tokenizeExpression (text : String) (firstLine : Int) : Except ParseError (List Token) :=
  Lexer.tokensFrom .expression ⟨firstLine, 1⟩ text.toList

end Stencil
