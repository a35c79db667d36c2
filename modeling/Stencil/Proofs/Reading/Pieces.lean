import Stencil.Proofs.Reading.Expressions

/-! # Lexing what is printed

What the lexer makes of the pieces that templates are printed with. Every piece is read for itself; all
that counts of the text after it is that it does not go on with the piece. -/

namespace Stencil.Lexer

/-! ### Steps of the lexer -/

/-- Whether the lexer stands in a tag or outside of tags. -/
def Mode.At (inTag : Bool) (mode : Mode) : Prop :=
  match inTag with
  | false => mode = .text
  | true => ∃ opened, mode = .tag opened

/-- The lexer takes tokens of the given forms and then goes on with the rest of the text. -/
def Lexes (inTag : Bool) (cs : List Char) (fs : List Form) (inTag' : Bool) (rest : List Char) : Prop :=
  ∀ mode here, Mode.At inTag mode → ∃ mode' here' front, Mode.At inTag' mode' ∧ front.map Token.form = fs ∧
    tokensFrom mode here cs = (tokensFrom mode' here' rest).map (front ++ ·)

section
variable {inTag inTag' inTag'' : Bool} {cs ds rest : List Char} {fs gs : List Form}

theorem Lexes.self (inTag : Bool) (cs : List Char) : Lexes inTag cs [] inTag cs := by
  intro mode here hmode
  refine ⟨mode, here, [], hmode, rfl, ?_⟩
  cases tokensFrom mode here cs <;> rfl

theorem Lexes.trans (h : Lexes inTag cs fs inTag' ds) (h' : Lexes inTag' ds gs inTag'' rest) :
    Lexes inTag cs (fs ++ gs) inTag'' rest := by
  intro mode here hmode
  obtain ⟨mode', here', front, hmode', hfront, heq⟩ := h mode here hmode
  obtain ⟨mode'', here'', front', hmode'', hfront', heq'⟩ := h' mode' here' hmode'
  refine ⟨mode'', here'', front ++ front', hmode'', by rw [List.map_append, hfront, hfront'], ?_⟩
  rw [heq, heq']
  cases tokensFrom mode'' here'' rest with
  | error e => rfl
  | ok ts => simp only [Except.map, List.append_assoc]

theorem tokensFrom_cons {mode : Mode} {here : Position} {c : Char} {cs : List Char} {p : Piece}
    (h : scan mode here c cs = .ok p) : tokensFrom mode here (c :: cs) =
      (tokensFrom (mode.after here p) (here.after p.raw) p.rest).map ((p.token? here).toList ++ ·) := by
  rw [tokensFrom]
  split
  · next e he => rw [h] at he; cases he
  · next q hq =>
    rw [h] at hq
    obtain rfl := Except.ok.inj hq
    cases tokensFrom (mode.after here p) (here.after p.raw) p.rest <;> rfl

/-- The form of the token of a piece. -/
def Piece.forms (p : Piece) : List Form := (p.token.map fun t => (t.1, String.ofList t.2)).toList

theorem Piece.map_form_token (p : Piece) (here : Position) :
    (p.token? here).toList.map Token.form = p.forms := by
  rw [Piece.token?, Piece.forms]
  cases p.token <;> rfl

theorem Lexes.piece {c : Char} {p : Piece}
    (h : ∀ mode here, Mode.At inTag mode → scan mode here c cs = .ok p ∧ Mode.At inTag' (mode.after here p)) :
    Lexes inTag (c :: cs) p.forms inTag' p.rest := by
  intro mode here hmode
  obtain ⟨hscan, hafter⟩ := h mode here hmode
  exact ⟨_, _, _, hafter, p.map_form_token here, tokensFrom_cons hscan⟩

/-- A piece in a tag that does not close it. -/
theorem Lexes.tagPiece {c : Char} {p : Piece} (h : ∀ here, scanTag here c cs = .ok p)
    (hclose : ∀ value, p.token ≠ some (.closing, value)) : Lexes true (c :: cs) p.forms true p.rest := by
  refine Lexes.piece fun mode here ⟨opened, hmode⟩ => ?_
  subst hmode
  refine ⟨h here, opened, ?_⟩
  unfold Mode.after
  split
  · next hm _ => cases hm
  · next value _ htoken => exact absurd htoken (hclose value)
  · rfl

end

/-! ### Characters -/

/-- The text does not begin with a character of a kind. -/
def Bounds (p : Char → Bool) (cs : List Char) : Prop := ∀ c, cs.head? = some c → p c = false

theorem takeWhile_bounds {p : Char → Bool} {cs rest : List Char} (h : ∀ c ∈ cs, p c = true)
    (hrest : Bounds p rest) :
    (cs ++ rest).takeWhile p = cs ∧ (cs ++ rest).dropWhile p = rest := by
  have hstops : rest.takeWhile p = [] ∧ rest.dropWhile p = rest := by
    cases rest with
    | nil => exact ⟨rfl, rfl⟩
    | cons c rest =>
      have hc := hrest c rfl
      simp [hc]
  rw [List.takeWhile_append_of_pos h, List.dropWhile_append_of_pos h, hstops.1, List.append_nil]
  exact ⟨rfl, hstops.2⟩

theorem isDigit_iff {c : Char} : isDigit c = true ↔ 48 ≤ c.toNat ∧ c.toNat ≤ 57 := by
  rw [isDigit, Bool.and_eq_true, decide_eq_true_eq, decide_eq_true_eq]
  exact Iff.rfl

theorem isWordStart_iff {c : Char} : isWordStart c = true ↔
    (97 ≤ c.toNat ∧ c.toNat ≤ 122) ∨ (65 ≤ c.toNat ∧ c.toNat ≤ 90) ∨ c = '_' := by
  simp only [isWordStart, Bool.or_eq_true, Bool.and_eq_true, decide_eq_true_eq, or_assoc]
  exact Iff.rfl

theorem not_isBlank_of_isWordPart {c : Char} (h : isWordPart c = true) : Text.isBlank c = false := by
  have hrange : 48 ≤ c.toNat ∧ c.toNat ≤ 122 := by
    rw [isWordPart, Bool.or_eq_true, isWordStart_iff, isDigit_iff] at h
    rcases h with (h | h | rfl) | h
    · omega
    · omega
    · decide
    · omega
  simp only [Text.isBlank, Bool.or_eq_false_iff, Bool.and_eq_false_iff, decide_eq_false_iff_not,
    beq_eq_false_iff_ne]
  omega

/-- The characters that can begin a mark. -/
def markStarts : List Char := [']', '=', '!', '&', '|', '#', '/', '@', '.', ',', '+', '(', ')', '?']

theorem punctuation_eq_none {c : Char} {cs : List Char} (h : c ∉ markStarts) :
    punctuation? (c :: cs) = none := by
  unfold punctuation?
  split
  all_goals first
    | rfl
    | next hcs => exact absurd (by rw [(List.cons.inj hcs).1]; decide) h

theorem notMem_markStarts {c : Char} (h : isWordPart c = true) : c ∉ markStarts := by
  have hnone : (markStarts.all fun d => !isWordPart d) = true := by decide
  intro hin
  have hnot := List.all_eq_true.1 hnone c hin
  rw [h] at hnot
  cases hnot

/-! ### Pieces in tags -/

section
variable {cs rest : List Char}

theorem lexes_blank (h : Bounds Text.isBlank rest) : Lexes true (' ' :: rest) [] true rest := by
  obtain ⟨-, hdrop⟩ := takeWhile_bounds (List.forall_mem_nil _) h
  have hpiece : Lexes true (' ' :: rest) [] true (rest.dropWhile Text.isBlank) := by
    refine Lexes.tagPiece (p := ⟨' ' :: rest.takeWhile Text.isBlank, none, rest.dropWhile Text.isBlank⟩)
      (fun here => ?_) nofun
    rw [scanTag, if_pos (by decide)]
  rw [List.nil_append] at hdrop
  rwa [hdrop] at hpiece

theorem lexes_punctuation {kind : TokenKind} {c : Char} (hspelling : spelling kind = c :: cs)
    (hblank : Text.isBlank c = false) (h : punctuation? (c :: (cs ++ rest)) = some kind)
    (hclosing : kind ≠ .closing) :
    Lexes true (spelling kind ++ rest) [kind.form] true rest := by
  have hpiece : Lexes true (c :: (cs ++ rest)) [(kind, String.ofList (spelling kind))] true
      ((cs ++ rest).drop ((spelling kind).length - 1)) := by
    refine Lexes.tagPiece (p := ⟨spelling kind, some (kind, spelling kind), _⟩) (fun here => ?_) ?_
    · rw [scanTag, if_neg (by rw [hblank]; exact Bool.false_ne_true)]
      simp only [h]
    · intro value hvalue
      exact hclosing (Prod.mk.inj (Option.some.inj hvalue)).1
  have hform : kind.form = (kind, String.ofList (spelling kind)) := by
    rw [TokenKind.form, spelling, String.ofList_toList]
  rw [hspelling, List.length_cons, Nat.add_sub_cancel, List.drop_left, ← hspelling, ← hform] at hpiece
  rwa [hspelling]

/-- The marks that are read whatever follows them. -/
def marks : List TokenKind :=
  [.hash, .slash, .atSign, .dot, .comma, .plus, .leftParen, .rightParen, .question, .equalEqual,
    .notEqual, .andAnd, .orOr]

theorem lexes_mark {kind : TokenKind} (h : kind ∈ marks) (rest : List Char) :
    Lexes true (spelling kind ++ rest) [kind.form] true rest := by
  simp only [marks, List.mem_cons, List.not_mem_nil, or_false] at h
  rcases h with rfl | rfl | rfl | rfl | rfl | rfl | rfl | rfl | rfl | rfl | rfl | rfl | rfl <;>
    exact lexes_punctuation rfl (by decide) rfl (by decide)

theorem lexes_equal (h : rest.head? ≠ some '=') :
    Lexes true ('=' :: rest) [TokenKind.equal.form] true rest := by
  refine lexes_punctuation (show spelling .equal = ['='] from rfl) (by decide) ?_ (by decide)
  change punctuation? ('=' :: rest) = _
  rw [punctuation?]
  rintro ds rfl
  exact h rfl

theorem lexes_bang (h : rest.head? ≠ some '=') :
    Lexes true ('!' :: rest) [TokenKind.bang.form] true rest := by
  refine lexes_punctuation (show spelling .bang = ['!'] from rfl) (by decide) ?_ (by decide)
  change punctuation? ('!' :: rest) = _
  rw [punctuation?]
  rintro ds rfl
  exact h rfl

theorem lexes_string (s : String) (rest : List Char) :
    Lexes true ((quote s).toList ++ rest) [(.string, s)] true rest := by
  have hcs : (quote s).toList ++ rest = '"' :: (s.toList.flatMap Text.Quoted.encodeChar ++ '"' :: rest) := by
    rw [quote, String.toList_ofList, Text.Quoted.encode, List.append_assoc]
    rfl
  have hpiece : Lexes true ('"' :: (s.toList.flatMap Text.Quoted.encodeChar ++ '"' :: rest))
      [(.string, String.ofList s.toList)] true rest := by
    refine Lexes.tagPiece (p := ⟨'"' :: (s.toList.flatMap Text.Quoted.encodeChar ++ ['"']),
      some (.string, s.toList), rest⟩) (fun here => ?_) nofun
    rw [scanTag, if_neg (by decide), punctuation_eq_none (by decide)]
    simp only [if_true, Text.Quoted.decode_encode]
  rw [String.ofList_toList] at hpiece
  rwa [hcs]

theorem lexes_integer (n : Nat) (h : Bounds isWordPart rest) :
    Lexes true ((toString n).toList ++ rest) [(.integer, toString n)] true rest := by
  have hdigits : ∀ c ∈ (toString n).toList, isDigit c = true := by
    intro c hc
    have hmem : c ∈ Nat.toDigits 10 n := by rwa [← Nat.toList_repr]
    rw [isDigit_iff]
    have hdigit := Nat.isDigit_of_mem_toDigits (by decide) (by decide) hmem
    simp only [Char.isDigit, Bool.and_eq_true, decide_eq_true_eq] at hdigit
    exact hdigit
  have hrest : Bounds isDigit rest := by
    intro c hc
    have hpart := h c hc
    rw [isWordPart, Bool.or_eq_false_iff] at hpart
    exact hpart.2
  have hne : (toString n).toList ≠ [] := by
    have hlength := Nat.length_toDigits_pos (b := 10) (n := n)
    rw [← Nat.toList_repr] at hlength
    exact List.ne_nil_of_length_pos hlength
  obtain ⟨c, cs, hcs⟩ := List.exists_cons_of_ne_nil hne
  have hvalue : toString n = String.ofList (c :: cs) := by rw [← hcs, String.ofList_toList]
  rw [hcs] at hdigits
  rw [hcs, hvalue, List.cons_append]
  obtain ⟨hc, hds⟩ := List.forall_mem_cons.1 hdigits
  obtain ⟨htake, hdrop⟩ := takeWhile_bounds hds hrest
  have hpart : isWordPart c = true := by rw [isWordPart, hc, Bool.or_true]
  refine Lexes.tagPiece (p := ⟨c :: cs, some (.integer, c :: cs), rest⟩) (fun here => ?_) nofun
  rw [scanTag, if_neg (by rw [not_isBlank_of_isWordPart hpart]; exact Bool.false_ne_true),
    punctuation_eq_none (notMem_markStarts hpart)]
  have hquote : c ≠ '"' := by rintro rfl; cases hc
  simp only [if_neg hquote, hc, if_true, htake, hdrop]

theorem lexes_word {w : String} (hword : IsWord w) (h : Bounds isWordPart rest) :
    Lexes true (w.toList ++ rest) [(.ofWord w, w)] true rest := by
  obtain ⟨c, cs, hcs, hstart, hparts⟩ := hword
  have hvalue : w = String.ofList (c :: cs) := by rw [← hcs, String.ofList_toList]
  obtain ⟨htake, hdrop⟩ := takeWhile_bounds hparts h
  have hpart : isWordPart c = true := by rw [isWordPart, hstart, Bool.true_or]
  rw [hcs, hvalue, List.cons_append]
  refine Lexes.tagPiece (p := ⟨c :: cs, some (.ofWord (String.ofList (c :: cs)), c :: cs), rest⟩)
    (fun here => ?_) ?_
  · have hquote : c ≠ '"' := by rintro rfl; cases hstart
    have hdigit : isDigit c = false := by
      rw [Bool.eq_false_iff]
      intro hdigit
      rw [isDigit_iff] at hdigit
      rcases isWordStart_iff.1 hstart with h | h | rfl
      · omega
      · omega
      · exact absurd hdigit (by decide)
    rw [scanTag, if_neg (by rw [not_isBlank_of_isWordPart hpart]; exact Bool.false_ne_true),
      punctuation_eq_none (notMem_markStarts hpart)]
    simp only [if_neg hquote, hdigit, hstart, if_true, htake, hdrop, Bool.false_eq_true, if_false]
  · intro value hclosing
    have hkind := (Prod.mk.inj (Option.some.inj hclosing)).1
    revert hkind
    unfold TokenKind.ofWord
    repeat' split
    all_goals exact nofun

theorem lexes_closing (rest : List Char) :
    Lexes true (']' :: '\x7d' :: rest) [TokenKind.closing.form] false rest := by
  refine Lexes.piece (p := ⟨spelling .closing, some (.closing, spelling .closing), rest⟩)
    fun mode here ⟨opened, hmode⟩ => ?_
  subst hmode
  exact ⟨rfl, rfl⟩

/-! ### Pieces outside tags -/

theorem commentRun_append (h : ¬ [']', '\x7d'] <:+: cs) (rest : List Char) :
    ∃ raw, commentRun (cs ++ ']' :: '\x7d' :: rest) = some ⟨raw, some (.comment, cs), rest⟩ := by
  induction cs with
  | nil => exact ⟨_, rfl⟩
  | cons c cs ih =>
    rw [List.infix_cons_iff, not_or] at h
    obtain ⟨raw, hraw⟩ := ih h.2
    refine ⟨c :: raw, ?_⟩
    rw [List.cons_append, commentRun, hraw]
    · rfl
    · rintro ds rfl hds
      refine h.1 ?_
      cases cs with
      | nil => cases hds
      | cons d cs =>
        obtain ⟨rfl, -⟩ := List.cons.inj hds
        exact ⟨cs, rfl⟩

theorem scan_text (here : Position) (c : Char) (cs : List Char) :
    scan .text here c cs = scanText here (c :: cs) := rfl

theorem lexes_comment (h : ¬ [']', '\x7d'] <:+: cs) (rest : List Char) :
    Lexes false ('\x7b' :: '[' :: '%' :: (cs ++ ']' :: '\x7d' :: rest))
      [(.comment, String.ofList cs)] false rest := by
  obtain ⟨raw, hraw⟩ := commentRun_append h rest
  refine Lexes.piece (p := ⟨'\x7b' :: '[' :: '%' :: raw, some (.comment, cs), rest⟩) fun mode here hmode => ?_
  obtain rfl : mode = .text := hmode
  refine ⟨?_, rfl⟩
  rw [scan_text, scanText, hraw]

/-- Nothing follows, or the opening brackets of a tag or of a comment. -/
def EndsText (cs : List Char) : Prop := cs = [] ∨ ∃ c ds, cs = '\x7b' :: '[' :: c :: ds ∧ c ≠ '\x7b'

theorem head?_escapeText (hrest : EndsText rest) (h : cs.head? ≠ some '[') :
    (Tree.escapeText cs ++ rest).head? ≠ some '[' := by
  fun_cases Tree.escapeText cs with
  | case1 =>
    rcases hrest with rfl | ⟨c, ds, rfl, -⟩
    · nofun
    · simp
  | case2 => simp
  | case3 c cs => simpa using h

/-- An opening brace that is not escaped is followed by no bracket, in whatever text comes next. -/
theorem not_bracket_after {c : Char} (hrest : EndsText rest)
    (hnot : ∀ ds, c = '\x7b' → cs = '[' :: ds → False) :
    c = '\x7b' → (Tree.escapeText cs ++ rest).head? ≠ some '[' := by
  intro hc
  refine head?_escapeText hrest fun hcs => ?_
  obtain ⟨ds, hds⟩ := List.head?_eq_some_iff.1 hcs
  exact hnot ds hc hds

theorem textRun_cons {c : Char} (h : c = '\x7b' → cs.head? ≠ some '[') :
    textRun (c :: cs) = (textRun cs).push [c] [c] := by
  rw [textRun]
  · rintro ds rfl rfl
    exact h rfl rfl
  · rintro ds rfl rfl
    exact h rfl rfl

/-- Escaped text is read back up to where a tag begins. -/
theorem textRun_escapeText (hrest : EndsText rest) :
    ∃ raw, textRun (Tree.escapeText cs ++ rest) = ⟨raw, some (.text, cs), rest⟩ := by
  fun_induction Tree.escapeText cs with
  | case1 =>
    rcases hrest with rfl | ⟨c, ds, rfl, hc⟩
    · exact ⟨_, rfl⟩
    · refine ⟨[], ?_⟩
      rw [List.nil_append, textRun]
      rintro es hes
      exact hc (List.cons.inj hes).1
  | case2 cs ih =>
    obtain ⟨raw, hraw⟩ := ih
    exact ⟨_, by simp only [List.cons_append, textRun, hraw]; rfl⟩
  | case3 c cs hnot ih =>
    obtain ⟨raw, hraw⟩ := ih
    exact ⟨c :: raw, by rw [List.cons_append, textRun_cons (not_bracket_after hrest hnot), hraw]; rfl⟩

theorem lexes_text (hrest : EndsText rest) (hne : cs ≠ []) :
    Lexes false (Tree.escapeText cs ++ rest) [(.text, String.ofList cs)] false rest := by
  obtain ⟨raw, hraw⟩ : ∃ raw, textRun (Tree.escapeText cs ++ rest) = ⟨raw, some (.text, cs), rest⟩ :=
    textRun_escapeText hrest
  have hscan : ∀ here, scanText here (Tree.escapeText cs ++ rest) =
      .ok (textRun (Tree.escapeText cs ++ rest)) := by
    intro here
    fun_cases Tree.escapeText cs with
    | case1 => exact absurd rfl hne
    | case2 cs => rfl
    | case3 c cs hnot =>
      have hhead := not_bracket_after (c := c) hrest hnot
      rw [List.cons_append]
      unfold scanText
      split
      · rfl
      · next h => exact absurd (by rw [(List.cons.inj h).2]; rfl) (hhead (List.cons.inj h).1)
      · next h => exact absurd (by rw [(List.cons.inj h).2]; rfl) (hhead (List.cons.inj h).1)
      · rfl
  cases htext : Tree.escapeText cs ++ rest with
  | nil =>
    rw [htext] at hraw
    exact absurd (Prod.mk.inj (Option.some.inj (Piece.mk.inj hraw).2.1)).2.symm hne
  | cons c ds =>
    rw [htext] at hscan hraw
    refine Lexes.piece (p := ⟨raw, some (.text, cs), rest⟩) fun mode here hmode => ?_
    obtain rfl : mode = .text := hmode
    exact ⟨(hscan here).trans (by rw [hraw]), rfl⟩

theorem scanText_opening {c : Char} (hc : c ≠ '\x7b' ∧ c ≠ '%')
    (h : markAfterBlanks? (c :: rest) = none) (here : Position) :
    scanText here ('\x7b' :: '[' :: c :: rest) = .ok ⟨openMark, some (.opening, openMark), c :: rest⟩ := by
  unfold scanText
  split
  · next hcs => simp_all
  · next hcs => simp_all
  · next hcs =>
    obtain rfl := (List.cons.inj (List.cons.inj hcs).2).2
    rw [h]
  · next hnot => exact absurd rfl (hnot (c :: rest))

theorem lexes_opening {c : Char} (hc : c ≠ '\x7b' ∧ c ≠ '%') (h : markAfterBlanks? (c :: rest) = none) :
    Lexes false ('\x7b' :: '[' :: c :: rest) [TokenKind.opening.form] true (c :: rest) := by
  refine Lexes.piece (p := ⟨openMark, some (.opening, openMark), c :: rest⟩) fun mode here hmode => ?_
  obtain rfl : mode = .text := hmode
  exact ⟨scanText_opening hc h here, here, rfl⟩

end

end Stencil.Lexer
