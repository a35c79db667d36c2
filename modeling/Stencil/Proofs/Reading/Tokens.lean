import Stencil.Proofs.Reading.Pieces
import Stencil.Proofs.Reading.Readers
import Stencil.Proofs.Reading.Slices

/-! # What tokens are read from

The slices of the tokens make up the text but for the blanks in tags, and every slice says by itself what
the value of its token is. -/

namespace Stencil

/-! ### Values -/

/-- Text read from left to right, with brackets in place of every escape. -/
def Text.unescaped : List Char → List Char
  | [] => []
  | '\x7b' :: '[' :: '\x7b' :: ']' :: '\x7d' :: cs => '\x7b' :: '[' :: unescaped cs
  | c :: cs => c :: unescaped cs

theorem Text.unescaped_cons {c : Char} {cs rest : List Char}
    (h : ∀ ds, c = '\x7b' → cs ++ rest = '[' :: '\x7b' :: ']' :: '\x7d' :: ds → False) :
    unescaped (c :: cs) = c :: unescaped cs := by
  rw [unescaped]
  rintro ds rfl rfl
  exact h _ rfl rfl

/-- What stands for the characters between two quotes; `none` when they end the literal early. -/
def Text.Quoted.unescaped? : List Char → Option (List Char)
  | [] => some []
  | '"' :: _ => none
  | ['\\'] => none
  | '\\' :: c :: cs => (unescaped? cs).map (unescape c :: ·)
  | c :: cs => (unescaped? cs).map (c :: ·)

/-- How the value of a token of some kind follows from the characters it is read from. -/
def TokenKind.Reads (kind : TokenKind) (raw value : List Char) : Prop :=
  match kind with
  | text => Text.unescaped raw = value
  | comment => raw = '\x7b' :: '[' :: '%' :: (value ++ [']', '\x7d'])
  | string => ∃ inner, raw = '"' :: (inner ++ ['"']) ∧ Text.Quoted.unescaped? inner = some value
  | _ => raw = value

/-- A kind of token that stands in tags, without the brackets around them. -/
def TokenKind.Inside (kind : TokenKind) : Prop := kind ∉ [text, comment, opening, closing, eof]

instance (kind : TokenKind) : Decidable kind.Inside :=
  inferInstanceAs (Decidable (¬ kind ∈ [.text, .comment, .opening, .closing, .eof]))

namespace Lexer

/-! ### Pieces -/

/-- What a piece of a tag or of the text outside stands for. -/
inductive Piece.Fits : (inTag : Bool) → Piece → Prop
  | blanks {p : Piece} (token : p.token = none) (raw : Text.AllBlank p.raw) : Fits true p
  | outside {p : Piece} {kind : TokenKind} {value : List Char} (token : p.token = some (kind, value))
    (hkind : kind = .text ∨ kind = .comment) (reads : kind.Reads p.raw value) : Fits false p
  | opening {p : Piece} {value : List Char} (token : p.token = some (.opening, value))
    (raw : p.raw = value) : Fits false p
  | closing {p : Piece} {value : List Char} (token : p.token = some (.closing, value))
    (raw : p.raw = value) : Fits true p
  | inside {p : Piece} {kind : TokenKind} {value : List Char} (token : p.token = some (kind, value))
    (hkind : kind.Inside)
    (reads : kind.Reads p.raw value) : Fits true p

theorem textRun_reads (cs : List Char) : (textRun cs).raw ++ (textRun cs).rest = cs ∧
    (textRun cs).token = some (.text, Text.unescaped (textRun cs).raw) := by
  fun_induction textRun cs with
  | case1 => exact ⟨rfl, rfl⟩
  | case2 cs ih =>
    obtain ⟨hraw, htoken⟩ := ih
    refine ⟨by simp only [Piece.push, escapedOpenMark, List.cons_append, List.nil_append, hraw], ?_⟩
    rw [Piece.push, htoken]
    rfl
  | case3 => exact ⟨rfl, rfl⟩
  | case4 c cs hescape _ ih =>
    obtain ⟨hraw, htoken⟩ := ih
    refine ⟨by simp only [Piece.push, List.cons_append, List.nil_append, hraw], ?_⟩
    have hvalue : Text.unescaped (c :: (textRun cs).raw) = c :: Text.unescaped (textRun cs).raw :=
      Text.unescaped_cons fun ds hc hds => hescape ds hc (hraw.symm.trans hds)
    rw [Piece.push, htoken]
    simp only [List.cons_append, List.nil_append, Option.map_some, hvalue]

theorem commentRun_reads {cs : List Char} {p : Piece} (h : commentRun cs = some p) : p.raw ++ p.rest = cs ∧
    ∃ value, p.token = some (.comment, value) ∧ p.raw = value ++ [']', '\x7d'] := by
  fun_induction commentRun cs generalizing p with
  | case1 => cases h
  | case2 cs =>
    cases h
    exact ⟨rfl, [], rfl, rfl⟩
  | case3 c cs _ ih =>
    obtain ⟨q, hq, rfl⟩ := Option.map_eq_some_iff.1 h
    obtain ⟨hraw, value, htoken, hvalue⟩ := ih hq
    refine ⟨by simp only [Piece.push, List.cons_append, List.nil_append, hraw], c :: value, ?_, ?_⟩
    · rw [Piece.push, htoken]
      rfl
    · rw [Piece.push, hvalue]
      rfl

theorem decode_reads {cs : List Char} {l : Text.Quoted.Literal} (h : Text.Quoted.decode cs = some l) :
    ∃ inner, l.written = inner ++ ['"'] ∧ Text.Quoted.unescaped? inner = some l.value := by
  fun_induction Text.Quoted.decode cs generalizing l with
  | case1 | case3 => cases h
  | case2 rest =>
    cases h
    exact ⟨[], rfl, rfl⟩
  | case4 c rest ih =>
    obtain ⟨m, hm, rfl⟩ := Option.map_eq_some_iff.1 h
    obtain ⟨inner, hwritten, hvalue⟩ := ih hm
    refine ⟨'\\' :: c :: inner, by rw [Text.Quoted.Literal.push, hwritten]; rfl, ?_⟩
    rw [Text.Quoted.unescaped?, hvalue]
    rfl
  | case5 c rest hquote hend hescape ih =>
    obtain ⟨m, hm, rfl⟩ := Option.map_eq_some_iff.1 h
    obtain ⟨inner, hwritten, hvalue⟩ := ih hm
    refine ⟨c :: inner, by rw [Text.Quoted.Literal.push, hwritten]; rfl, ?_⟩
    have hbackslash : c ≠ '\\' := by
      rintro rfl
      cases rest with
      | nil => exact hend rfl rfl
      | cons d rest => exact hescape d rest rfl rfl
    rw [Text.Quoted.unescaped?, hvalue]
    · rfl
    · exact hquote
    · exact fun h _ => hbackslash h
    · exact fun _ _ h _ => hbackslash h

theorem punctuation_reads {c : Char} {cs : List Char} {kind : TokenKind}
    (h : punctuation? (c :: cs) = some kind) :
    spelling kind ++ cs.drop ((spelling kind).length - 1) = c :: cs ∧ (kind = .closing ∨ kind.Inside) ∧
      kind.Reads (spelling kind) (spelling kind) := by
  unfold punctuation? at h
  split at h <;> cases h
  all_goals
    next heq =>
      obtain ⟨rfl, rfl⟩ := List.cons.inj heq
      exact ⟨rfl, by decide, rfl⟩

theorem scanText_fits {here : Position} {cs : List Char} {p : Piece} (h : scanText here cs = .ok p) :
    p.raw ++ p.rest = cs ∧ p.Fits false := by
  have htext : ∀ ds, (textRun ds).Fits false := fun ds => .outside (textRun_reads ds).2 (.inl rfl) rfl
  unfold scanText at h
  split at h
  · cases h
    exact ⟨(textRun_reads _).1, htext _⟩
  · split at h
    · next q hq =>
      obtain ⟨hraw, value, htoken, hvalue⟩ := commentRun_reads hq
      cases h
      refine ⟨by rw [← hraw]; rfl, .outside htoken (.inr rfl) ?_⟩
      rw [TokenKind.Reads, hvalue]
    · cases h
  · split at h
    · cases h
    · cases h
      exact ⟨rfl, .opening rfl rfl⟩
  · cases h
    exact ⟨(textRun_reads _).1, htext _⟩

theorem ofWord_inside (word : String) :
    (TokenKind.ofWord word).Inside ∧ ∀ raw, (TokenKind.ofWord word).Reads raw raw := by
  unfold TokenKind.ofWord
  split
  · exact ⟨by decide, fun _ => rfl⟩
  split
  · exact ⟨by decide, fun _ => rfl⟩
  split
  · exact ⟨by decide, fun _ => rfl⟩
  split
  · exact ⟨by decide, fun _ => rfl⟩
  · exact ⟨by decide, fun _ => rfl⟩

theorem scanTag_fits {here : Position} {c : Char} {cs : List Char} {p : Piece}
    (h : scanTag here c cs = .ok p) :
    p.raw ++ p.rest = c :: cs ∧ p.Fits true := by
  have hsplit : ∀ q : Char → Bool, c :: cs.takeWhile q ++ cs.dropWhile q = c :: cs := fun q => by
    rw [List.cons_append, List.takeWhile_append_dropWhile]
  unfold scanTag at h
  split at h
  · next hblank =>
    cases h
    refine ⟨hsplit _, .blanks rfl ?_⟩
    rw [Text.allBlank_cons]
    exact ⟨hblank, fun d hd => List.mem_takeWhile_imp hd⟩
  split at h
  · next kind hkind =>
    cases h
    obtain ⟨hraw, rfl | hinside, hreads⟩ := punctuation_reads hkind
    · exact ⟨hraw, .closing rfl rfl⟩
    · exact ⟨hraw, .inside rfl hinside hreads⟩
  split at h
  · next hquote =>
    split at h
    · next l hl =>
      cases h
      obtain ⟨inner, hwritten, hvalue⟩ := decode_reads hl
      refine ⟨by rw [List.cons_append, Text.Quoted.written_append_rest hl],
        .inside rfl (by decide) ⟨inner, ?_, hvalue⟩⟩
      rw [hquote, hwritten]
    · cases h
  split at h
  · cases h
    exact ⟨hsplit _, .inside rfl (by decide) rfl⟩
  split at h
  · cases h
    obtain ⟨hinside, hreads⟩ := ofWord_inside (String.ofList (c :: cs.takeWhile isWordPart))
    exact ⟨hsplit _, .inside rfl hinside (hreads _)⟩
  · cases h

section
variable {mode : Mode} {here : Position} {c : Char} {cs : List Char} {p : Piece}

theorem scan_fits (h : scan mode here c cs = .ok p) : p.raw ++ p.rest = c :: cs ∧ p.Fits (mode != .text) := by
  cases mode with
  | text => exact scanText_fits h
  | tag | expression => exact scanTag_fits h

theorem raw_ne_nil (h : scan mode here c cs = .ok p) : p.raw ≠ [] := by
  intro hnone
  have hlt := length_rest_scan h
  rw [← (scan_fits h).1, hnone] at hlt
  exact Nat.lt_irrefl _ hlt

theorem Mode.At.ne_text {inTag : Bool} (h : Mode.At inTag mode) : (mode != .text) = inTag := by
  cases inTag with
  | false =>
    obtain rfl : mode = .text := h
    rfl
  | true =>
    obtain ⟨opened, rfl⟩ := h
    rfl

end

end Lexer

/-! ### Tokens -/

/-- A text, or what is left of one in a tag or outside, is made of the slices of some tokens: brackets open
and close tags in turn, blanks stand in tags only, and texts and comments outside only. -/
inductive Source.Woven (source : Source) : (inTag : Bool) → List Char → List Token → Prop
  | done : Woven source false [] []
  | blanks {gap rest : List Char} {ts : List Token} (h : Text.AllBlank gap)
    (later : Woven source true rest ts) :
    Woven source true (gap ++ rest) ts
  | opening {t : Token} {s : String} {rest : List Char} {ts : List Token} (kind : t.kind = .opening)
    (slice : source.slice t.first t.last = some s) (later : Woven source true rest ts) :
    Woven source false (s.toList ++ rest) (t :: ts)
  | closing {t : Token} {s : String} {rest : List Char} {ts : List Token} (kind : t.kind = .closing)
    (slice : source.slice t.first t.last = some s) (later : Woven source false rest ts) :
    Woven source true (s.toList ++ rest) (t :: ts)
  | outside {t : Token} {s : String} {rest : List Char} {ts : List Token}
    (kind : t.kind = .text ∨ t.kind = .comment)
    (slice : source.slice t.first t.last = some s) (later : Woven source false rest ts) :
    Woven source false (s.toList ++ rest) (t :: ts)
  | inside {t : Token} {s : String} {rest : List Char} {ts : List Token} (kind : t.kind.Inside)
    (slice : source.slice t.first t.last = some s) (later : Woven source true rest ts) :
    Woven source true (s.toList ++ rest) (t :: ts)

/-- A token whose slice is not empty and says what the value of the token is. -/
structure Token.Exact (source : Source) (t : Token) : Prop where
  slice : ∃ s, source.slice t.first t.last = some s ∧ s ≠ "" ∧ t.kind.Reads s.toList t.value.toList
  first : Position.Within source.text.length t.first
  last : Position.Within source.text.length t.last
  order : ¬ t.last.Before t.first

/-- Tokens that a stretch of a text is read as, with the position it begins at. -/
structure Source.ReadAs (source : Source) (inTag : Bool) (here : Position) (cs : List Char)
    (ts : List Token) : Prop where
  woven : source.Woven inTag cs ts
  exact : ∀ t ∈ ts, t.Exact source
  later : ∀ t ∈ ts, ¬ t.first.Before here
  order : ts.Pairwise fun t u => t.last.Before u.first

namespace Lexer

section
variable {source : Source} {here : Position} {pre raw rest cs : List Char} {ts : List Token}
  {inTag inTag' : Bool}

theorem exact_piece {kind : TokenKind} {value : List Char} (htext : source.text.toList = pre ++ (raw ++ rest))
    (hhere : here = Position.start.after pre) (hraw : raw ≠ []) (hreads : kind.Reads raw value) :
    Token.Exact source ⟨kind, String.ofList value, here, here.last raw⟩ ∧
      source.slice here (here.last raw) = some (String.ofList raw) := by
  have hslice : source.slice here (here.last raw) = some (String.ofList raw) := by
    rw [Source.slice, htext, hhere, Source.sliceOf_eq pre rest hraw]
    rfl
  have hlength : source.text.length = (pre ++ (raw ++ rest)).length := by rw [← htext, String.length_toList]
  have hwithin : ∀ before after, pre ++ (raw ++ rest) = before ++ after →
      Position.Within source.text.length (Position.start.after before) := by
    intro before after hsplit
    rw [hlength, hsplit, List.length_append]
    exact (Position.within_after_start before).mono (Nat.le_add_right _ _)
  refine ⟨⟨⟨_, hslice, ?_, by rwa [String.toList_ofList, String.toList_ofList]⟩, ?_, ?_,
    Position.not_last_before here hraw⟩, hslice⟩
  · intro hnone
    exact hraw (String.ofList_eq_empty_iff.1 hnone)
  · exact hhere ▸ hwithin pre _ rfl
  · change Position.Within _ (here.last raw)
    rw [← List.dropLast_append_getLast hraw, Position.last_append_singleton, hhere, ← Position.after_append]
    refine hwithin (pre ++ raw.dropLast) ([raw.getLast hraw] ++ rest) ?_
    rw [List.append_assoc, ← List.append_assoc raw.dropLast, List.dropLast_append_getLast]

/-- A piece that stands for a token puts that token before the others. -/
theorem readAs_token {kind : TokenKind} {value : List Char}
    (htext : source.text.toList = pre ++ (raw ++ rest))
    (hhere : here = Position.start.after pre) (hraw : raw ≠ []) (hreads : kind.Reads raw value)
    (hlater : source.ReadAs inTag' (here.after raw) rest ts)
    (hwoven : ∀ {t : Token} {s : String}, t.kind = kind → source.slice t.first t.last = some s →
      source.Woven inTag' rest ts →
      source.Woven inTag (s.toList ++ rest) (t :: ts)) :
    source.ReadAs inTag here (raw ++ rest) (⟨kind, String.ofList value, here, here.last raw⟩ :: ts) := by
  obtain ⟨hexact, hslice⟩ := exact_piece htext hhere hraw hreads
  refine ⟨?_, List.forall_mem_cons.2 ⟨hexact, hlater.exact⟩, ?_, List.pairwise_cons.2 ⟨?_, hlater.order⟩⟩
  · have hall : source.Woven inTag ((String.ofList raw).toList ++ rest)
        (⟨kind, String.ofList value, here, here.last raw⟩ :: ts) :=
      hwoven rfl hslice hlater.woven
    rwa [String.toList_ofList] at hall
  · refine List.forall_mem_cons.2 ⟨Position.not_before_self here, fun t ht => ?_⟩
    exact Position.not_before_trans (hlater.later t ht) (Position.not_after_before here raw)
  · exact fun t ht => (Position.last_before_after here hraw).trans_not (hlater.later t ht)

theorem readAs_blanks (hblank : Text.AllBlank raw) (hlater : source.ReadAs true (here.after raw) rest ts) :
    source.ReadAs true here (raw ++ rest) ts := by
  refine ⟨.blanks hblank hlater.woven, hlater.exact, fun t ht => ?_, hlater.order⟩
  exact Position.not_before_trans (hlater.later t ht) (Position.not_after_before here raw)

theorem readAs_piece {mode : Mode} {p : Piece} (hmode : Mode.At inTag mode) (hfits : p.Fits inTag)
    (hraw : p.raw ≠ []) (htext : source.text.toList = pre ++ (p.raw ++ p.rest))
    (hhere : here = Position.start.after pre) :
    ∃ inTag', Mode.At inTag' (mode.after here p) ∧ ∀ ts, source.ReadAs inTag' (here.after p.raw) p.rest ts →
      source.ReadAs inTag here (p.raw ++ p.rest) ((p.token? here).toList ++ ts) := by
  have hafter : ∀ kind value, p.token = some (kind, value) → kind ≠ .opening → kind ≠ .closing →
      mode.after here p = mode := by
    intro kind value htoken hopening hclosing
    unfold Mode.after
    split
    · next h => rw [htoken] at h; cases h; exact absurd rfl hopening
    · next h => rw [htoken] at h; cases h; exact absurd rfl hclosing
    · rfl
  cases hfits with
  | blanks token blank =>
    refine ⟨true, ?_, fun ts hlater => ?_⟩
    · have hsame : mode.after here p = mode := by
        unfold Mode.after
        rw [token]
        split <;> simp_all
      rwa [hsame]
    · rw [Piece.token?, token]
      exact readAs_blanks blank hlater
  | @outside _ kind value token hkind reads =>
    refine ⟨false, ?_, fun ts hlater => ?_⟩
    · rwa [hafter kind value token (by rintro rfl; simp at hkind) (by rintro rfl; simp at hkind)]
    · rw [Piece.token?, token]
      exact readAs_token htext hhere hraw reads hlater fun hk hs => .outside (hk ▸ hkind) hs
  | @opening _ value token raw =>
    refine ⟨true, ?_, fun ts hlater => ?_⟩
    · obtain rfl : mode = .text := hmode
      exact ⟨here, by simp only [Mode.after, token]⟩
    · rw [Piece.token?, token]
      exact readAs_token htext hhere hraw raw hlater .opening
  | @closing _ value token raw =>
    refine ⟨false, ?_, fun ts hlater => ?_⟩
    · obtain ⟨opened, rfl⟩ := hmode
      have htext : (Mode.tag opened).after here p = .text := by simp only [Mode.after, token]
      exact htext
    · rw [Piece.token?, token]
      exact readAs_token htext hhere hraw raw hlater .closing
  | @inside _ kind value token hkind reads =>
    refine ⟨true, ?_, fun ts hlater => ?_⟩
    · rwa [hafter kind value token (by rintro rfl; exact absurd hkind (by decide))
        (by rintro rfl; exact absurd hkind (by decide))]
    · rw [Piece.token?, token]
      exact readAs_token htext hhere hraw reads hlater fun hk hs => .inside (hk ▸ hkind) hs

theorem readAs_tokensFrom {mode : Mode} {tokens : List Token} (h : tokensFrom mode here cs = .ok tokens)
    (hmode : Mode.At inTag mode) (htext : source.text.toList = pre ++ cs)
    (hhere : here = Position.start.after pre) :
    ∃ front, tokens = front ++ [⟨.eof, "", here.after cs, here.after cs⟩] ∧
    source.ReadAs inTag here cs front := by
  fun_induction tokensFrom mode here cs generalizing tokens inTag pre with
  | case1 | case3 | case4 => cases h
  | case2 mode here hopen =>
    cases h
    cases inTag with
    | true =>
      obtain ⟨opened, rfl⟩ := hmode
      exact absurd rfl (hopen opened)
    | false => exact ⟨[], rfl, .done, by simp, by simp, .nil⟩
  | case5 mode here c cs p hscan later htokens ih =>
    cases h
    obtain ⟨hcs, hfits⟩ := scan_fits hscan
    rw [hmode.ne_text] at hfits
    rw [← hcs] at htext
    obtain ⟨inTag', hmode', hcons⟩ := readAs_piece hmode hfits (raw_ne_nil hscan) htext hhere
    rw [← List.append_assoc] at htext
    obtain ⟨front, rfl, hfront⟩ := ih htokens hmode' htext (by rw [hhere, Position.after_append])
    refine ⟨(p.token? here).toList ++ front, ?_, ?_⟩
    · rw [← hcs, Position.after_append, List.append_assoc]
    · rw [← hcs]
      exact hcons front hfront

end

end Lexer

/-- Tokens are read from their slices, which make up the text in order and without overlaps, but for blanks
in tags; the end of the input is right after the last character. No line or column exceeds the number of
characters by more than one. -/
theorem tokenize_exact {text : String} {tokens : List Token} (h : tokenize text = .ok tokens)
    (name : Option String) :
    ∃ front, tokens =
      front ++ [⟨.eof, "", Position.start.after text.toList, Position.start.after text.toList⟩] ∧
      Source.ReadAs ⟨name, text⟩ false .start text.toList front :=
  Lexer.readAs_tokensFrom h rfl (List.nil_append _).symm rfl

/-- An escape, a line feed in a string literal and one after a tag. -/
theorem tokenize_exact_lines : ∃ tokens front, tokenize "\x7b[\x7b]\x7d\x7b[ \"a\n\\t\" ]\x7d\n\x7b[%c]\x7d" =
    .ok tokens ∧ tokens.length = 7 ∧
    tokens = front ++ [⟨.eof, "", ⟨3, 7⟩, ⟨3, 7⟩⟩] ∧
    Source.ReadAs ⟨none, "\x7b[\x7b]\x7d\x7b[ \"a\n\\t\" ]\x7d\n\x7b[%c]\x7d"⟩ false .start
      "\x7b[\x7b]\x7d\x7b[ \"a\n\\t\" ]\x7d\n\x7b[%c]\x7d".toList front := by
  have hlength : (tokenize "\x7b[\x7b]\x7d\x7b[ \"a\n\\t\" ]\x7d\n\x7b[%c]\x7d").toOption.map List.length ==
    some 7 := by decide +kernel
  cases h : tokenize "\x7b[\x7b]\x7d\x7b[ \"a\n\\t\" ]\x7d\n\x7b[%c]\x7d" with
  | error e => rw [h] at hlength; cases hlength
  | ok tokens =>
    obtain ⟨front, hfront, hexact⟩ := tokenize_exact h none
    rw [h] at hlength
    exact ⟨tokens, front, rfl, beq_iff_eq.1 hlength, hfront, hexact⟩

end Stencil
