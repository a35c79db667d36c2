import Stencil.Proofs.Reading.Gathered

/-! # Where texts meet tags

A text goes on up to the next tag or comment and begins right after the one before, so that both share a
line with the text. Blanks at its ends are written as they are, escapes being brackets. -/

namespace Stencil

/-! ### Escapes -/

namespace Text

theorem count_unescaped (cs : List Char) : (unescaped cs).count '\n' = cs.count '\n' := by
  fun_induction unescaped cs with
  | case1 => rfl
  | case2 cs ih =>
    simp only [List.count_cons, ih]
    rfl
  | case3 c cs _ ih => rw [List.count_cons, List.count_cons, ih]

theorem unescaped_eq_nil {cs : List Char} (h : unescaped cs = []) : cs = [] := by
  by_contra hne
  exact unescaped_ne_nil hne h

/-- Blanks that begin a text are written as they are. -/
theorem exists_of_unescaped_blank {raw blank rest : List Char} (h : unescaped raw = blank ++ rest)
    (hblank : AllBlank blank) :
    ∃ raw', raw = blank ++ raw' ∧ unescaped raw' = rest := by
  fun_induction unescaped raw generalizing blank with
  | case1 =>
    obtain ⟨rfl, rfl⟩ := List.append_eq_nil_iff.1 h.symm
    exact ⟨[], rfl, rfl⟩
  | case2 cs ih =>
    cases blank with
    | nil => exact ⟨_, rfl, by rw [unescaped]; exact h⟩
    | cons b blank =>
      obtain ⟨rfl, -⟩ := List.cons.inj h
      exact absurd (allBlank_cons.1 hblank).1 (by decide)
  | case3 c cs hescape ih =>
    cases blank with
    | nil => exact ⟨c :: cs, rfl, by rw [unescaped]; exacts [h, hescape]⟩
    | cons b blank =>
      obtain ⟨rfl, htail⟩ := List.cons.inj h
      obtain ⟨raw', rfl, hrest⟩ := ih htail (allBlank_cons.1 hblank).2
      exact ⟨raw', rfl, hrest⟩

/-- Blanks that end a text are written as they are. -/
theorem exists_of_unescaped_append_blank {raw kept blank : List Char} (h : unescaped raw = kept ++ blank)
    (hblank : AllBlank blank) :
    ∃ raw', raw = raw' ++ blank ∧ unescaped raw' = kept := by
  have hwhole : ∀ {cs}, unescaped cs = [] ++ blank → ∃ raw', cs = raw' ++ blank ∧ unescaped raw' = [] := by
    intro cs hcs
    rw [List.nil_append, ← List.append_nil blank] at hcs
    obtain ⟨raw', rfl, hnone⟩ := exists_of_unescaped_blank hcs hblank
    rw [unescaped_eq_nil hnone, List.append_nil]
    exact ⟨[], rfl, rfl⟩
  fun_induction unescaped raw generalizing kept with
  | case1 =>
    obtain ⟨rfl, rfl⟩ := List.append_eq_nil_iff.1 h.symm
    exact ⟨[], rfl, rfl⟩
  | case2 cs ih =>
    rcases kept with _ | ⟨c, _ | ⟨d, kept⟩⟩
    · exact hwhole (by rw [unescaped]; exact h)
    · -- The second bracket is not blank either.
      obtain ⟨-, h⟩ := List.cons.inj h
      have hbracket : AllBlank ('[' :: unescaped cs) := h ▸ hblank
      exact absurd (allBlank_cons.1 hbracket).1 (by decide)
    · simp only [List.cons_append, List.cons.injEq] at h
      obtain ⟨rfl, rfl, h⟩ := h
      obtain ⟨raw', rfl, rfl⟩ := ih h
      exact ⟨'\x7b' :: '[' :: '\x7b' :: ']' :: '\x7d' :: raw', rfl, by rw [unescaped]⟩
  | case3 c cs hescape ih =>
    cases kept with
    | nil => exact hwhole (by rw [unescaped]; exacts [h, hescape])
    | cons k kept =>
      simp only [List.cons_append, List.cons.injEq] at h
      obtain ⟨rfl, h⟩ := h
      obtain ⟨raw', rfl, rfl⟩ := ih h
      exact ⟨c :: raw', rfl, unescaped_cons fun ds hc hds => hescape ds hc hds⟩

end Text

/-! ### Positions -/

namespace Position

/-- After a line comes the beginning of the next. -/
theorem after_line (p : Position) {line : List Char} (h : '\n' ∉ line) :
    p.after (line ++ ['\n']) = ⟨p.line + 1, 1⟩ := by
  rw [after_append]
  have hline : (p.after line).line = p.line := by
    rw [line_after, List.count_eq_zero_of_not_mem h]
    exact Int.add_zero _
  rw [after_cons, after_nil, next, if_pos rfl, hline]

/-- What does not end in a line feed is followed by its own line. -/
theorem line_after_eq_last (p : Position) {init : List Char} {c : Char} (h : c ≠ '\n') :
    (p.after (init ++ [c])).line = (p.last (init ++ [c])).line := by
  rw [last_append_singleton, after_append, after_cons, after_nil, next, if_neg h]

end Position

/-! ### Tokens side by side -/

namespace Token

/-- What two tokens, one right after the other, have in common if one of them is text. -/
structure Borders (t u : Token) : Prop where
  after : t.kind = .text → (u.kind = .opening ∨ u.kind = .comment ∨ u.kind = .eof) ∧
    u.first.line = t.first.line + t.value.toList.count '\n'
  before : u.kind = .text → (t.kind = .closing ∨ t.kind = .comment) ∧ u.first.line = t.last.line

theorem Borders.apart {ts : List Token} (h : ts.IsChain Borders) : Apart ts := by
  refine h.imp fun t u hborders htext hother => ?_
  rcases (hborders.after htext).1 with hkind | hkind | hkind <;> rw [hother] at hkind <;> cases hkind

/-- Where a token stands in a text, and what it is read from. -/
def Stands (text : List Char) (t : Token) : Prop :=
  ∃ pre raw post, text = pre ++ (raw ++ post) ∧ raw ≠ [] ∧ t.first = Position.start.after pre ∧
    t.last = t.first.last raw ∧
    t.kind.Reads raw t.value.toList

end Token

namespace Lexer

variable {mode : Mode} {here : Position} {cs : List Char} {ts : List Token} {text pre : List Char}

/-- Every token stands in the text, with the end of the input after the last one. -/
theorem exists_standing (h : tokensFrom mode here cs = .ok ts) (htext : text = pre ++ cs)
    (hhere : here = Position.start.after pre) :
    ∃ front, ts = front ++ [⟨.eof, "", here.after cs, here.after cs⟩] ∧
    ∀ t ∈ front, t.kind ≠ .eof ∧ t.Stands text := by
  fun_induction tokensFrom mode here cs generalizing ts pre with
  | case1 | case3 | case4 => cases h
  | case2 mode here hopen =>
    cases h
    exact ⟨[], rfl, List.forall_mem_nil _⟩
  | case5 mode here c cs p hscan later htokens ih =>
    cases h
    obtain ⟨hcs, hfits⟩ := scan_fits hscan
    rw [← hcs] at htext ⊢
    obtain ⟨front, rfl, hfront⟩ :=
      ih htokens (by rw [htext, List.append_assoc]) (by rw [hhere, Position.after_append])
    refine ⟨(p.token? here).toList ++ front,
      by rw [Position.after_append, List.append_assoc], List.forall_mem_append.2 ⟨fun t ht => ?_, hfront⟩⟩
    obtain ⟨⟨kind, value⟩, htoken, rfl⟩ := Option.map_eq_some_iff.1 (Option.mem_toList.1 ht)
    obtain ⟨hreads, hkind⟩ := hfits.reads htoken
    exact ⟨hkind, pre, p.raw, p.rest, htext, raw_ne_nil hscan, hhere, rfl, by rwa [String.toList_ofList]⟩

/-! ### Pieces side by side -/

theorem textRun_stops (cs : List Char) : (textRun cs).rest = [] ∨
    ∃ ds, (textRun cs).rest = '\x7b' :: '[' :: ds ∧ ∀ es, ds ≠ '\x7b' :: ']' :: '\x7d' :: es := by
  fun_induction textRun cs with
  | case1 => exact .inl rfl
  | case2 cs ih => exact ih
  | case3 cs hescape => exact .inr ⟨cs, rfl, hescape⟩
  | case4 c cs _ _ ih => exact ih

/-- A piece that begins with brackets and no escape is a comment or opens a tag. -/
theorem token_of_brackets {ds : List Char} {p : Piece} (hescape : ∀ es, ds ≠ '\x7b' :: ']' :: '\x7d' :: es)
    (h : scan .text here '\x7b' ('[' :: ds) = .ok p) :
    ∃ t, p.token? here = some t ∧ (t.kind = .opening ∨ t.kind = .comment) := by
  rw [scan_text] at h
  unfold scanText at h
  split at h
  · next heq =>
    cases heq
    exact absurd rfl (hescape _)
  · split at h
    · next q hq =>
      obtain ⟨-, value, htoken, -⟩ := commentRun_reads hq
      cases h
      exact ⟨_, by rw [Piece.token?, htoken]; rfl, .inr rfl⟩
    · cases h
  · split at h
    · cases h
    · cases h
      exact ⟨_, rfl, .inl rfl⟩
  · next hopen => exact (hopen ds rfl).elim

/-- After text comes a tag, a comment or the end. -/
theorem head_after_text (h : tokensFrom .text here (textRun cs).rest = .ok ts) :
    ∀ u ∈ ts.head?, u.kind = .opening ∨ u.kind = .comment ∨ u.kind = .eof := by
  rcases textRun_stops cs with hnone | ⟨ds, hds, hescape⟩
  · rw [hnone, tokensFrom_nil fun _ => Mode.noConfusion] at h
    cases h
    simp
  · rw [hds, tokensFrom] at h
    split at h
    · cases h
    · next p hscan =>
      split at h
      · cases h
      · cases h
        obtain ⟨t, ht, hkind⟩ := token_of_brackets hescape hscan
        rw [ht]
        rintro _ ⟨⟩
        exact hkind.imp_right .inl

/-- Where the lexer stands outside tags the next token begins, and in tags there is no text. -/
def Begins (mode : Mode) (here : Position) (ts : List Token) : Prop :=
  ∀ u ∈ ts.head?, (mode = .text → u.first = here) ∧ (mode ≠ .text → u.kind ≠ .text)

theorem eq_textRun {p : Piece} {value : List Char} (h : scanText here cs = .ok p)
    (htoken : p.token = some (.text, value)) :
    p = textRun cs := by
  unfold scanText at h
  split at h
  · exact (Except.ok.inj h).symm
  · split at h
    · next q hq =>
      obtain ⟨-, value', hcomment, -⟩ := commentRun_reads hq
      cases h
      rw [hcomment] at htoken
      cases htoken
    · cases h
  · split at h
    · cases h
    · cases h
      cases htoken
  · exact (Except.ok.inj h).symm

/-- A piece of text and the token after it. -/
theorem borders_text {c : Char} {value : List Char} {p : Piece} (hscan : scan .text here c cs = .ok p)
    (htoken : p.token = some (.text, value)) (hlater : tokensFrom .text (here.after p.raw) p.rest = .ok ts)
    (hbegins : Begins .text (here.after p.raw) ts) :
    ∀ u ∈ ts.head?, Token.Borders ⟨.text, String.ofList value, here, here.last p.raw⟩ u := by
  intro u hu
  obtain rfl := eq_textRun hscan htoken
  have hkind := head_after_text hlater u hu
  refine ⟨fun _ => ⟨hkind, ?_⟩, fun htext => ?_⟩
  · obtain ⟨-, hvalue⟩ := textRun_reads (c :: cs)
    rw [hvalue] at htoken
    cases htoken
    rw [(hbegins u hu).1 rfl, Position.line_after, String.toList_ofList, Text.count_unescaped]
  · rw [htext] at hkind
    simp at hkind

/-- Text stands outside tags. -/
theorem Piece.Fits.outside_of_text {p : Piece} {inTag : Bool} {value : List Char} (h : p.Fits inTag)
    (htoken : p.token = some (.text, value)) : inTag = false := by
  cases h with
  | blanks token | closing token => rw [token] at htoken; cases htoken
  | outside | opening => rfl
  | inside token hkind =>
    rw [token] at htoken
    cases htoken
    exact absurd hkind (by decide)

/-- The end of a tag or a comment shares its last line with a text after it. -/
theorem Begins.borders_outside {t : Token} (hbegins : Begins mode here ts)
    (hkind : t.kind = .closing ∨ t.kind = .comment) (hline : here.line = t.last.line) :
    ∀ u ∈ ts.head?, t.Borders u := by
  intro u hu
  obtain ⟨hfirst, hinTag⟩ := hbegins u hu
  refine ⟨fun htext => ?_, fun htext => ⟨hkind, ?_⟩⟩
  · rw [htext] at hkind
    simp at hkind
  · have hmode : mode = .text := by
      by_contra hne
      exact hinTag hne htext
    rw [hfirst hmode, hline]

/-- In a tag no text is near. -/
theorem Begins.borders_inside {t : Token} (hbegins : Begins mode here ts) (hmode : mode ≠ .text)
    (hkind : t.kind ≠ .text) :
    ∀ u ∈ ts.head?, t.Borders u :=
  fun u hu => ⟨fun htext => absurd htext hkind, fun htext => absurd htext ((hbegins u hu).2 hmode)⟩

theorem borders_piece {c : Char} {p : Piece} {t : Token} (hscan : scan mode here c cs = .ok p)
    (ht : p.token? here = some t) (hlater : tokensFrom (mode.after here p) (here.after p.raw) p.rest = .ok ts)
    (hbegins : Begins (mode.after here p) (here.after p.raw) ts) : ∀ u ∈ ts.head?, t.Borders u := by
  obtain ⟨⟨kind, value⟩, htoken, rfl⟩ := Option.map_eq_some_iff.1 ht
  have hfits := (scan_fits hscan).2
  have hline : ∀ init d, p.raw = init ++ [d] → d ≠ '\n' → (here.after p.raw).line =
      (here.last p.raw).line := by
    intro init d hraw hd
    rw [hraw, Position.line_after_eq_last here hd]
  generalize hinTag : (mode != Mode.text) = inTag at hfits
  cases hfits with
  | blanks token =>
    rw [token] at htoken
    cases htoken
  | outside token hkind reads =>
    rw [token] at htoken
    cases htoken
    obtain rfl : mode = .text := by simpa using hinTag
    rcases hkind with rfl | rfl
    · have hmode : Mode.text.after here p = .text := by simp only [Mode.after, token]
      rw [hmode] at hlater hbegins
      exact borders_text hscan token hlater hbegins
    · exact hbegins.borders_outside (.inr rfl)
        (hline ('\x7b' :: '[' :: '%' :: (value ++ [']'])) '\x7d' (reads.trans (by simp)) (by decide))
  | opening token =>
    rw [token] at htoken
    cases htoken
    obtain rfl : mode = .text := by simpa using hinTag
    refine hbegins.borders_inside ?_ TokenKind.noConfusion
    simp only [Mode.after, token]
    exact Mode.noConfusion
  | closing token =>
    rw [token] at htoken
    cases htoken
    have hmode : mode ≠ .text := by simpa using hinTag
    rw [scan_of_ne_text hmode] at hscan
    exact hbegins.borders_outside (.inl rfl)
      (hline [']'] '\x7d' (Expr.raw_of_closing hscan token) (by decide))
  | inside token hkind =>
    rw [token] at htoken
    cases htoken
    have hmode : mode ≠ .text := by simpa using hinTag
    refine hbegins.borders_inside ?_ hkind.ne_text
    rw [after_of_ne_text hmode fun value h => ?_]
    · exact hmode
    · rw [token] at h
      cases h
      exact absurd hkind (by decide)

/-- Texts border on tags and comments, on lines that both share. -/
theorem borders_tokensFrom (h : tokensFrom mode here cs = .ok ts) :
    ts.IsChain Token.Borders ∧ Begins mode here ts := by
  fun_induction tokensFrom mode here cs generalizing ts with
  | case1 | case3 | case4 => cases h
  | case2 mode here hopen =>
    cases h
    refine ⟨.singleton _, ?_⟩
    rintro _ ⟨⟩
    exact ⟨fun _ => rfl, fun _ => TokenKind.noConfusion⟩
  | case5 mode here c cs p hscan later htokens ih =>
    cases h
    obtain ⟨hchain, hbegins⟩ := ih htokens
    obtain ⟨-, hfits⟩ := scan_fits hscan
    cases ht : p.token? here with
    | none =>
      rcases hfits.none_or here with ⟨-, -, hinTag⟩ | ⟨t, ht', -⟩
      · have hmode : mode ≠ .text := by simpa using hinTag
        have hafter : mode.after here p = mode := after_of_ne_text hmode fun value h => by
          rw [Piece.token?, h] at ht
          cases ht
        refine ⟨hchain, fun u hu => ⟨fun htext => absurd htext hmode, fun _ => (hbegins u hu).2 ?_⟩⟩
        rwa [hafter]
      · rw [ht] at ht'
        cases ht'
    | some t =>
      refine ⟨List.isChain_cons.2 ⟨borders_piece hscan ht htokens hbegins, hchain⟩, ?_⟩
      rintro _ ⟨⟩
      obtain ⟨⟨kind, value⟩, htoken, rfl⟩ := Option.map_eq_some_iff.1 ht
      refine ⟨fun _ => rfl, fun hmode => ?_⟩
      rintro rfl
      exact hmode (by simpa using hfits.outside_of_text htoken)

end Lexer

/-! ### Templates -/

/-- A tree that was read from some tokens: it has their texts in order, and interpolations
between brackets only. -/
structure Tree.ReadFrom (source : Source) (raw : Tree) (tokens : List Token) : Prop where
  tokenized : tokenize source.text = .ok tokens
  begins : ∀ u ∈ tokens.head?, u.first = .start
  inOrder : Token.InOrder tokens
  borders : tokens.IsChain Token.Borders
  standing : ∃ front eof, tokens = front ++ [eof] ∧ eof.kind = .eof ∧ ∀ t ∈ front, t.kind ≠ .eof ∧
    t.Stands source.text.toList
  texts : textNodes [raw] = (Token.texts tokens).map (Token.textNode (some source))
  interpolations : ∀ e l, (.interpolation e, l) ∈ nodes [raw] → Bracketed (some source) tokens e l
  apart : Apart raw.children
  opens : ∀ u ∈ tokens.head?, u.kind = .text →
    ∃ elements, raw.children = plain (.text u.value false) (some source) u.first u.last [] :: elements
  root : raw.kind = .sequence

theorem Tree.exists_readFrom {source : Source} {raw : Tree} (h : Tree.parse source = .ok raw) :
    ∃ tokens, ReadFrom source raw tokens := by
  obtain ⟨tokens, children, rest, htokens, hbody, heof, rfl⟩ := exists_of_parse h
  obtain ⟨front, rfl, hfront⟩ := Lexer.exists_standing htokens (List.nil_append _).symm rfl
  obtain ⟨hborders, hbegins⟩ := Lexer.borders_tokensFrom htokens
  obtain ⟨hrest, hgathered⟩ := gathers_readBody _ _ (Token.Borders.apart hborders) children rest hbody
  -- What is left is no text, being the end of the input or nothing.
  have hnone : Token.texts rest = [] := by
    cases rest with
    | nil => rfl
    | cons u rest =>
      have hu : u.kind = .eof := heof u rfl
      obtain ⟨before, hbefore⟩ := hrest
      rcases List.eq_nil_or_concat' rest with rfl | ⟨later, last, rfl⟩
      · rw [Token.texts_cons_of_ne (by rw [hu]; decide)]
        rfl
      · have hmem : u ∈ front := by
          rw [← List.cons_append, ← List.append_assoc] at hbefore
          exact (List.append_inj_left' hbefore rfl) ▸ List.mem_append_right before List.mem_cons_self
        exact absurd hu (hfront u hmem).1
  refine ⟨_, htokens, fun u hu => (hbegins u hu).1 rfl, Lexer.inOrder_tokensFrom htokens (by decide),
    hborders, ⟨front, _, rfl, rfl, hfront⟩, ?_, fun e l hmem => ?_,
    hgathered.apart, ?_, rfl⟩
  · have htexts := hgathered.texts
    rw [hnone, List.map_nil, List.append_nil] at htexts
    rw [textNodes_singleton]
    exact htexts
  · rw [nodes_cons, nodes_nil, List.append_nil] at hmem
    rcases List.mem_cons.1 hmem with hself | hmem
    · cases hself
    · exact hgathered.interpolations e l hmem
  · cases front with
    | nil =>
      rintro u ⟨⟩ htext
      cases htext
    | cons v front =>
      rintro u ⟨⟩ htext
      exact exists_of_readBody_text htext hbody

end Stencil
