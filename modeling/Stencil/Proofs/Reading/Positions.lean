import Stencil.Proofs.Reading.Order

/-! # Positions in a text

The lexer passes a text from its first position on, one character after the other. Every token but the end
of the input begins and ends at a character, and so does whatever the lexer objects to. -/

namespace Stencil

namespace Position

/-- The position of a character of a text that begins at a position. -/
def OfChar (first : Position) (cs : List Char) (p : Position) : Prop :=
  ∃ front c back, cs = front ++ c :: back ∧ p = first.after front

/-- The position of a character of a text, or the one right after the last. -/
def Meets (first : Position) (cs : List Char) (p : Position) : Prop := OfChar first cs p ∨ p = first.after cs

/-- A position whose line and column are integers of 32 bits. -/
structure Counted (p : Position) : Prop where
  line : Int32.minValue.toInt ≤ p.line ∧ p.line ≤ Int32.maxValue.toInt
  column : Int32.minValue.toInt ≤ p.column ∧ p.column ≤ Int32.maxValue.toInt

section
variable {first p : Position} {cs pre : List Char}

/-- A text takes at most a line or a column for each character. -/
theorem after_le (p : Position) (cs : List Char) :
    p.line ≤ (p.after cs).line ∧ (p.after cs).line ≤ p.line + cs.length ∧
    (p.after cs).column ≤ max p.column 1 + cs.length := by
  induction cs generalizing p with
  | nil => exact ⟨Int.le_refl _, by simp, by simp only [after_nil, List.length_nil]; omega⟩
  | cons c cs ih =>
    obtain ⟨hline, hline', hcolumn⟩ := ih (p.next c)
    have hnext : p.line ≤ (p.next c).line ∧ (p.next c).line ≤ p.line + 1 ∧
        max (p.next c).column 1 ≤ max p.column 1 + 1 := by
      unfold next
      split <;> refine ⟨?_, ?_, ?_⟩ <;> dsimp only <;> omega
    rw [after_cons, List.length_cons]
    push_cast
    omega

theorem OfChar.line (h : OfChar first cs p) : p.line < first.line + cs.length := by
  obtain ⟨front, c, back, rfl, rfl⟩ := h
  have := (after_le first front).2.1
  simp only [List.length_append, List.length_cons]
  push_cast
  omega

theorem Meets.exists_append (h : Meets first cs p) :
    ∃ front back, cs = front ++ back ∧ p = first.after front := by
  rcases h with ⟨front, c, back, hcs, hp⟩ | hp
  · exact ⟨front, c :: back, hcs, hp⟩
  · exact ⟨cs, [], (List.append_nil cs).symm, hp⟩

/-- The positions of a text that is not too long can be counted. -/
theorem Meets.counted (h : Meets first cs p) (hcolumn : first.column = 1)
    (hline : Int32.minValue.toInt ≤ first.line) (hfirst : first.line ≤ 1)
    (hlength : (cs.length : Int) < Int32.maxValue.toInt) : p.Counted := by
  obtain ⟨front, back, rfl, rfl⟩ := h.exists_append
  rw [List.length_append, Int.natCast_add] at hlength
  have hmin : Int32.minValue.toInt = -2147483648 := by decide
  have hmax : Int32.maxValue.toInt = 2147483647 := by decide
  obtain ⟨hline', hline'', hcolumn'⟩ := after_le first front
  have hpositive := column_after (show 1 ≤ first.column by omega) front
  constructor <;> constructor <;> omega

end

end Position

namespace Lexer

section
variable {mode : Mode} {here first : Position} {c : Char} {cs pre : List Char} {p : Piece}
  {ts : List Token} {e : ParseError}

theorem error_scanText {cs : List Char} (h : scanText here cs = .error e) :
    e.position = here ∨ ∃ d ds, cs = openMark ++ d :: ds ∧ e.position = here.after openMark := by
  unfold scanText at h
  split at h
  · cases h
  · split at h
    · cases h
    · cases h
      exact .inl rfl
  · next rest _ _ =>
    split at h
    · next m hmark =>
      cases h
      cases rest with
      | nil => cases hmark
      | cons d ds => exact .inr ⟨d, ds, rfl, rfl⟩
    · cases h
  · cases h

theorem error_scanTag (h : scanTag here c cs = .error e) : e.position = here := by
  unfold scanTag at h
  split at h
  · cases h
  split at h
  · cases h
  split at h
  · split at h
    · cases h
    · cases h
      rfl
  split at h
  · cases h
  split at h
  · cases h
  · cases h
    rfl

/-- The lexer objects to a character of what it is about to read. -/
theorem error_scan (h : scan mode here c cs = .error e) : Position.OfChar here (c :: cs) e.position := by
  have hhere : e.position = here → Position.OfChar here (c :: cs) e.position := fun h => ⟨[], c, cs, rfl, h⟩
  cases mode with
  | text =>
    rcases error_scanText h with h | ⟨d, ds, hcs, h⟩
    · exact hhere h
    · exact ⟨openMark, d, ds, hcs, h⟩
  | tag | expression => exact hhere (error_scanTag h)

/-- The positions in a part of a text are positions in the text. -/
theorem ofChar_append {q : Position} (hhere : here = first.after pre) (h : Position.OfChar here cs q) :
    Position.OfChar first (pre ++ cs) q := by
  obtain ⟨front, c, back, rfl, rfl⟩ := h
  exact ⟨pre ++ front, c, back, (List.append_assoc pre front (c :: back)).symm,
    by rw [hhere, Position.after_append]⟩

/-- A token that begins and ends at characters of a text, and is not the end of the input. -/
structure StandsIn (first : Position) (cs : List Char) (t : Token) : Prop where
  begins : Position.OfChar first cs t.first
  ends : Position.OfChar first cs t.last
  kind : t.kind ≠ .eof

theorem standsIn_token (h : scan mode here c cs = .ok p) (hcolumn : 1 ≤ here.column) {t : Token}
    (ht : p.token? here = some t) :
    StandsIn here (c :: cs) t := by
  obtain ⟨hcs, hfits⟩ := scan_fits h
  have hraw := raw_ne_nil h
  obtain ⟨hfirst, hlast, -⟩ := placed_token h hcolumn ht
  obtain ⟨⟨kind, value⟩, htoken, rfl⟩ := Option.map_eq_some_iff.1 ht
  refine ⟨⟨[], c, cs, rfl, hfirst⟩, ⟨p.raw.dropLast, p.raw.getLast hraw, p.rest, ?_, ?_⟩,
    (hfits.reads htoken).2⟩
  · rw [← hcs, List.append_cons, List.dropLast_append_getLast]
  · rw [hlast, Position.last_eq_after here hraw]

/-- The brackets that open a tag stand in the text. -/
theorem ofChar_after (hmode : ∀ opened, mode = .tag opened → Position.OfChar first (pre ++ c :: cs) opened)
    (hhere : here = first.after pre) {opened : Position} (h : mode.after here p = .tag opened) :
    Position.OfChar first (pre ++ c :: cs) opened := by
  unfold Mode.after at h
  split at h
  · cases h
    exact ⟨pre, c, cs, rfl, hhere⟩
  · cases h
  · exact hmode opened h

/-- Tokens that begin and end at characters of a text, and after them the end of the input, right
after the last character. -/
def Covers (first : Position) (cs : List Char) (tokens : List Token) : Prop :=
  ∃ front, tokens = front ++ [⟨.eof, "", first.after cs, first.after cs⟩] ∧ ∀ t ∈ front, StandsIn first cs t

/-- The tokens of a text cover it. What the lexer objects to is at a character of the text. -/
theorem standsIn_tokensFrom (hmode : ∀ opened, mode = .tag opened → Position.OfChar first (pre ++ cs) opened)
    (hhere : here = first.after pre) (hcolumn : 1 ≤ first.column) :
    (∀ e, tokensFrom mode here cs = .error e → Position.OfChar first (pre ++ cs) e.position) ∧
    ∀ ts, tokensFrom mode here cs = .ok ts → Covers first (pre ++ cs) ts := by
  fun_induction tokensFrom mode here cs generalizing pre with
  | case1 here opened =>
    refine ⟨?_, by rintro _ ⟨⟩⟩
    rintro _ ⟨⟩
    exact hmode opened rfl
  | case2 mode here hopen =>
    refine ⟨by rintro _ ⟨⟩, ?_⟩
    rintro _ ⟨⟩
    rw [Covers, List.append_nil, ← hhere]
    exact ⟨[], rfl, fun _ ht => absurd ht List.not_mem_nil⟩
  | case3 mode here c cs e hscan =>
    refine ⟨?_, by rintro _ ⟨⟩⟩
    rintro _ ⟨⟩
    exact ofChar_append hhere (error_scan hscan)
  | case4 mode here c cs p hscan e htokens ih =>
    obtain ⟨hcs, -⟩ := scan_fits hscan
    have hwhole : pre ++ c :: cs = (pre ++ p.raw) ++ p.rest := by rw [← hcs, List.append_assoc]
    have hnext : here.after p.raw = first.after (pre ++ p.raw) := by rw [hhere, Position.after_append]
    refine ⟨?_, by rintro _ ⟨⟩⟩
    rintro _ ⟨⟩
    rw [hwhole]
    exact (ih (fun opened h => hwhole ▸ ofChar_after hmode hhere h) hnext).1 e htokens
  | case5 mode here c cs p hscan tokens htokens ih =>
    obtain ⟨hcs, -⟩ := scan_fits hscan
    have hwhole : pre ++ c :: cs = (pre ++ p.raw) ++ p.rest := by rw [← hcs, List.append_assoc]
    have hnext : here.after p.raw = first.after (pre ++ p.raw) := by rw [hhere, Position.after_append]
    refine ⟨by rintro _ ⟨⟩, ?_⟩
    rintro _ ⟨⟩
    obtain ⟨front, rfl, hfront⟩ :=
      (ih (fun opened h => hwhole ▸ ofChar_after hmode hhere h) hnext).2 tokens htokens
    rw [← hwhole] at hfront ⊢
    refine ⟨(p.token? here).toList ++ front, (List.append_assoc _ _ _).symm, fun t ht => ?_⟩
    rcases List.mem_append.1 ht with ht | ht
    · have ht := standsIn_token hscan (hhere ▸ Position.column_after hcolumn pre) (Option.mem_toList.1 ht)
      exact ⟨ofChar_append hhere ht.begins, ofChar_append hhere ht.ends, ht.kind⟩
    · exact hfront t ht

/-- A text has at most a token for each of its characters, and the end of the input. -/
theorem length_tokensFrom (h : tokensFrom mode here cs = .ok ts) : ts.length ≤ cs.length + 1 := by
  fun_induction tokensFrom mode here cs generalizing ts with
  | case1 | case3 | case4 => cases h
  | case2 =>
    cases h
    exact Nat.le_refl 1
  | case5 mode here c cs p hscan tokens htokens ih =>
    cases h
    have hrest := length_rest_scan hscan
    have htoken : (p.token? here).toList.length ≤ 1 := by cases p.token? here <;> simp
    have := ih htokens
    rw [List.length_append]
    omega

theorem Covers.meets {tokens : List Token} (h : Covers first cs tokens) :
    ∀ t ∈ tokens, Position.Meets first cs t.first := by
  obtain ⟨front, rfl, hfront⟩ := h
  exact List.forall_mem_append.2
    ⟨fun t ht => .inl (hfront t ht).begins, List.forall_mem_singleton.2 (.inr rfl)⟩

end

end Lexer

theorem covers_tokenize (text : String) :
    (∀ e, tokenize text = .error e → Position.OfChar .start text.toList e.position) ∧
    ∀ ts, tokenize text = .ok ts → Lexer.Covers .start text.toList ts :=
  Lexer.standsIn_tokensFrom (fun _ h => Lexer.Mode.noConfusion h)
    (show Position.start = Position.start.after [] from rfl) (by decide)

theorem covers_tokenizeExpression (text : String) (firstLine : Int) :
    (∀ e, tokenizeExpression text firstLine = .error e →
      Position.OfChar ⟨firstLine, 1⟩ text.toList e.position) ∧
    ∀ ts, tokenizeExpression text firstLine = .ok ts → Lexer.Covers ⟨firstLine, 1⟩ text.toList ts :=
  Lexer.standsIn_tokensFrom (fun _ h => Lexer.Mode.noConfusion h)
    (show Position.mk firstLine 1 = Position.after ⟨firstLine, 1⟩ [] from rfl) (Int.le_refl 1)

end Stencil
