import Stencil.Proofs.Reading.Order

/-! # Stretches of tags

What stands in a tag is read alike wherever it stands: of what comes before it only the position counts, and
of what comes after it only whether it goes on with the last token. So a stretch of a tag can be cut out of
a template and read on its own, and the other way round. -/

namespace Stencil

/-! ### Positions moved -/

/-- A position in a text, when the text begins at `there` instead of `here`. -/
def Position.moved (p here there : Position) : Position :=
  if p.line = here.line then ⟨there.line, p.column - here.column + there.column⟩
    else ⟨p.line - here.line + there.line, p.column⟩

def Token.moved (here there : Position) (t : Token) : Token :=
  { t with first := t.first.moved here there, last := t.last.moved here there }

namespace Position

variable {here there p : Position}

@[simp] theorem moved_self (here there : Position) : here.moved here there = there := by
  rw [moved, if_pos rfl, Int.sub_self, Int.zero_add]

theorem moved_next (h : here.line ≤ p.line) (there : Position) (c : Char) :
    (p.next c).moved here there = (p.moved here there).next c ∧ here.line ≤ (p.next c).line := by
  obtain ⟨hereLine, hereColumn⟩ := here
  obtain ⟨line, column⟩ := p
  dsimp only at h
  unfold moved next
  by_cases hc : c = '\n'
  · refine ⟨?_, by simp only [if_pos hc]; omega⟩
    have hline : ¬ line + 1 = hereLine := by omega
    simp only [if_pos hc, if_neg hline]
    split <;> simp only [mk.injEq, and_true] <;> omega
  · refine ⟨?_, by simp only [if_neg hc]; omega⟩
    simp only [if_neg hc]
    split <;> simp only [mk.injEq, true_and]
    omega

theorem moved_after (h : here.line ≤ p.line) (there : Position) (cs : List Char) :
    (p.after cs).moved here there = (p.moved here there).after cs ∧ here.line ≤ (p.after cs).line := by
  induction cs generalizing p with
  | nil => exact ⟨rfl, h⟩
  | cons c cs ih =>
    obtain ⟨hnext, hline⟩ := moved_next h there c
    rw [after_cons, after_cons, ← hnext]
    exact ih hline

theorem moved_last (h : here.line ≤ p.line) {cs : List Char} (hcs : cs ≠ []) :
    (p.last cs).moved here there = (p.moved here there).last cs := by
  rw [last_eq_after p hcs, last_eq_after _ hcs, (moved_after h there cs.dropLast).1]

theorem last_append (p : Position) (xs : List Char) {ys : List Char} (h : ys ≠ []) :
    p.last (xs ++ ys) = (p.after xs).last ys := by
  rw [last_eq_after _ h, ← after_append, last_eq_after _ (List.append_ne_nil_of_right_ne_nil xs h),
    List.dropLast_append_of_ne_nil h]

end Position

namespace Lexer

/-! ### Pieces cut short -/

/-- What comes after a text instead of something else does not go on with what the other did not go on with:
it is nothing, it begins with a blank, or it begins alike. -/
def Cuts (rest rest' : List Char) : Prop :=
  ∀ c, rest'.head? = some c → Text.isBlank c = true ∨ rest.head? = some c

section
variable {here : Position} {c : Char} {cs raw rest rest' : List Char}

theorem Cuts.append (h : Cuts rest rest') (raw : List Char) : Cuts (raw ++ rest) (raw ++ rest') := by
  cases raw with
  | nil => exact h
  | cons d raw => exact fun _ hd => .inr hd

theorem Cuts.bounds (h : Cuts rest rest') {p : Char → Bool} (hp : ∀ c, Text.isBlank c = true → p c = false)
    (hrest : Bounds p rest) :
    Bounds p rest' := fun c hc => (h c hc).elim (hp c) (hrest c)

theorem cuts_nil (rest : List Char) : Cuts rest [] := nofun

theorem cuts_blank {gap : List Char} (h : Text.AllBlank gap) (hne : gap ≠ []) : Cuts rest (gap ++ rest') := by
  obtain ⟨d, ds, rfl⟩ := List.exists_cons_of_ne_nil hne
  intro c hc
  cases hc
  exact .inl (h d List.mem_cons_self)

theorem not_isWordPart_of_isBlank (h : Text.isBlank c = true) : isWordPart c = false := by
  cases hpart : isWordPart c with
  | false => rfl
  | true => rw [not_isBlank_of_isWordPart hpart] at h; cases h

theorem not_isDigit_of_isBlank (h : Text.isBlank c = true) : isDigit c = false := by
  have hpart := not_isWordPart_of_isBlank h
  rw [isWordPart, Bool.or_eq_false_iff] at hpart
  exact hpart.2

theorem bounds_dropWhile (p : Char → Bool) (cs : List Char) : Bounds p (cs.dropWhile p) := by
  intro d hd
  have hnot := List.head?_dropWhile_not p cs
  rw [hd] at hnot
  exact Bool.eq_false_iff.2 fun h => by simp [h] at hnot

/-- A run of characters of a kind ends where it did. -/
theorem cut_takeWhile {p : Char → Bool} (hp : ∀ c, Text.isBlank c = true → p c = false)
    (htake : (cs ++ rest).takeWhile p = cs) (hdrop : (cs ++ rest).dropWhile p = rest) (h : Cuts rest rest') :
    (cs ++ rest').takeWhile p = cs ∧ (cs ++ rest').dropWhile p = rest' := by
  refine takeWhile_bounds (fun d hd => ?_) (h.bounds hp (hdrop ▸ bounds_dropWhile p (cs ++ rest)))
  rw [← htake] at hd
  exact List.mem_takeWhile_imp hd

theorem cut_decode {l : Text.Quoted.Literal} (h : Text.Quoted.decode cs = some l) (rest' : List Char) :
    Text.Quoted.decode (l.written ++ rest') = some { l with rest := rest' } := by
  fun_induction Text.Quoted.decode cs generalizing l with
  | case1 | case3 => cases h
  | case2 rest =>
    cases h
    rfl
  | case4 c rest ih =>
    obtain ⟨m, hm, rfl⟩ := Option.map_eq_some_iff.1 h
    simp only [Text.Quoted.Literal.push, List.cons_append, List.nil_append, Text.Quoted.decode,
      ih hm, Option.map_some]
  | case5 c rest hquote hend hescape ih =>
    obtain ⟨m, hm, rfl⟩ := Option.map_eq_some_iff.1 h
    have hbackslash : c ≠ '\\' := by
      rintro rfl
      cases rest with
      | nil => exact hend rfl rfl
      | cons d rest => exact hescape d rest rfl rfl
    simp only [Text.Quoted.Literal.push, List.cons_append, List.nil_append]
    rw [Text.Quoted.decode, ih hm]
    · rfl
    · exact hquote
    · exact fun h _ => hbackslash h
    · exact fun _ _ h _ => hbackslash h

theorem cut_punctuation {kind : TokenKind} (hspelling : spelling kind = c :: cs)
    (h : punctuation? (c :: (cs ++ rest)) = some kind) (hrest : Cuts rest rest') :
    punctuation? (c :: (cs ++ rest')) = some kind := by
  -- Only two marks go on when something follows, and both with the same character.
  have hequal : (∀ ds, rest ≠ '=' :: ds) → ∀ ds, rest' = '=' :: ds → False := by
    rintro hnot ds rfl
    rcases hrest '=' rfl with hblank | hsame
    · exact absurd hblank (by decide)
    · obtain ⟨es, rfl⟩ := List.head?_eq_some_iff.1 hsame
      exact hnot es rfl
  cases kind <;> cases hspelling
  case opening => cases h
  case equal =>
    have hnot : ∀ ds, rest ≠ '=' :: ds := by
      rintro ds rfl
      cases h
    change punctuation? ('=' :: rest') = _
    rw [punctuation?]
    exact hequal hnot
  case bang =>
    have hnot : ∀ ds, rest ≠ '=' :: ds := by
      rintro ds rfl
      cases h
    change punctuation? ('!' :: rest') = _
    rw [punctuation?]
    exact hequal hnot
  all_goals rfl

theorem cut_scanTag {kind : TokenKind} {value : List Char}
    (h : scanTag here c (cs ++ rest) = .ok ⟨c :: cs, some (kind, value), rest⟩) (hrest : Cuts rest rest')
    (there : Position) : scanTag there c (cs ++ rest') = .ok ⟨c :: cs, some (kind, value), rest'⟩ := by
  unfold scanTag at h ⊢
  split at h
  · exact absurd (congrArg Piece.token (Except.ok.inj h)) nofun
  next hblank =>
  rw [if_neg hblank]
  split at h
  · next kind' hkind =>
    obtain ⟨hspelling, htoken, hdrop⟩ := Piece.mk.inj (Except.ok.inj h)
    obtain ⟨rfl, rfl⟩ := Prod.mk.inj (Option.some.inj htoken)
    rw [cut_punctuation hspelling hkind hrest]
    simp [hspelling]
  next hnone =>
  split at h
  · next hquote =>
    split at h
    · next l hl =>
      obtain ⟨hraw, htoken, -⟩ := Piece.mk.inj (Except.ok.inj h)
      obtain ⟨rfl, rfl⟩ := Prod.mk.inj (Option.some.inj htoken)
      obtain rfl := (List.cons.inj hraw).2
      rw [hquote, punctuation_eq_none (by decide)]
      simp only [if_true, cut_decode hl rest']
    · cases h
  next hquote =>
  split at h
  · next hdigit =>
    obtain ⟨hraw, htoken, hdrop⟩ := Piece.mk.inj (Except.ok.inj h)
    obtain ⟨rfl, rfl⟩ := Prod.mk.inj (Option.some.inj htoken)
    have htake := (List.cons.inj hraw).2
    obtain ⟨htake', hdrop'⟩ := cut_takeWhile (fun _ => not_isDigit_of_isBlank) htake hdrop hrest
    rw [punctuation_eq_none (notMem_markStarts (by rw [isWordPart, hdigit, Bool.or_true]))]
    simp only [if_neg hquote, hdigit, if_true, htake, htake', hdrop']
  next hdigit =>
  split at h
  · next hstart =>
    obtain ⟨hraw, htoken, hdrop⟩ := Piece.mk.inj (Except.ok.inj h)
    obtain ⟨rfl, rfl⟩ := Prod.mk.inj (Option.some.inj htoken)
    have htake := (List.cons.inj hraw).2
    obtain ⟨htake', hdrop'⟩ := cut_takeWhile (fun _ => not_isWordPart_of_isBlank) htake hdrop hrest
    rw [punctuation_eq_none (notMem_markStarts (by rw [isWordPart, hstart, Bool.true_or]))]
    simp only [if_neg hquote, if_neg hdigit, hstart, if_true, htake, htake', hdrop']
  · cases h

/-! ### Stretches -/

/-- What is read from a position on in a tag: some characters give some tokens, none of which ends the tag,
when some text comes after them. -/
inductive Stretch : Position → List Char → List Token → List Char → Prop
  | done (here : Position) (rest : List Char) : Stretch here [] [] rest
  | blank {here : Position} {c : Char} {raw rest : List Char} {ts : List Token} (h : Text.isBlank c = true)
    (later : Stretch (here.next c) raw ts rest) : Stretch here (c :: raw) ts rest
  | token {here : Position} {c : Char} {cs raw rest value : List Char} {kind : TokenKind} {ts : List Token}
    (scan : scanTag here c (cs ++ (raw ++ rest)) = .ok ⟨c :: cs, some (kind, value), raw ++ rest⟩)
    (inside : kind.Inside)
    (later : Stretch (here.after (c :: cs)) raw ts rest) :
    Stretch here (c :: cs ++ raw) (⟨kind, String.ofList value, here, here.last (c :: cs)⟩ :: ts) rest

variable {mode : Mode} {ts front back : List Token}

theorem Stretch.blanks {gap : List Char} (hgap : Text.AllBlank gap)
    (h : Stretch (here.after gap) raw ts rest) :
    Stretch here (gap ++ raw) ts rest := by
  induction gap generalizing here with
  | nil => exact h
  | cons c gap ih =>
    rw [Text.allBlank_cons] at hgap
    exact .blank hgap.1 (ih hgap.2 h)

theorem Stretch.ne_nil (h : Stretch here raw ts rest) (hts : ts ≠ []) : raw ≠ [] := by
  cases h with
  | done => exact absurd rfl hts
  | blank => exact List.cons_ne_nil _ _
  | token => exact List.cons_ne_nil _ _

theorem Stretch.lexed (h : Stretch here raw ts rest) : ∀ t ∈ ts, t.Lexed := by
  induction h with
  | done => exact nofun
  | blank _ _ ih => exact ih
  | token scan _ _ ih => exact List.forall_mem_cons.2 ⟨scanTag_lexed scan rfl, ih⟩

/-- A stretch can be cut out, and something else can come after it. -/
theorem Stretch.cut (h : Stretch here raw ts rest) (hrest : Cuts rest rest') : Stretch here raw ts rest' := by
  induction h with
  | done here rest => exact .done here rest'
  | blank hblank _ ih => exact .blank hblank (ih hrest)
  | token scan inside _ ih => exact .token (cut_scanTag scan (hrest.append _) _) inside (ih hrest)

/-- A stretch can stand elsewhere. -/
theorem Stretch.moved (h : Stretch here raw ts rest) {origin : Position} (hline : origin.line ≤ here.line)
    (there : Position) :
    Stretch (here.moved origin there) raw (ts.map (Token.moved origin there)) rest := by
  induction h with
  | done here rest => exact .done _ rest
  | blank hblank _ ih =>
    obtain ⟨hnext, hline⟩ := Position.moved_next hline there _
    exact .blank hblank (hnext ▸ ih hline)
  | @token here c cs raw rest value kind ts scan inside _ ih =>
    obtain ⟨hafter, hline'⟩ := Position.moved_after hline there (c :: cs)
    rw [List.map_cons, Token.moved, Position.moved_last hline (List.cons_ne_nil c cs)]
    exact .token (cut_scanTag scan (fun _ h => .inr h) _) inside (hafter ▸ ih hline')

theorem scanTag_blank (hblank : Text.isBlank c = true) :
    scanTag here c cs = .ok ⟨c :: cs.takeWhile Text.isBlank, none, cs.dropWhile Text.isBlank⟩ := by
  rw [scanTag, if_pos hblank]

theorem scan_of_ne_text (hmode : mode ≠ .text) (here : Position) (c : Char) (cs : List Char) :
    scan mode here c cs = scanTag here c cs := by
  cases mode with
  | text => exact absurd rfl hmode
  | tag | expression => rfl

theorem after_of_ne_text (hmode : mode ≠ .text) {p : Piece} (hp : ∀ value, p.token ≠ some (.closing, value)) :
    mode.after here p = mode := by
  unfold Mode.after
  split
  · exact absurd rfl hmode
  · next opened value htoken => exact absurd htoken (hp value)
  · rfl

/-- Blanks can be read one by one. -/
theorem tokensFrom_blank (hmode : mode ≠ .text) (hblank : Text.isBlank c = true) :
    tokensFrom mode here (c :: cs) = tokensFrom mode (here.next c) cs := by
  have hstep : ∀ {here : Position} {c : Char} {cs : List Char}, Text.isBlank c = true →
      tokensFrom mode here (c :: cs) =
      tokensFrom mode (here.after (c :: cs.takeWhile Text.isBlank)) (cs.dropWhile Text.isBlank) := by
    intro here c cs hblank
    rw [tokensFrom_cons ((scan_of_ne_text hmode here c cs).trans (scanTag_blank hblank)),
      after_of_ne_text hmode (by simp)]
    cases tokensFrom mode (here.after (c :: cs.takeWhile Text.isBlank)) (cs.dropWhile Text.isBlank) <;> rfl
  rw [hstep hblank]
  cases cs with
  | nil => rfl
  | cons d cs =>
    by_cases hd : Text.isBlank d = true
    · rw [hstep hd, List.takeWhile_cons_of_pos hd, List.dropWhile_cons_of_pos hd]
      rfl
    · rw [List.takeWhile_cons_of_neg hd, List.dropWhile_cons_of_neg hd]
      rfl

theorem tokensFrom_blanks {gap : List Char} (hmode : mode ≠ .text) (hgap : Text.AllBlank gap) :
    tokensFrom mode here (gap ++ cs) = tokensFrom mode (here.after gap) cs := by
  induction gap generalizing here with
  | nil => rfl
  | cons c gap ih =>
    rw [Text.allBlank_cons] at hgap
    rw [List.cons_append, tokensFrom_blank hmode hgap.1, ih hgap.2, Position.after_cons]

theorem tokensFrom_nil (hmode : ∀ opened, mode ≠ .tag opened) :
    tokensFrom mode here [] = .ok [⟨.eof, "", here, here⟩] := by
  cases mode with
  | tag opened => exact absurd rfl (hmode opened)
  | text | expression =>
    rw [tokensFrom]
    rintro _ ⟨⟩

/-- The brackets that close the last tag of a text. -/
theorem tokensFrom_closing (opened here : Position) :
    ∃ close eof, tokensFrom (.tag opened) here [']', '\x7d'] = .ok [close, eof] ∧
    close.kind = .closing ∧ eof.kind = .eof := by
  have hscan : scan (.tag opened) here ']' ['\x7d'] =
    .ok ⟨spelling .closing, some (.closing, spelling .closing), []⟩ := rfl
  rw [tokensFrom_cons hscan, tokensFrom_nil (by simp [Mode.after])]
  exact ⟨_, _, rfl, rfl, rfl⟩

/-- The lexer takes a stretch and goes on after it. -/
theorem Stretch.tokensFrom (h : Stretch here raw ts rest) (hmode : mode ≠ .text) :
    tokensFrom mode here (raw ++ rest) = (tokensFrom mode (here.after raw) rest).map (ts ++ ·) := by
  induction h with
  | done here rest =>
    rw [List.nil_append, Position.after_nil]
    cases Lexer.tokensFrom mode here rest <;> rfl
  | blank hblank _ ih => rw [List.cons_append, tokensFrom_blank hmode hblank, ih, Position.after_cons]
  | @token here c cs raw rest value kind ts scan inside _ ih =>
    have hclosing : ∀ v, (Piece.mk (c :: cs) (some (kind, value)) (raw ++ rest)).token ≠
        some (.closing, v) := by
      rintro v ⟨⟩
      exact absurd inside (by decide)
    rw [List.append_assoc, List.cons_append, tokensFrom_cons ((scan_of_ne_text hmode here c _).trans scan),
      after_of_ne_text hmode hclosing, ih, Position.after_append]
    cases Lexer.tokensFrom mode ((here.after (c :: cs)).after raw) rest <;> rfl

/-- Tokens of a tag are read in a stretch that ends with the last of them. -/
theorem exists_stretch (hmode : mode ≠ .text) (h : tokensFrom mode here cs = .ok (front ++ back))
    (hinside : ∀ t ∈ front, t.kind.Inside) :
    ∃ raw rest, cs = raw ++ rest ∧ Stretch here raw front rest ∧
      tokensFrom mode (here.after raw) rest = .ok back ∧
      ∀ t, front.getLast? = some t → t.last = here.last raw := by
  cases front with
  | nil => exact ⟨[], cs, rfl, .done here cs, h, nofun⟩
  | cons t front =>
    generalize htokens : t :: front ++ back = tokens at h
    fun_induction Lexer.tokensFrom mode here cs generalizing t front tokens with
    | case1 | case3 | case4 => cases h
    | case2 =>
      cases h
      obtain ⟨rfl, -⟩ := List.cons.inj htokens
      exact absurd (hinside _ List.mem_cons_self) (by simp [TokenKind.Inside])
    | case5 mode here c cs p hscan later hlater ih =>
      cases h
      rw [scan_of_ne_text hmode] at hscan
      obtain ⟨hcs, hfits⟩ := scanTag_fits hscan
      cases hfits with
      | blanks token hblank =>
        rw [after_of_ne_text hmode (by simp [token])] at hlater ih
        rw [Piece.token?, token] at htokens
        obtain ⟨raw, rest, hrest, hstretch, hback, hlast⟩ := ih hmode t front hinside later htokens hlater
        refine ⟨p.raw ++ raw, rest, by rw [← hcs, hrest, List.append_assoc], .blanks hblank hstretch,
          by rw [Position.after_append]; exact hback, fun u hu => ?_⟩
        rw [Position.last_append _ _ (hstretch.ne_nil (List.cons_ne_nil t front))]
        exact hlast u hu
      | closing token =>
        rw [Piece.token?, token] at htokens
        obtain ⟨rfl, -⟩ := List.cons.inj htokens
        exact absurd (hinside _ List.mem_cons_self) (by simp [TokenKind.Inside])
      | @inside _ kind value token hkind _ =>
        obtain ⟨raw, found, rest⟩ := p
        obtain rfl : found = some (kind, value) := token
        obtain ⟨d, ds, rfl⟩ := List.exists_cons_of_ne_nil
          (raw_ne_nil ((scan_of_ne_text hmode here c cs).trans hscan))
        obtain ⟨rfl, rfl⟩ := List.cons.inj hcs
        have hclosing : ∀ v, (Piece.mk (d :: ds) (some (kind, value)) rest).token ≠ some (.closing, v) := by
          rintro v ⟨⟩
          exact absurd hkind (by decide)
        rw [after_of_ne_text hmode hclosing] at hlater ih
        obtain ⟨rfl, hlaterTokens⟩ := List.cons.inj htokens
        cases front with
        | nil =>
          obtain rfl : back = later := hlaterTokens
          refine ⟨d :: ds, rest, rfl, ?_, hlater, ?_⟩
          · have hstretch : Stretch here (d :: ds ++ []) [_] rest := .token hscan hkind (.done _ rest)
            rwa [List.append_nil] at hstretch
          · rintro _ ⟨⟩
            rfl
        | cons u front =>
          obtain ⟨raw, rest', rfl, hstretch, hback, hlast⟩ :=
            ih hmode u front (fun v hv => hinside v (List.mem_cons_of_mem _ hv)) later hlaterTokens hlater
          refine ⟨d :: ds ++ raw, rest', by rw [List.append_assoc]; rfl, .token hscan hkind hstretch,
            by rw [Position.after_append]; exact hback, fun v hv => ?_⟩
          rw [Position.last_append _ _ (hstretch.ne_nil (List.cons_ne_nil u front))]
          exact hlast v hv

/-- A piece stands for no token if it is blank and stands in a tag, and for one that is
not the end otherwise. -/
theorem Piece.Fits.none_or {inTag : Bool} {p : Piece} (h : p.Fits inTag) (here : Position) :
    (p.token? here = none ∧ Text.AllBlank p.raw ∧ inTag = true) ∨
      ∃ t, p.token? here = some t ∧ t.first = here ∧ t.kind ≠ .eof ∧ (t.kind.Inside → inTag = true) := by
  cases h with
  | blanks token hblank => exact .inl ⟨by rw [Piece.token?, token]; rfl, hblank, rfl⟩
  | outside token hkind =>
    refine .inr ⟨_, by rw [Piece.token?, token]; rfl, rfl, ?_⟩
    rcases hkind with rfl | rfl <;>
      exact ⟨TokenKind.noConfusion, fun h => absurd h (by simp [TokenKind.Inside])⟩
  | opening token =>
    exact .inr
      ⟨_, by rw [Piece.token?, token]; rfl, rfl, TokenKind.noConfusion, fun h =>
        absurd h (by simp [TokenKind.Inside])⟩
  | closing token => exact .inr ⟨_,
    by rw [Piece.token?, token]; rfl, rfl, TokenKind.noConfusion, fun _ => rfl⟩
  | inside token hkind =>
    refine .inr ⟨_, by rw [Piece.token?, token]; rfl, rfl, ?_, fun _ => rfl⟩
    rintro rfl
    exact absurd hkind (by decide)

theorem tokensFrom_ne_nil (mode : Mode) (here : Position) (cs : List Char) :
    tokensFrom mode here cs ≠ .ok [] := by
  fun_induction Lexer.tokensFrom mode here cs with
  | case1 | case2 | case3 | case4 =>
    intro h
    cases h
  | case5 mode here c cs p hscan later hlater ih =>
    intro h
    obtain ⟨-, rfl⟩ := List.append_eq_nil_iff.1 (Except.ok.inj h)
    exact ih hlater

/-- When nothing is left but the end, nothing is left but blanks, and these only in tags. -/
theorem allBlank_of_eof {t : Token} (h : tokensFrom mode here cs = .ok (t :: ts)) (ht : t.kind = .eof) :
    ts = [] ∧ Text.AllBlank cs ∧ (mode = .text → cs = []) := by
  generalize htokens : t :: ts = tokens at h
  fun_induction Lexer.tokensFrom mode here cs generalizing tokens with
  | case1 | case3 | case4 => cases h
  | case2 =>
    cases h
    exact ⟨(List.cons.inj htokens).2, Text.allBlank_nil, fun _ => rfl⟩
  | case5 mode here c cs p hscan later hlater ih =>
    cases h
    obtain ⟨hcs, hfits⟩ := scan_fits hscan
    rcases hfits.none_or here with ⟨hnone, hblank, htag⟩ | ⟨u, hsome, -, hu, -⟩
    · rw [hnone] at htokens
      obtain ⟨hts, hrest, -⟩ := ih later htokens hlater
      refine ⟨hts, hcs ▸ Text.allBlank_append.2 ⟨hblank, hrest⟩, ?_⟩
      rintro rfl
      cases htag
    · rw [hsome] at htokens
      obtain ⟨rfl, -⟩ := List.cons.inj htokens
      exact absurd ht hu

/-- A token of a tag begins where the text before it ends, and the lexer is in a tag there. -/
theorem exists_text_before {t : Token} (h : tokensFrom mode here cs = .ok (front ++ t :: back))
    (ht : t.kind.Inside) :
    ∃ pre rest mode', cs = pre ++ rest ∧ mode' ≠ .text ∧
      tokensFrom mode' (here.after pre) rest = .ok (t :: back) ∧
      t.first = here.after pre := by
  generalize htokens : front ++ t :: back = tokens at h
  fun_induction Lexer.tokensFrom mode here cs generalizing front tokens with
  | case1 | case3 | case4 => cases h
  | case2 =>
    cases h
    obtain rfl := List.mem_singleton.1 (htokens ▸ List.mem_append_right front List.mem_cons_self)
    exact absurd ht (by simp [TokenKind.Inside])
  | case5 mode here c cs p hscan later hlater ih =>
    cases h
    obtain ⟨hcs, hfits⟩ := scan_fits hscan
    have hafter : ∀ {front : List Token}, front ++ t :: back = later → ∃ pre rest mode', c :: cs =
        pre ++ rest ∧ mode' ≠ .text ∧
        tokensFrom mode' (here.after pre) rest = .ok (t :: back) ∧ t.first = here.after pre := by
      intro front hfront
      obtain ⟨pre, rest, mode', hrest, hmode, htokens, hfirst⟩ := ih later hfront hlater
      exact ⟨p.raw ++ pre, rest, mode',
        by rw [← hcs, hrest, List.append_assoc], hmode, by rwa [Position.after_append],
        by rwa [Position.after_append]⟩
    rcases hfits.none_or here with ⟨hnone, -, -⟩ | ⟨u, hsome, hfirst, -, hinside⟩
    · rw [hnone] at htokens
      exact hafter htokens
    · rw [hsome] at htokens
      cases front with
      | nil =>
        obtain ⟨rfl, rfl⟩ := List.cons.inj htokens
        refine ⟨[], c :: cs, mode, rfl, bne_iff_ne.1 (hinside ht), ?_, hfirst⟩
        rw [Position.after_nil, tokensFrom_cons hscan, hlater, hsome]
        rfl
      | cons v front => exact hafter (List.cons.inj htokens).2

end

end Lexer

end Stencil
