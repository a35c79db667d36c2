import Stencil.Proofs.Cleanup.Meaning
import Stencil.Proofs.Reading.Fragments
import Stencil.Proofs.Reading.Rereading
import Stencil.TemplateError

/-! # Expressions in templates and on their own

The source of an expression in a template is the text that it was read from, and that text alone reads as
the same expression. The other way round, the text of an expression means the same in a tag. -/

namespace Stencil

open Lexer Shape

/-! ### Parts -/

/-- The parts of an expression are the expression itself and the parts of its parameters. -/
inductive Expr.Part (e : Expr) : Expr → Prop
  | self : Part e e
  | parameter {whole operand : Expr} {role : Role} (hp : ⟨role, .expr operand⟩ ∈ whole.parameters)
    (h : Part e operand) : Part e whole

theorem Kind.mem_expressions {kind : Kind} {role : Role} {e : Expr} (hp : ⟨role, .expr e⟩ ∈ kind.parameters) :
    e ∈ kind.expressions := by
  cases kind with
  | conditional branch condition => cases condition <;> simp_all [parameters, expressions]
  | _ => simp_all [parameters, expressions]

/-- Some of the tokens, one after the other, spell the expression. -/
def Expr.SpelledIn (source : Option Source) (tokens : List Token) (e : Expr) : Prop :=
  ∃ before front after n, tokens = before ++ (front ++ after) ∧ Spelled source n front e

namespace Expr

variable {source : Option Source} {n : Nat} {tokens ts : List Token} {e operand whole : Expr} {role : Role}

theorem Spelled.spelledIn (h : Spelled source n ts e) (before after : List Token)
    (htokens : tokens = before ++ (ts ++ after)) :
    SpelledIn source tokens e := ⟨before, ts, after, n, htokens, h⟩

theorem SpelledIn.mono (h : SpelledIn source ts e) (before after : List Token)
    (htokens : tokens = before ++ (ts ++ after)) :
    SpelledIn source tokens e := by
  obtain ⟨pre, front, post, n, rfl, hfront⟩ := h
  exact hfront.spelledIn (before ++ pre) (post ++ after) (by simp only [htokens, List.append_assoc])

/-- The parameters of an expression are spelled by some of its tokens. -/
theorem Spelled.parameter (h : Spelled source n ts whole) (hp : ⟨role, .expr operand⟩ ∈ whole.parameters) :
    SpelledIn source ts operand := by
  cases h with
  | string | integer | yes | no | null | var => cases hp
  | @group _ opening close ts _ _ h _ =>
    obtain ⟨-, rfl⟩ : _ ∧ operand = _ := by simpa [parameters] using hp
    exact h.spelledIn [opening] [close] rfl
  | @dot _ mark key ts _ h =>
    obtain ⟨-, rfl⟩ : _ ∧ operand = _ := by simpa [parameters] using hp
    exact h.spelledIn [] [mark, key] rfl
  | @eval _ mark name ts _ h =>
    obtain ⟨-, rfl⟩ : _ ∧ operand = _ := by simpa [parameters] using hp
    exact h.spelledIn [] [mark, name] rfl
  | @not _ mark ts _ _ _ h =>
    obtain ⟨-, rfl⟩ : _ ∧ operand = _ := by simpa [parameters] using hp
    exact h.spelledIn [mark] [] (by simp)
  | @binary _ _ mark ts us _ _ _ _ hleft hright =>
    obtain ⟨-, rfl⟩ | ⟨-, rfl⟩ : (_ ∧ operand = _) ∨ (_ ∧ operand = _) := by simpa [parameters] using hp
    · exact hleft.spelledIn [] (mark :: us) rfl
    · exact hright.spelledIn (ts ++ [mark]) [] (by simp)

theorem SpelledIn.part (h : SpelledIn source tokens whole) (hpart : Part e whole) :
    SpelledIn source tokens e := by
  induction hpart with
  | self => exact h
  | parameter hp _ ih =>
    obtain ⟨before, front, after, n, htokens, hfront⟩ := h
    exact ih ((hfront.parameter hp).mono before after htokens)

/-! ### Slices -/

/-- The place of an expression in a text of its own. -/
def alone (e : Expr) : Location → Location := (·.moved none e.location.first ⟨evaluatedFirstLine, 1⟩)

/-- What an expression is spelled by in a template is the slice of its place, and that alone is
read as the expression. -/
theorem SpelledIn.slice {source : Source} (htokens : tokenize source.text = .ok tokens)
    (h : SpelledIn (some source) tokens e) :
    ∃ s, e.location.slice? = some s ∧ s ≠ "" ∧ parse s = .ok (e.relocated e.alone) := by
  obtain ⟨before, front, after, n, rfl, hfront⟩ := h
  obtain ⟨t, ts, hcons, -, hfirst⟩ := hfront.begins
  obtain ⟨us, u, hlast, hend⟩ := hfront.ends
  have hinside := hfront.inside
  rw [hcons, List.cons_append] at htokens
  obtain ⟨pre, rest, mode, htext, hmode, hrest, hhere⟩ :=
    exists_text_before htokens (hinside t (hcons ▸ List.mem_cons_self))
  rw [← List.cons_append, ← hcons] at hrest
  obtain ⟨raw, post, rfl, hstretch, -, hraw⟩ := exists_stretch hmode hrest hinside
  have hne : raw ≠ [] := hstretch.ne_nil (by rw [hcons]; exact List.cons_ne_nil t ts)
  have hbegin : e.location.first = Position.start.after pre := hfirst.trans hhere
  have hstop : e.location.last = (Position.start.after pre).last raw :=
    hend.trans (hraw u (by rw [hlast, List.getLast?_append, List.getLast?_singleton]; rfl))
  have hslice : e.location.slice? = some (String.ofList raw) := by
    simp only [Location.slice?, hfront.location_source, hbegin, hstop, Option.bind_some, Source.slice, htext,
      Source.sliceOf_eq pre post hne, Option.map_some]
  have hspelled := (hfront.mono (Nat.zero_le n)).moved none e.location.first ⟨evaluatedFirstLine, 1⟩
  have hread : parse (String.ofList raw) = .ok (e.relocated e.alone) := by
    refine parse_eq_ok_iff.2 ⟨raw, [], _, ?_, Text.allBlank_nil, ?_, hspelled⟩
    · rw [String.toList_ofList, List.append_nil]
    · rw [← hbegin] at hstretch
      have hmoved := (hstretch.cut (cuts_nil post)).moved (Int.le_refl _) ⟨evaluatedFirstLine, 1⟩
      rwa [Position.moved_self] at hmoved
  exact ⟨String.ofList raw, hslice, fun h => hne (String.ofList_eq_empty_iff.1 h), hread⟩

/-- What is read as an expression is spelled by some of the tokens. -/
theorem readsWith_spelled : Tree.ReadsWith tokens source (SpelledIn source tokens) := by
  intro ts hts e rest h
  obtain ⟨he, hrest⟩ := gives_read hts e rest h
  obtain ⟨front, rfl, hfront⟩ := spelled_read h
  obtain ⟨before, htokens⟩ := hts.suffix
  exact ⟨⟨he, hfront.spelledIn before rest htokens.symm⟩, hrest⟩

end Expr

/-! ### Templates -/

theorem Tree.Each.of_holds {P : Kind → Prop} {a : Arena} {ss : List Shape} {ts : List Tree}
    (h : Holds a ss ts) (hts : Tree.Each P ts) :
    ∀ x ∈ ids ss, P (a.get x).kind := by
  induction ss using Shape.forest_induction generalizing ts with
  | nil => simp
  | cons id parts ss ihParts ih =>
    cases hts with
    | nil => simp only [Holds] at h
    | cons kind body tail =>
      rw [Holds] at h
      obtain ⟨hkind, -, hparts, hss⟩ := h
      rw [ids]
      exact List.forall_mem_cons.2 ⟨hkind ▸ kind, List.forall_mem_append.2 ⟨ihParts hparts body, ih hss tail⟩⟩

namespace Template

variable {name : Option String} {text : String} {strip : Bool} {t : Template}

/-- The expressions of a template are spelled by tokens of its text. -/
theorem spelledIn_of_parse (h : Template.parse name text strip = .ok t) :
    ∃ tokens, tokenize text = .ok tokens ∧
    ∀ x ∈ t.elements, ∀ e ∈ (t.arena.get x).kind.expressions,
    Expr.SpelledIn (some ⟨name, text⟩) tokens e := by
  obtain ⟨raw, parts, us, hraw, hfinished⟩ := exists_finished_of_parse h
  obtain ⟨tokens, children, rest, htokens, hbody, -, rfl⟩ := Tree.exists_of_parse hraw
  have hleft := Token.left_self (lexed_tokensFrom htokens)
  have hchildren := (Tree.gives_readBody Expr.readsWith_spelled tokens.length hleft children rest hbody).1
  have hloaded := Tree.Each.of_holds hfinished.holds (.cons nofun hchildren.expressions .nil)
  refine ⟨tokens, htokens, fun x hx e he => ?_⟩
  rw [hfinished.elements] at hx
  cases hfinished.evolves.element x with
  | text _ _ _ _ _ _ hkind =>
    rw [hkind] at he
    cases he
  | other hkind => exact hloaded x (hfinished.fewer.subset hx) e (hkind ▸ he)

/-- The source of every expression of a template, at any depth, is a slice of the text that alone is read as
that expression. So an error at an expression shows just the expression. -/
theorem parse_snippet (h : Template.parse name text strip = .ok t) :
    ∀ x ∈ t.elements, ∀ role whole, ⟨role, .expr whole⟩ ∈ (t.arena.get x).kind.parameters →
      ∀ e, Expr.Part e whole →
      ∃ s, e.location.slice? = some s ∧ e.source = s ∧ (ErrorSite.ofExpr e).snippet = s ∧
        ∃ e', Expr.parse s = .ok e' ∧ e'.unplaced = e.unplaced := by
  obtain ⟨tokens, htokens, hspelled⟩ := spelledIn_of_parse h
  intro x hx role whole hp e hpart
  obtain ⟨s, hslice, hne, hparse⟩ :=
    ((hspelled x hx whole (Kind.mem_expressions hp)).part hpart).slice htokens
  have hsource : e.source = s := by
    simp only [Expr.source, hslice, String.isEmpty_iff, if_neg hne]
  exact ⟨s, hslice, hsource, hsource, _, hparse, Expr.unplaced_relocated e⟩

/-- A key on the next line, in parentheses. -/
theorem parse_snippet_lines :
    let source : Source := ⟨none, "\x7b[(a.\nb)]\x7d"⟩
    let inner : Expr := .dot ⟨source, ⟨1, 4⟩, ⟨2, 1⟩⟩ (.var ⟨source, ⟨1, 4⟩, ⟨1, 4⟩⟩ "a") "b"
    ∃ t, Template.parse none source.text true = .ok t ∧
      (t.arena.get t.root).kind = .interpolation (.group ⟨source, ⟨1, 3⟩, ⟨2, 2⟩⟩ inner) ∧
      inner.source = "a.\nb" ∧ ∃ e', Expr.parse "a.\nb" = .ok e' ∧ e'.unplaced = inner.unplaced := by
  intro source inner
  have hslice : inner.location.slice? = some "a.\nb" := by decide +kernel
  obtain ⟨t, ht, hread⟩ := exists_of_parses none source.text true
    (fun t => decide (t.root ∈ t.elements ∧
      (t.arena.get t.root).kind = .interpolation (.group ⟨source, ⟨1, 3⟩, ⟨2, 2⟩⟩ inner)))
    (by decide +kernel)
  obtain ⟨hroot, hkind⟩ := of_decide_eq_true hread
  have hp : ⟨.content, .expr (.group ⟨source, ⟨1, 3⟩, ⟨2, 2⟩⟩ inner)⟩ ∈
      (t.arena.get t.root).kind.parameters := by
    rw [hkind]
    exact List.mem_cons_self
  obtain ⟨s, hs, hsource, -, hparse⟩ :=
    parse_snippet ht t.root hroot _ _ hp inner (.parameter List.mem_cons_self .self)
  obtain rfl : s = "a.\nb" := Option.some.inj (hs.symm.trans hslice)
  exact ⟨t, ht, hkind, hsource, hparse⟩

/-! ### Expressions in tags -/

/-- A template that is just a tag with a text in it. -/
def tagged (s : String) : String := "\x7b[ " ++ s ++ " ]\x7d"

/-- A position of an expression that stands alone, in a tag that begins a template
with the expression in it. -/
def inTag (p : Position) : Position :=
  if p.line = evaluatedFirstLine then ⟨1, p.column + 3⟩ else ⟨p.line - evaluatedFirstLine + 1, p.column⟩

theorem inTag_eq_moved (p : Position) : inTag p = p.moved ⟨evaluatedFirstLine, 1⟩ ⟨1, 4⟩ := by
  unfold inTag Position.moved
  dsimp only
  split
  · simp only [Position.mk.injEq, true_and]
    omega
  · rfl

/-- A mark is read as a token that no expression begins with. -/
theorem notMem_starts_of_isMark {here : Position} {c : Char} {cs : List Char} {p : Piece} {kind : TokenKind}
    {value : List Char} (h : scanTag here c cs = .ok p) (htoken : p.token = some (kind, value))
    (hc : isMark c = true) : kind ∉ Expr.starts := by
  simp only [isMark, Bool.or_eq_true, decide_eq_true_eq] at hc
  obtain (rfl | rfl) | rfl := hc
  · cases h; cases htoken; decide
  · cases h; cases htoken; decide
  · cases h; cases htoken; decide

/-- An expression does not begin with a mark. -/
theorem isMark_of_stretch {here : Position} {raw rest : List Char} {ts : List Token}
    (h : Stretch here raw ts rest) {source : Option Source} {n : Nat} {e : Expr}
    (he : Expr.Spelled source n ts e) :
    ∃ c cs, (raw ++ rest).dropWhile Text.isBlank = c :: cs ∧ isMark c = false := by
  obtain ⟨t, ts', hts, ⟨hstarts, -⟩, -⟩ := he.begins
  clear he
  induction h with
  | done => cases hts
  | blank hblank _ ih =>
    obtain ⟨c, cs, hcs, hc⟩ := ih hts
    exact ⟨c, cs, by rw [List.cons_append, List.dropWhile_cons_of_pos hblank, hcs], hc⟩
  | @token here c cs raw rest value kind ts scan _ _ _ =>
    obtain ⟨rfl, -⟩ := List.cons.inj hts
    have hblank : ¬ Text.isBlank c = true := by
      intro hblank
      rw [scanTag_blank hblank] at scan
      exact absurd (congrArg Piece.token (Except.ok.inj scan)) nofun
    refine ⟨c, cs ++ raw ++ rest,
      by rw [List.cons_append, List.cons_append, List.dropWhile_cons_of_neg hblank], ?_⟩
    exact Bool.eq_false_iff.2 fun hc => notMem_starts_of_isMark scan rfl hc hstarts

/-- The tokens of an expression in a tag. -/
theorem tokenize_inTag {s : String} {e : Expr} (h : Expr.parse s = .ok e) (source : Option Source) :
    ∃ opened front close eof, tokenize (tagged s) = .ok (opened :: (front ++ [close, eof])) ∧
      opened.kind = .opening ∧ close.kind = .closing ∧ eof.kind = .eof ∧
      Expr.Spelled source 0 front (e.relocated fun l => ⟨source, inTag l.first, inTag l.last⟩) := by
  obtain ⟨raw, gap, ts, hs, hgap, hstretch, hts⟩ := Expr.parse_eq_ok_iff.1 h
  have hmode : Mode.tag .start ≠ .text := nofun
  have hend : Text.AllBlank (gap ++ [' ']) := Text.allBlank_append.2 ⟨hgap, by decide⟩
  -- Blanks come after the expression in the tag, too.
  have hmoved : Stretch ⟨1, 4⟩ raw (ts.map (Token.moved ⟨evaluatedFirstLine, 1⟩ ⟨1, 4⟩))
      (gap ++ [' '] ++ [']', '\x7d']) := by
    have hcuts : Cuts gap (gap ++ [' '] ++ [']', '\x7d']) := cuts_blank hend (by simp)
    have hmoved := (hstretch.cut hcuts).moved (Int.le_refl _) ⟨1, 4⟩
    rwa [Position.moved_self] at hmoved
  have htext : (tagged s).toList = '\x7b' :: '[' :: ' ' :: (raw ++ (gap ++ [' '] ++ [']', '\x7d'])) := by
    simp [tagged, String.toList_append, hs]
  have hspelled := hts.moved source ⟨evaluatedFirstLine, 1⟩ ⟨1, 4⟩
  have hmark : markAfterBlanks? (' ' :: (raw ++ (gap ++ [' '] ++ [']', '\x7d']))) = none := by
    obtain ⟨c, cs, hcs, hc⟩ := isMark_of_stretch hmoved hspelled
    exact Kind.markAfterBlanks?_of_dropWhile (by rw [List.dropWhile_cons_of_pos (by decide), hcs]) hc
  obtain ⟨close, eof, hclosing, hclose, heof⟩ :=
    tokensFrom_closing .start ((Position.after ⟨1, 4⟩ raw).after (gap ++ [' ']))
  have hscan := scanText_opening ⟨by decide, by decide⟩ hmark .start
  have hopened : tokensFrom (.tag .start) ⟨1, 3⟩ (' ' :: (raw ++ (gap ++ [' '] ++ [']', '\x7d']))) =
      .ok (ts.map (Token.moved ⟨evaluatedFirstLine, 1⟩ ⟨1, 4⟩) ++ [close, eof]) := by
    have hnext : Position.next ⟨1, 3⟩ ' ' = ⟨1, 4⟩ := rfl
    rw [tokensFrom_blank hmode (by decide), hnext, hmoved.tokensFrom hmode,
      tokensFrom_blanks hmode hend, hclosing]
    rfl
  refine ⟨⟨.opening, String.ofList openMark, .start, Position.start.last openMark⟩,
    ts.map (Token.moved ⟨evaluatedFirstLine, 1⟩ ⟨1, 4⟩), close, eof, ?_, rfl, hclose, heof, ?_⟩
  · rw [tokenize, htext, tokensFrom_cons ((scan_text _ _ _).trans hscan)]
    exact congrArg (Except.map _) hopened
  · simpa only [Location.moved, inTag_eq_moved] using hspelled

theorem parse_of_tree {u : Tree} (h : Tree.parse ⟨name, text⟩ = .ok u) (strip : Bool) :
    Template.parse name text strip = .ok (ofTree ⟨name, text⟩ strip u) := by
  simp only [Template.parse, h]
  rfl

/-- An interpolation alone takes the place of the sequence that it stands in. -/
theorem ofTree_interpolation (source : Source) (strip : Bool) (e : Expr) (location : Location)
    (first last : Position) :
    ((Template.ofTree source strip
      ⟨.sequence, location, false, [.plain (.interpolation e) source first last []]⟩).arena.get
      (Template.ofTree source strip ⟨.sequence, location, false,
        [.plain (.interpolation e) source first last []]⟩).root).kind =
        .interpolation e := by
  have hleaf : Arena.load {} (Tree.plain (.interpolation e) source first last []) =
      (⟨#[⟨.interpolation e, ⟨source, first, last⟩, none, 0, none⟩]⟩, 0) := by
    rw [Arena.load_eq, Tree.plain, Arena.loads]
    rfl
  have hload : Arena.load {} ⟨.sequence, location, false,
      [Tree.plain (.interpolation e) source first last []]⟩ =
      (⟨#[⟨.interpolation e, ⟨source, first, last⟩, some 1, 0, none⟩,
        ⟨.sequence, location, none, 0, some ⟨[0], 6⟩⟩]⟩, 1) := by
    rw [Arena.load_eq, Arena.loads_cons, hleaf, Arena.loads]
    rfl
  rw [Template.ofTree, hload]
  cases strip <;> rfl

/-- The body of a template that is just a tag with an expression in it. -/
theorem readBody_interpolation {source : Option Source} {e : Expr} {front : List Token}
    {opened close eof : Token} (h : Expr.Spelled source 0 front e) (hopened : opened.kind = .opening)
    (hclose : close.kind = .closing) (heof : eof.kind = .eof) (bound : Nat) :
    Tree.readBody source (bound + 1) (opened :: (front ++ [close, eof])) =
      .ok ([Tree.plain (.interpolation e) source opened.first close.last []], [eof]) := by
  have hread : Expr.read source (front ++ [close, eof]) = .ok (e, [close, eof]) :=
    h.read ⟨by simp [nextKind, hclose], by simp [nextKind, hclose, Expr.operator?]⟩
  have hinterpolation : Tree.readInterpolation source opened (front ++ [close, eof]) =
      .ok (Tree.plain (.interpolation e) source opened.first close.last [], [eof]) := by
    simp only [Tree.readInterpolation, hread, expect_cons hclose, bind, Except.bind, pure, Except.pure]
  have hends : nextKind [eof] = .eof := heof
  have hend : Tree.readBody source bound [eof] = .ok ([], [eof]) :=
    Tree.readBody_of_endsHere (.inl hends) bound
  -- The first token tells that the tag neither closes a block nor holds a directive or a call.
  obtain ⟨t, ts, rfl, ⟨hstarts, -⟩, -⟩ := h.begins
  have hnext : nextKind (t :: ts ++ [close, eof]) = t.kind := rfl
  refine Tree.readBody_cons (Tree.not_endsHere_opening hopened ?_ _) ?_ hend
  · constructor <;> intro hkind <;> exact absurd (hkind ▸ hstarts) (by decide)
  · rw [Tree.readElement_opening hopened, hnext]
    split
    · next hkind => exact absurd (hkind ▸ hstarts) (by decide)
    · next hkind => exact absurd (hkind ▸ hstarts) (by decide)
    · exact hinterpolation

/-- A text that is read as an expression can be put in a tag, where it is read as the same expression at the
places that it has there. -/
theorem parse_inTag {s : String} {e : Expr} (h : Expr.parse s = .ok e) (name : Option String) (strip : Bool) :
    ∃ t e', Template.parse name (tagged s) strip = .ok t ∧ (t.arena.get t.root).kind = .interpolation e' ∧
      e'.unplaced = e.unplaced ∧
      e' = e.relocated fun l => ⟨some ⟨name, tagged s⟩, inTag l.first, inTag l.last⟩ := by
  obtain ⟨opened, front, close, eof, htokens, hopened, hclose, heof, hspelled⟩ :=
    tokenize_inTag h (some ⟨name, tagged s⟩)
  have hbody := readBody_interpolation hspelled hopened hclose heof (front ++ [close, eof]).length
  have htree : Tree.parse ⟨name, tagged s⟩ = _ := Tree.parse_of_readBody htokens hbody heof
  exact ⟨_, _, parse_of_tree htree strip, ofTree_interpolation _ strip _ _ _ _,
    Expr.unplaced_relocated e, rfl⟩

/-- A tag whose expression goes over two lines and holds what else would close it. -/
theorem parse_inTag_lines : ∃ e t e', Expr.parse "a +\n(\"]\x7d\")" = .ok e ∧
    Template.parse none "\x7b[ a +\n(\"]\x7d\") ]\x7d" true = .ok t ∧
    (t.arena.get t.root).kind = .interpolation e' ∧
    e'.unplaced = e.unplaced ∧ e'.location.first = ⟨1, 4⟩ ∧ e'.location.last = ⟨2, 6⟩ := by
  have hplaced : (Expr.parse "a +\n(\"]\x7d\")").toOption.any
      (fun e => decide (inTag e.location.first = ⟨1, 4⟩ ∧ inTag e.location.last = ⟨2, 6⟩)) =
        true := by decide +kernel
  cases he : Expr.parse "a +\n(\"]\x7d\")" with
  | error error =>
    rw [he] at hplaced
    cases hplaced
  | ok e =>
    rw [he] at hplaced
    obtain ⟨hfirst, hlast⟩ : inTag e.location.first = ⟨1, 4⟩ ∧ inTag e.location.last = ⟨2, 6⟩ :=
      of_decide_eq_true hplaced
    obtain ⟨t, e', ht, hkind, hsame, rfl⟩ := parse_inTag he none true
    refine ⟨e, t, _, rfl, ht, hkind, hsame, ?_, ?_⟩
    · rw [Expr.location_relocated]
      exact hfirst
    · rw [Expr.location_relocated]
      exact hlast

end Template

end Stencil
