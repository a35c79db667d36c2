import Stencil.Proofs.Reading.Stretches
import Stencil.Proofs.Reading.Tags

/-! # Expressions that stand alone

A text is read as an expression if the tokens of a stretch of it spell the expression and only blanks
come after them. So what can be written is what can be read, and the canonical form of an expression
reads back as the expression. -/

namespace Stencil

open Lexer

/-- A place in a text that begins at `there` instead of `here`, or in another source. -/
def Location.moved (l : Location) (source : Option Source) (here there : Position) : Location :=
  ⟨source, l.first.moved here there, l.last.moved here there⟩

namespace Expr

/-! ### Places -/

/-- An expression with other places. -/
def relocated (place : Location → Location) : Expr → Expr
  | string loc s => string (place loc) s
  | integer loc n => integer (place loc) n
  | boolean loc b => boolean (place loc) b
  | null loc => null (place loc)
  | var loc name => var (place loc) name
  | dot loc target key => dot (place loc) (target.relocated place) key
  | binary loc op left right => binary (place loc) op (left.relocated place) (right.relocated place)
  | not loc operand => not (place loc) (operand.relocated place)
  | group loc inner => group (place loc) (inner.relocated place)
  | eval loc target => eval (place loc) (target.relocated place)

variable {place : Location → Location}

@[simp] theorem location_relocated (e : Expr) : (e.relocated place).location = place e.location := by
  cases e <;> rfl

@[simp] theorem unplaced_relocated (e : Expr) : (e.relocated place).unplaced = e.unplaced := by
  induction e <;> simp only [relocated, unplaced, *]

section
variable {source : Option Source} {n : Nat} {ts : List Token} {e : Expr}

/-- What spells an expression stands in tags. -/
theorem Spelled.inside (h : Spelled source n ts e) : ∀ t ∈ ts, t.kind.Inside := by
  induction h with
  | string kind | integer kind | yes kind | no kind | null kind | var kind =>
    exact List.forall_mem_singleton.2 (by rw [kind]; decide)
  | group kind _ hclose ih =>
    refine List.forall_mem_cons.2
      ⟨by rw [kind]; decide, List.forall_mem_append.2 ⟨ih, List.forall_mem_singleton.2 ?_⟩⟩
    rw [hclose]
    decide
  | dot _ kind hkey ih | eval _ kind hkey _ ih =>
    refine List.forall_mem_append.2
      ⟨ih, List.forall_mem_cons.2 ⟨by rw [kind]; decide, List.forall_mem_singleton.2 ?_⟩⟩
    rw [hkey]
    decide
  | not _ kind _ ih => exact List.forall_mem_cons.2 ⟨by rw [kind]; decide, ih⟩
  | @binary _ op _ _ _ _ _ _ kind _ _ ihLeft ihRight =>
    refine List.forall_mem_append.2 ⟨ihLeft, List.forall_mem_cons.2 ⟨?_, ihRight⟩⟩
    rw [kind]
    cases op <;> decide

/-- Tokens that are moved spell the expression with its places moved. -/
theorem Spelled.moved (h : Spelled source n ts e) (source' : Option Source) (here there : Position) :
    Spelled source' n (ts.map (Token.moved here there)) (e.relocated (·.moved source' here there)) := by
  induction h with
  | string kind => exact .string kind
  | integer kind h => exact .integer kind h
  | yes kind => exact .yes kind
  | no kind => exact .no kind
  | null kind => exact .null kind
  | var kind => exact .var kind
  | @group n opening close ts _ kind _ hclose ih =>
    have hall : Spelled source' n (opening.moved here there ::
        (ts.map (Token.moved here there) ++ [close.moved here there])) _ :=
      .group kind ih hclose
    rwa [List.map_cons, List.map_append]
  | @dot n mark key _ _ _ kind hkey ih =>
    have hall : Spelled source' n (_ ++ [mark.moved here there, key.moved here there]) _ := .dot ih kind hkey
    rw [location_relocated] at hall
    rwa [List.map_append]
  | @eval n mark name _ _ _ kind hname hvalue ih =>
    have hall : Spelled source' n (_ ++ [mark.moved here there, name.moved here there]) _ :=
      .eval ih kind hname hvalue
    rw [location_relocated] at hall
    rwa [List.map_append]
  | @not n mark _ _ hn kind _ ih =>
    have hall : Spelled source' n (mark.moved here there :: _) _ := .not hn kind ih
    rwa [location_relocated] at hall
  | @binary n _ mark _ _ _ _ hn kind _ _ ihLeft ihRight =>
    have hall : Spelled source' n (_ ++ mark.moved here there :: _) _ := .binary hn kind ihLeft ihRight
    rw [location_relocated, location_relocated] at hall
    rwa [List.map_append, List.map_cons]

/-! ### What an expression is read from -/

/-- A text is read as an expression exactly if a stretch of it spells the expression and is
followed by blanks only. -/
theorem parse_eq_ok_iff {text : String} :
    parse text = .ok e ↔ ∃ raw gap ts, text.toList = raw ++ gap ∧ Text.AllBlank gap ∧
    Stretch ⟨evaluatedFirstLine, 1⟩ raw ts gap ∧ Spelled none 0 ts e := by
  have hmode : Mode.expression ≠ .text := nofun
  constructor
  · intro h
    obtain ⟨tokens, htokens, hrest⟩ := exists_of_bind_eq_ok h
    obtain ⟨⟨e', rest⟩, hread, hend⟩ := exists_of_bind_eq_ok hrest
    obtain ⟨front, rfl, hfront⟩ := spelled_read hread
    obtain ⟨raw, gap, htext, hstretch, hgap, -⟩ := exists_stretch hmode htokens hfront.inside
    cases rest with
    | nil => exact absurd hgap (tokensFrom_ne_nil _ _ _)
    | cons t rest =>
      dsimp only at hend
      split at hend
      · next heof =>
        cases hend
        exact ⟨raw, gap, front, htext, (allBlank_of_eof hgap heof).2.1, hstretch, hfront⟩
      · cases hend
  · rintro ⟨raw, gap, ts, htext, hgap, hstretch, hts⟩
    obtain ⟨t, htokens, heof⟩ :
        ∃ t, tokensFrom .expression ⟨evaluatedFirstLine, 1⟩ text.toList =
        .ok (ts ++ [t]) ∧ t.kind = .eof := by
      have hend : tokensFrom .expression (Position.after ⟨evaluatedFirstLine, 1⟩ raw) (gap ++ []) = _ :=
        tokensFrom_blanks hmode hgap
      rw [List.append_nil, tokensFrom_nil (by simp)] at hend
      exact ⟨_, by rw [htext, hstretch.tokensFrom hmode, hend]; rfl, rfl⟩
    have hread : read none (ts ++ [t]) = .ok (e, [t]) :=
      hts.read ⟨by simp [nextKind, heof], by simp [nextKind, heof, operator?]⟩
    rw [parse, tokenizeExpression, htokens]
    simp only [bind, Except.bind, hread, pure, Except.pure, if_pos heof]

/-! ### Canonical forms -/

theorem raw_of_closing {here : Position} {c : Char} {cs value : List Char} {p : Piece}
    (h : scanTag here c cs = .ok p) (htoken : p.token = some (.closing, value)) : p.raw = [']', '\x7d'] := by
  unfold scanTag at h
  split at h
  · cases h
    cases htoken
  split at h
  · cases h
    obtain ⟨rfl, -⟩ := Prod.mk.inj (Option.some.inj htoken)
    rfl
  split at h
  · split at h
    · cases h
      cases htoken
    · cases h
  split at h
  · cases h
    cases htoken
  split at h
  · cases h
    have hword := (ofWord_inside (String.ofList (c :: cs.takeWhile isWordPart))).1
    rw [(Prod.mk.inj (Option.some.inj htoken)).1] at hword
    exact absurd hword (by decide)
  · cases h

/-- Before the token that closes a tag, nothing is left of the tag but blanks. -/
theorem exists_blanks_of_closing {opened here : Position} {cs : List Char} {t : Token}
    (h : tokensFrom (.tag opened) here cs = .ok (t :: ts)) (ht : t.kind = .closing) :
    ∃ gap rest here', cs = gap ++ (']' :: '\x7d' :: rest) ∧ Text.AllBlank gap ∧
    tokensFrom .text here' rest = .ok ts := by
  generalize hmode : Mode.tag opened = mode at h
  generalize htokens : t :: ts = tokens at h
  fun_induction Lexer.tokensFrom mode here cs generalizing tokens with
  | case1 | case3 | case4 => cases h
  | case2 mode here hopen => exact absurd hmode.symm (hopen opened)
  | case5 mode here c cs p hscan later hlater ih =>
    cases h
    subst hmode
    obtain ⟨hcs, hfits⟩ := scanTag_fits hscan
    cases hfits with
    | blanks token hblank =>
      rw [Piece.token?, token] at htokens
      have hafter : (Mode.tag opened).after here p = .tag opened := by simp only [Mode.after, token]
      rw [hafter] at hlater ih
      obtain ⟨gap, rest, here', hrest, hgap, hts⟩ := ih rfl later htokens hlater
      exact ⟨p.raw ++ gap, rest, here',
        by rw [← hcs, hrest, List.append_assoc], Text.allBlank_append.2 ⟨hblank, hgap⟩, hts⟩
    | closing token hraw =>
      rw [Piece.token?, token] at htokens
      have hafter : (Mode.tag opened).after here p = .text := by simp only [Mode.after, token]
      rw [hafter] at hlater
      obtain ⟨-, rfl⟩ := List.cons.inj htokens
      exact ⟨[], p.rest, _, by rw [← hcs, raw_of_closing hscan token]; rfl, Text.allBlank_nil, hlater⟩
    | inside token hkind =>
      rw [Piece.token?, token] at htokens
      obtain ⟨rfl, -⟩ := List.cons.inj htokens
      obtain rfl := ht
      exact absurd hkind (by decide)

/-- The canonical form of an expression is read as the expression. -/
theorem exists_of_canonical (h : e.Written 0) :
    ∃ e', parse e.canonical = .ok e' ∧ e'.unplaced = e.unplaced := by
  -- The form is lexed as a tag; what closes the tag is taken off again.
  have hbounds : Bounds isWordPart [']', '\x7d'] := by
    rintro _ ⟨⟩
    decide
  obtain ⟨mode, here, front, ⟨opened, rfl⟩, hforms, htokens⟩ :=
    lexes_canonical h hbounds (.tag .start) ⟨evaluatedFirstLine, 1⟩ ⟨.start, rfl⟩
  obtain ⟨close, eof, hend, hclose, heof⟩ := tokensFrom_closing opened here
  rw [hend] at htokens
  obtain ⟨e', he', hsame⟩ := h.spelled none hforms
  have hmode : Mode.tag .start ≠ .text := nofun
  obtain ⟨raw, rest, hraw, hstretch, hrest, -⟩ := exists_stretch hmode htokens he'.inside
  obtain ⟨gap, later, here', rfl, hgap, hlater⟩ := exists_blanks_of_closing hrest hclose
  obtain rfl := (allBlank_of_eof hlater heof).2.2 rfl
  rw [← List.append_assoc] at hraw
  have hcuts : Cuts (gap ++ [']', '\x7d']) gap := by
    have h := Cuts.append (cuts_nil [']', '\x7d']) gap
    rwa [List.append_nil] at h
  exact ⟨e', parse_eq_ok_iff.2 ⟨raw, gap, front, List.append_cancel_right hraw, hgap,
    hstretch.cut hcuts, he'⟩, hsame⟩

/-- Exactly what can be written is read. What is read from a text can be written; what can be written is
read from its canonical form, up to places. So canonical forms tell expressions apart, and printing what was
read from one gives it again. -/
theorem parse_written : (∀ (text : String) (e : Expr), parse text = .ok e → e.Written 0) ∧
    (∀ e : Expr, e.Written 0 → ∃ e', parse e.canonical = .ok e' ∧ e'.unplaced = e.unplaced) ∧
    (∀ e e' : Expr, e.Written 0 → e'.Written 0 → e.canonical = e'.canonical → e.unplaced = e'.unplaced) ∧
    ∀ (text : String) (e : Expr), parse text = .ok e → ∃ e', parse e.canonical = .ok e' ∧
    e'.canonical = e.canonical := by
  have hwritten : ∀ (text : String) (e : Expr), parse text = .ok e → e.Written 0 := by
    intro text e h
    obtain ⟨_, _, _, -, -, hstretch, hts⟩ := parse_eq_ok_iff.1 h
    exact hts.written hstretch.lexed
  refine ⟨hwritten, fun e h => exists_of_canonical h, fun e e' h h' hsame => ?_, fun text e h => ?_⟩
  · obtain ⟨read, hread, hunplaced⟩ := exists_of_canonical h
    obtain ⟨read', hread', hunplaced'⟩ := exists_of_canonical h'
    rw [hsame, hread'] at hread
    cases hread
    exact hunplaced.symm.trans hunplaced'
  · obtain ⟨e', he', hsame⟩ := exists_of_canonical (hwritten text e h)
    exact ⟨e', he', canonical_eq_of_unplaced hsame⟩

end

end Expr

end Stencil
