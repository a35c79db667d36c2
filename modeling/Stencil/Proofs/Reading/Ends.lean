import Stencil.Proofs.Cleanup.Detached
import Stencil.Proofs.Reading.Cursor
import Stencil.Proofs.Reading.Positions
import Stencil.Proofs.Reading.Spans

/-! # Reading comes to an end

Whatever the text is, reading it ends with a template or an expression, or with an error at one of its
characters or right after the last, and nothing that is taken for granted on the way fails. -/

namespace Stencil

/-! ### The lines of a template -/

/-- Elements do not begin below the lines that the topmost ones begin and end on. -/
theorem Shape.Holds.line_le {a : Arena} {ss : List Shape} {ts : List Tree} {last : Int} (h : Holds a ss ts)
    (hnested : Tree.Nested ts)
    (hlast : ∀ t ∈ ts, t.location.first.line ≤ last ∧ t.location.last.line ≤ last) :
    ∀ x ∈ ids ss, (a.get x).location.first.line ≤ last := by
  induction ss using forest_induction generalizing ts with
  | nil => simp
  | cons id parts ss ihParts ih =>
    cases hnested with
    | nil => simp only [Holds] at h
    | @cons t ts fits hparts order body tail =>
      rw [Holds] at h
      obtain ⟨-, hlocation, hchildren, hss⟩ := h
      obtain ⟨ht, hts⟩ := List.forall_mem_cons.1 hlast
      refine forall_mem_ids_cons.2 ⟨hlocation ▸ ht.1, ihParts hchildren body fun c hc => ?_, ih hss tail hts⟩
      obtain ⟨hsolid, hinside⟩ := hparts c hc
      -- A child ends inside the parent, and no later than it begins.
      have hends := hinside.last
      have horder := (body.fits hc).order hsolid
      unfold Position.Before at hends horder
      omega

/-- A template begins and ends on lines on which it has characters, or on the first. -/
theorem Tree.lines_spanOf (source : Option Source) {front : List Token} {first : Position} {cs : List Char}
    (h : ∀ t ∈ front, Lexer.StandsIn first cs t) (eof : Token) {last : Int} (hone : 1 ≤ last)
    (hlast : first.line + cs.length ≤ last + 1) :
    (spanOf source (front ++ [eof])).first.line ≤ last ∧
    (spanOf source (front ++ [eof])).last.line ≤ last := by
  rcases List.eq_nil_or_concat' front with rfl | ⟨init, final, rfl⟩
  · exact ⟨hone, hone⟩
  · obtain ⟨t, tail, hhead⟩ := List.exists_cons_of_ne_nil (show init ++ [final] ≠ [] by simp)
    have hspan : spanOf source (init ++ [final] ++ [eof]) = ⟨source, t.first, final.last⟩ := by
      rw [spanOf, List.dropLast_concat, List.getLast?_concat, hhead]
      rfl
    have hfirst := (h t (by rw [hhead]; exact List.mem_cons_self)).begins.line
    have hfinal := (h final (by simp)).ends.line
    rw [hspan]
    exact ⟨by dsimp only; omega, by dsimp only; omega⟩

namespace Cursor

/-- Reads a template as the parser goes, and cleans it up with everything checked. -/
def template (greatest : Int) (name : Option String) (text : String) (strip : Bool) (depth : Nat) :
    Option (Except Stop Template) :=
  match tokenize text with
  | .error e => some (.error (.error e))
  | .ok tokens => ((root tokens (some ⟨name, text⟩) depth).run {}).run.map fun
    | .error stop => .error stop
    | .ok (t, _) =>
      match Checked.clean greatest strip (Arena.load {} t).2 ⟨(Arena.load {} t).1, []⟩ with
      | .ok id course => .ok ⟨⟨name, text⟩, course.arena.detach id, id⟩
      | .error b _ => .error (.breach b)

/-- Reads an expression that stands alone as the parser goes. -/
def evaluated (text : String) (depth : Nat) : Option (Except Stop Expr) :=
  match tokenizeExpression text evaluatedFirstLine with
  | .error e => some (.error (.error e))
  | .ok tokens => ((fragment tokens none depth).run {}).run.map (·.map Prod.fst)

/-- Wherever the cursor stands, the parser comes to something further on, but not past the last
token, or to an error at a position of the text. If there was room for an element for each token
ahead, there still is. -/
def Progresses {α : Type} (tokens : List Token) (first : Position) (cs : List Char) (m : Nat → Parser α) :
    Prop :=
  ∀ s, s.cursor < tokens.length → Room tokens 0 s →
    (∃ x s', Ends m s (.ok (x, s')) ∧ s.cursor < s'.cursor ∧ s'.cursor < tokens.length ∧ Room tokens 0 s') ∨
      ∃ e, Ends m s (.error (.error e)) ∧ Position.Meets first cs e.position

section
variable {α β : Type} {tokens front ts : List Token} {eof : Token} {spare : Nat} {least : α → Nat}
  {first : Position} {cs : List Char} {m : Nat → Parser α} {s : State}

theorem Reads.run {result : Except ParseError (α × List Token)} (h : Reads tokens spare least m ts result)
    (hs : At tokens s.cursor ts) (hroom : Room tokens spare s) :
    (∃ x rest s', result = .ok (x, rest) ∧ Ends m s (.ok (x, s')) ∧ Moves spare (least x) s s' ∧
      s'.cursor < tokens.length) ∨
      ∃ e, result = .error e ∧ Ends m s (.error (.error e)) ∧ ∃ t ∈ tokens, e.position = t.first := by
  have hm := h s hs hroom
  cases result with
  | error e => exact .inr ⟨e, rfl, hm⟩
  | ok pair =>
    obtain ⟨s', hms, hs', hmoves⟩ := hm
    exact .inl ⟨pair.1, pair.2, s', rfl, hms, hmoves, hs'.inside⟩

theorem Reads.progresses {reader : Reader α} (h : ∀ ts, Reads tokens 0 least m ts (reader ts))
    (hleast : ∀ x, 0 < least x) (htokens : ∀ t ∈ tokens, Position.Meets first cs t.first) :
    Progresses tokens first cs m := by
  intro s hs hroom
  rcases (h (tokens.drop s.cursor)).run ⟨hs, rfl⟩ hroom with ⟨x, rest, s', -, hms, hmoves, hinside⟩ |
    ⟨e, -, hms, t, ht, hposition⟩
  · have := hmoves.cursor
    have := hleast x
    exact .inl ⟨x, s', hms, by omega, hinside, hmoves.room hroom⟩
  · exact .inr ⟨e, hms, hposition ▸ htokens t ht⟩

theorem ended_concat (hkind : eof.kind = .eof) : Ended (front ++ [eof]) := by
  intro t ht
  rw [List.getLast?_concat] at ht
  exact Option.some.inj ht ▸ hkind

theorem at_concat : At (front ++ [eof]) 0 (front ++ [eof]) := ⟨by simp, rfl⟩

/-- A reader that the end of the input must follow, whichever way that is asked for. -/
theorem bind_eq_whole {read : Except ParseError (α × List Token)}
    {finish : α × List Token → Except ParseError β} {f : α → β} {cause : Token → ParseError.Cause}
    (hnil : ∀ x, finish (x, []) = .ok (f x))
    (hcons : ∀ x t rest, finish (x, t :: rest) = if t.kind = .eof then .ok (f x) else t.fail (cause t)) :
    (read >>= finish) = (whole read cause).map fun r => f r.1 := by
  rw [whole]
  cases read with
  | error e => rfl
  | ok pair =>
    obtain ⟨x, rest⟩ := pair
    cases rest with
    | nil => exact hnil x
    | cons t rest =>
      refine (hcons x t rest).trans ?_
      by_cases h : t.kind = .eof <;> simp [h, bind, Except.bind, pure, Except.pure, Except.map, Token.fail]

theorem parse_of_tokenize {source : Source} (htokens : tokenize source.text = .ok tokens) :
    Tree.parse source =
    (whole (Tree.readBody (some source) tokens.length tokens) .strayClosing).map fun read =>
      ⟨.sequence, Tree.spanOf (some source) tokens, false, read.1⟩ := by
  rw [Tree.parse, htokens]
  refine bind_eq_whole (f := fun children =>
    (⟨.sequence, Tree.spanOf (some source) tokens, false, children⟩ : Tree)) (fun _ => rfl) ?_
  intro children t rest
  by_cases h : t.kind = .eof
  · simp only [h, ne_eq, not_true_eq_false, if_false, if_true]
    rfl
  · simp only [h, ne_eq, not_false_eq_true, if_false, if_true]
    rfl

theorem evaluate_of_tokenize {text : String}
    (htokens : tokenizeExpression text evaluatedFirstLine = .ok tokens) :
    Expr.parse text = (whole (Expr.read none tokens) .expectedEnd).map Prod.fst := by
  rw [Expr.parse, htokens]
  exact bind_eq_whole (f := id) (fun _ => rfl) fun _ _ _ => rfl

/-- A template is read up to the end of the input, and has no more elements than tokens. -/
theorem exists_root (name : Option String) {text : String} (htokens : tokenize text = .ok (front ++ [eof]))
    (hkind : eof.kind = .eof) (hroom : Room (front ++ [eof]) 1 {}) :
    (∃ t s, Tree.parse ⟨name, text⟩ = .ok t ∧
      Ends (root (front ++ [eof]) (some ⟨name, text⟩)) {} (.ok (t, s)) ∧
      t.size ≤ (front ++ [eof]).length) ∨
      ∃ e, Tree.parse ⟨name, text⟩ = .error e ∧
        Ends (root (front ++ [eof]) (some ⟨name, text⟩)) {} (.error (.error e)) ∧
        ∃ t ∈ front ++ [eof], e.position = t.first := by
  rw [parse_of_tokenize (show tokenize (Source.mk name text).text = _ from htokens)]
  rcases (reads_root (ended_concat hkind)).run at_concat hroom with ⟨t, rest, s, hresult, hends, hmoves,
    hinside⟩ | ⟨e, hresult, hends, hposition⟩
  · obtain ⟨⟨children, left⟩, hwhole, hmade⟩ := exists_of_bind_eq_ok hresult
    cases hmade
    rw [hwhole]
    have hsize := hmoves.cursor
    dsimp only at hsize
    exact .inl ⟨_, s, rfl, hends, by dsimp only; omega⟩
  · rw [error_of_bind_ok hresult]
    exact .inr ⟨e, rfl, hends, hposition⟩

/-- An expression that stands alone is read up to the end of the input. -/
theorem exists_fragment {text : String}
    (htokens : tokenizeExpression text evaluatedFirstLine = .ok (front ++ [eof])) (hkind : eof.kind = .eof)
    (hroom : Room (front ++ [eof]) 0 {}) :
    (∃ e s, Expr.parse text = .ok e ∧ Ends (fragment (front ++ [eof]) none) {} (.ok (e, s))) ∨
      ∃ e, Expr.parse text = .error e ∧ Ends (fragment (front ++ [eof]) none) {} (.error (.error e)) ∧
        ∃ t ∈ front ++ [eof], e.position = t.first := by
  have hexpression : Takes (front ++ [eof]) 1 (expression (front ++ [eof]) none) (front ++ [eof]) _ :=
    reads_expression (ended_concat hkind)
  rw [evaluate_of_tokenize htokens]
  rcases (hexpression.wholly .expectedEnd).run at_concat hroom with ⟨e, rest, s, hresult, hwholly, -⟩ |
    ⟨e, hresult, hwholly, hposition⟩
  · rw [hresult]
    exact .inl ⟨e, s, rfl, hwholly⟩
  · rw [hresult]
    exact .inr ⟨e, rfl, hwholly, hposition⟩

/-- A template that is read can be cleaned up. -/
theorem exists_clean {source : Source} {t : Tree} (h : Tree.parse source = .ok t)
    (short : (source.text.length : Int) < Int32.maxValue.toInt) (strip : Bool) :
    ∃ g b removals, Checked.clean Int32.maxValue.toInt strip (Arena.load {} t).2 ⟨(Arena.load {} t).1, []⟩ =
      .ok g ⟨b, removals⟩ ∧
      Edit.clean strip (Arena.load {} t).2 (Arena.load {} t).1 = .ok g b ∧ b.size = t.size := by
  obtain ⟨parts, hloaded⟩ := exists_load t Arena.sound_empty
  have hlines : ∀ y < (Arena.load {} t).1.size,
      ((Arena.load {} t).1.get y).location.first.line < Int32.maxValue.toInt := by
    intro y hy
    have hnested := Tree.nested_of_parse h
    obtain ⟨tokens, children, rest, htokens, -, -, rfl⟩ := Tree.exists_of_parse h
    obtain ⟨front, rfl, hfront⟩ := (covers_tokenize source.text).2 tokens htokens
    have hmost : Position.start.line + (source.text.toList.length : Int) ≤ 2147483646 + 1 := by
      rw [String.length_toList]
      have hone : Position.start.line = 1 := rfl
      have hmax : Int32.maxValue.toInt = 2147483647 := by decide
      omega
    have hroot := Tree.lines_spanOf (some source) hfront
      ⟨.eof, "", Position.start.after source.text.toList, Position.start.after source.text.toList⟩
        (by decide) hmost
    have hline := hloaded.holds.line_le hnested (List.forall_mem_singleton.2 hroot) y
      (hloaded.all (Nat.zero_le y) hy)
    exact Int.lt_of_le_of_lt hline (by decide)
  have hroot := (hloaded.new (Shape.root_mem_ids (List.mem_singleton_self _))).2
  obtain ⟨g, b, -, removals, hchecked, hplain, -, hsize⟩ :=
    (Tracks.start hloaded.sound hloaded.forest hlines).exists_clean strip hroot
  exact ⟨g, b, removals, hchecked, hplain, by rw [hsize, Arena.size_load]; exact Nat.zero_add t.size⟩

theorem ended_of_covers (h : Lexer.Covers first cs tokens) : Ended tokens := by
  obtain ⟨front, rfl, -⟩ := h
  exact ended_concat rfl

theorem progresses_node (h : Lexer.Covers first cs tokens) (source : Option Source) :
    Progresses tokens first cs (node tokens source) := by
  have hend := ended_of_covers h
  exact Reads.progresses (fun ts => reads_node hend (reads_readBody hend ts.length) (Nat.le_succ ts.length))
    Tree.size_pos h.meets

theorem progresses_expression (h : Lexer.Covers first cs tokens) (source : Option Source) :
    Progresses tokens first cs (expression tokens source) :=
  Reads.progresses (fun _ => reads_expression (ended_of_covers h)) (fun _ => Nat.one_pos) h.meets

/-- There is room for an element for each token of a text that is not too long, and for the whole. -/
theorem room_of_short {mode : Lexer.Mode} {here : Position} {text : String}
    (short : (text.length : Int) < Int32.maxValue.toInt)
    (htokens : Lexer.tokensFrom mode here text.toList = .ok tokens) : Room tokens 1 {} := by
  have hlength := Lexer.length_tokensFrom htokens
  rw [String.length_toList] at hlength
  have hmax : Int32.maxValue.toInt = 2147483647 := by decide
  have hsize : UInt32.size = 4294967296 := rfl
  unfold Room
  dsimp only
  omega

/-- A template comes to what the readers and cleanup come to, with an element for each of its characters at
most and one for the whole, or to an error at a position of the text. -/
theorem template_eq (name : Option String) {text : String} (strip : Bool)
    (short : (text.length : Int) < Int32.maxValue.toInt) :
    (∃ enough, ∀ depth ≥ enough,
      template Int32.maxValue.toInt name text strip depth =
      some ((Template.parse name text strip).mapError .error)) ∧
      (∀ t, Template.parse name text strip = .ok t → t.arena.size ≤ text.length + 1) ∧
      ∀ e, Template.parse name text strip = .error e → Position.Meets .start text.toList e.position := by
  cases htokens : tokenize text with
  | error e =>
    have hparse : Template.parse name text strip = .error e := by
      rw [Template.parse, Tree.parse, htokens]
      rfl
    simp only [template, htokens, hparse]
    refine ⟨⟨0, fun _ _ => rfl⟩, by rintro _ ⟨⟩, ?_⟩
    rintro _ ⟨⟩
    exact .inl ((covers_tokenize text).1 e htokens)
  | ok tokens =>
    have hcovers := (covers_tokenize text).2 tokens htokens
    have hmeets := hcovers.meets
    have hroom := room_of_short short htokens
    have hlength := Lexer.length_tokensFrom htokens
    obtain ⟨front, rfl, -⟩ := hcovers
    rcases exists_root name htokens rfl hroom with ⟨t, s, hparse, ⟨enough, hroot⟩, hmost⟩ |
      ⟨e, hparse, ⟨enough, hroot⟩, u, hu, hposition⟩
    · obtain ⟨g, b, removals, hchecked, hplain, hsize⟩ := exists_clean hparse short strip
      have hfinish : Edit.finish strip (Arena.load {} t).2 (Arena.load {} t).1 = .ok g (b.detach g) := by
        rw [Edit.finish, Edit.bind_ok hplain]
        rfl
      have htemplate : Template.parse name text strip = .ok ⟨⟨name, text⟩, b.detach g, g⟩ := by
        simp only [Template.parse, hparse, Template.ofTree, bind, Except.bind, pure, Except.pure, hfinish]
      refine ⟨⟨enough, fun depth hdepth => ?_⟩, fun t' h => ?_, fun e h => ?_⟩
      · simp only [template, htokens, StateT.run, ExceptT.run, hroot depth hdepth, Option.map_some,
          hchecked, htemplate]
        rfl
      · rw [htemplate] at h
        cases h
        rw [Arena.detach, Arena.size_update, hsize, ← String.length_toList]
        exact Nat.le_trans hmost hlength
      · rw [htemplate] at h
        cases h
    · have htemplate : Template.parse name text strip = .error e := by
        rw [Template.parse, hparse]
        rfl
      refine ⟨⟨enough, fun depth hdepth => ?_⟩, fun t h => ?_, ?_⟩
      · simp only [template, htokens, StateT.run, ExceptT.run, hroot depth hdepth, Option.map_some, htemplate]
        rfl
      · rw [htemplate] at h
        cases h
      · rintro _ h
        rw [htemplate] at h
        cases h
        exact hposition ▸ hmeets u hu

/-- An expression that stands alone comes to what the readers come to, or to an error at
a position of the text. -/
theorem evaluated_eq {text : String} (short : (text.length : Int) < Int32.maxValue.toInt) :
    (∃ enough, ∀ depth ≥ enough, evaluated text depth = some ((Expr.parse text).mapError .error)) ∧
    ∀ e, Expr.parse text = .error e → Position.Meets ⟨evaluatedFirstLine, 1⟩ text.toList e.position := by
  cases htokens : tokenizeExpression text evaluatedFirstLine with
  | error e =>
    have hparse : Expr.parse text = .error e := by
      rw [Expr.parse, htokens]
      rfl
    simp only [evaluated, htokens, hparse]
    refine ⟨⟨0, fun _ _ => rfl⟩, ?_⟩
    rintro _ ⟨⟩
    exact .inl ((covers_tokenizeExpression text _).1 e htokens)
  | ok tokens =>
    have hcovers := (covers_tokenizeExpression text _).2 tokens htokens
    have hmeets := hcovers.meets
    have hroom := (room_of_short short htokens).weaken (Nat.zero_le 1)
    obtain ⟨front, rfl, -⟩ := hcovers
    rcases exists_fragment htokens rfl hroom with ⟨e, s, hparse, enough, hfragment⟩ |
      ⟨e, hparse, ⟨enough, hfragment⟩, u, hu, hposition⟩
    · refine ⟨⟨enough, fun depth hdepth => ?_⟩, fun e h => ?_⟩
      · simp only [evaluated, htokens, StateT.run, ExceptT.run, hfragment depth hdepth,
          Option.map_some, hparse]
        rfl
      · rw [hparse] at h
        cases h
    · refine ⟨⟨enough, fun depth hdepth => ?_⟩, fun e h => ?_⟩
      · simp only [evaluated, htokens, StateT.run, ExceptT.run, hfragment depth hdepth,
          Option.map_some, hparse]
        rfl
      · rw [hparse] at h
        cases h
        exact hposition ▸ hmeets u hu

end

end Cursor

/-- Reading ends, whatever the text is. The lexer counts lines and columns in 32 bits, and the parser
elements. Wherever the cursor stands, an element or an expression takes at least one token, but never the
end of the input, and leaves room for an element for each token ahead, or is an error at a position of the
text. So a template that is read and cleaned up, or an expression that stands alone, is there in the end, or
an error at a position of the text; a template has at most one element more than characters, and the lines
of an expression that stands alone stay below those of all templates. -/
theorem Template.parse_ends (name : Option String) (text : String) (strip : Bool)
    (short : (text.length : Int) < Int32.maxValue.toInt) :
    ((∀ p, Position.Meets .start text.toList p → p.Counted) ∧
      (∀ tokens, tokenize text = .ok tokens → Lexer.Covers .start text.toList tokens ∧
        Cursor.Room tokens 0 {} ∧
        Cursor.Progresses tokens .start text.toList (Cursor.node tokens (some ⟨name, text⟩)) ∧
        Cursor.Progresses tokens .start text.toList (Cursor.expression tokens (some ⟨name, text⟩))) ∧
      (∃ enough, ∀ depth ≥ enough,
        Cursor.template Int32.maxValue.toInt name text strip depth =
        some ((Template.parse name text strip).mapError .error)) ∧
      (∀ t, Template.parse name text strip = .ok t → t.arena.size ≤ text.length + 1) ∧
      ∀ e, Template.parse name text strip = .error e → Position.Meets .start text.toList e.position) ∧
    (∀ p, Position.Meets ⟨evaluatedFirstLine, 1⟩ text.toList p → p.Counted) ∧
      (∀ tokens, tokenizeExpression text evaluatedFirstLine = .ok tokens →
        Lexer.Covers ⟨evaluatedFirstLine, 1⟩ text.toList tokens ∧
        Cursor.Room tokens 0 {} ∧
        Cursor.Progresses tokens ⟨evaluatedFirstLine, 1⟩ text.toList (Cursor.expression tokens none)) ∧
      (∃ enough, ∀ depth ≥ enough, Cursor.evaluated text depth = some ((Expr.parse text).mapError .error)) ∧
      ∀ e, Expr.parse text = .error e → Position.Meets ⟨evaluatedFirstLine, 1⟩ text.toList e.position ∧
        (text.toList.count '\n' + 1 < 1000000000 → e.position.line < 0) := by
  have hlength : (text.toList.length : Int) < Int32.maxValue.toInt := by rwa [String.length_toList]
  obtain ⟨htemplate, hmost, hposition⟩ := Cursor.template_eq name strip short
  obtain ⟨hevaluated, hposition'⟩ := Cursor.evaluated_eq short
  refine ⟨⟨fun p hp => hp.counted rfl (by decide) (by decide) hlength, fun tokens htokens => ?_,
    htemplate, hmost, hposition⟩,
    fun p hp => hp.counted rfl (by decide) (by decide) hlength, fun tokens htokens => ?_, hevaluated,
    fun e he => ⟨hposition' e he, fun hlines => ?_⟩⟩
  · have hcovers := (covers_tokenize text).2 tokens htokens
    exact ⟨hcovers, (Cursor.room_of_short short htokens).weaken (Nat.zero_le 1),
      Cursor.progresses_node hcovers _, Cursor.progresses_expression hcovers _⟩
  · have hcovers := (covers_tokenizeExpression text _).2 tokens htokens
    exact ⟨hcovers, (Cursor.room_of_short short htokens).weaken (Nat.zero_le 1),
      Cursor.progresses_expression hcovers none⟩
  · obtain ⟨front, back, htext, hfront⟩ := (hposition' e he).exists_append
    rw [htext, List.count_append] at hlines
    rw [hfront, Position.line_after]
    change -1000000000 + _ < 0
    omega

/-- A list that is still open where a block is closed that nothing opened. -/
theorem Template.parse_ends_unclosed :
    ∃ e, Template.parse none "é\x7b[#list xs as x]\x7d\n\x7b[/if]\x7d" true = .error e ∧
    e = ⟨.mismatchedClose "list" "if", ⟨2, 4⟩⟩ ∧
    ("é\x7b[#list xs as x]\x7d\n\x7b[/if]\x7d".length : Int) < Int32.maxValue.toInt ∧
    (∃ enough, ∀ depth ≥ enough,
      Cursor.template Int32.maxValue.toInt none "é\x7b[#list xs as x]\x7d\n\x7b[/if]\x7d" true depth =
      some (.error (.error e))) ∧
    Position.Meets .start "é\x7b[#list xs as x]\x7d\n\x7b[/if]\x7d".toList e.position := by
  have hparse : (Template.parse none "é\x7b[#list xs as x]\x7d\n\x7b[/if]\x7d" true).map (fun _ => ()) =
      .error ⟨.mismatchedClose "list" "if", ⟨2, 4⟩⟩ := by decide +kernel
  have hshort : ("é\x7b[#list xs as x]\x7d\n\x7b[/if]\x7d".length : Int) < Int32.maxValue.toInt := by
    decide +kernel
  obtain ⟨⟨-, -, htemplate, -, hposition⟩, -⟩ :=
    Template.parse_ends none "é\x7b[#list xs as x]\x7d\n\x7b[/if]\x7d" true hshort
  cases h : Template.parse none "é\x7b[#list xs as x]\x7d\n\x7b[/if]\x7d" true with
  | error e =>
    rw [h] at hparse htemplate
    exact ⟨e, rfl, Except.error.inj hparse, hshort, htemplate, hposition e h⟩
  | ok t =>
    rw [h] at hparse
    cases hparse

end Stencil
