import Stencil.Proofs.Outcomes
import Stencil.Proofs.Spans
import Mathlib.Data.List.TakeWhile

/-! # Trimming

What trimming takes off a text: its first line when that is blank, and blanks after its last line feed. What
is left stands between blanks. -/

namespace Stencil

/-! ### Lines of a text -/

namespace Arena

variable {a : Arena} {x : ElementId} {cs : List Char} {n : Nat}

theorem exists_of_firstLine? {line : List Char} (h : Kind.firstLine? cs = some line) :
    ∃ rest, cs = line ++ '\n' :: rest ∧ '\n' ∉ line := by
  unfold Kind.firstLine? at h
  split at h
  · next hfeed =>
    cases h
    cases hrest : cs.dropWhile (· ≠ '\n') with
    | nil => exact absurd (List.dropWhile_eq_nil_iff.1 hrest _ hfeed) (by simp)
    | cons c rest =>
      have hstop := List.head_dropWhile_not (fun c => decide (c ≠ '\n')) (l := cs)
        (by rw [hrest]; exact List.cons_ne_nil c rest)
      simp only [hrest, List.head_cons, decide_eq_false_iff_not, not_not] at hstop
      refine ⟨rest, ?_, fun hin => by simpa using List.mem_takeWhile_imp hin⟩
      subst hstop
      rw [← hrest, List.takeWhile_append_dropWhile]
  · cases h

theorem exists_of_lastLine? {line : List Char} (h : Kind.lastLine? cs = some line) :
    ∃ front, cs = front ++ '\n' :: line ∧ '\n' ∉ line := by
  obtain ⟨reversed, hreversed, rfl⟩ := Option.map_eq_some_iff.1 h
  obtain ⟨rest, hrest, hline⟩ := exists_of_firstLine? hreversed
  refine ⟨rest.reverse, ?_, by rwa [List.mem_reverse]⟩
  rw [← List.reverse_reverse cs, hrest]
  simp

theorem firstLine?_append {line : List Char} (h : '\n' ∉ line) (rest : List Char) :
    Kind.firstLine? (line ++ '\n' :: rest) = some line := by
  have hline : ∀ c ∈ line, decide (c ≠ '\n') = true := by
    intro c hc
    rw [decide_eq_true_eq]
    rintro rfl
    exact h hc
  rw [Kind.firstLine?, if_pos (List.mem_append_right _ List.mem_cons_self),
    List.takeWhile_append_of_pos hline]
  simp

/-- Only the first line feed counts. -/
theorem firstLine?_append_of_mem (h : '\n' ∈ cs) (rest : List Char) :
    Kind.firstLine? (cs ++ rest) = Kind.firstLine? cs := by
  obtain ⟨line, hline⟩ : ∃ line, Kind.firstLine? cs = some line := ⟨_, if_pos h⟩
  obtain ⟨later, rfl, hfeed⟩ := exists_of_firstLine? hline
  rw [List.append_assoc, List.cons_append, firstLine?_append hfeed, hline]

theorem lastLine?_append {line : List Char} (h : '\n' ∉ line) (front : List Char) :
    Kind.lastLine? (front ++ '\n' :: line) = some line := by
  have hreversed : (front ++ '\n' :: line).reverse = line.reverse ++ '\n' :: front.reverse := by simp
  rw [Kind.lastLine?, hreversed, firstLine?_append (by rwa [List.mem_reverse]), Option.map_some,
    List.reverse_reverse]

/-! ### What is taken off -/

/-- The part of a text that trimming looks at for its end. -/
def tail? (a : Arena) (x : ElementId) (cs : List Char) : Option (List Char) :=
  match Kind.lastLine? cs with
  | some line => some line
  | none => if (a.get x).location.first.column = 1 then some cs else none

/-- A blank first line goes unless the blanks before it are kept. -/
theorem openingStrip_cases (h : a.openingStrip x cs = .ok n) :
    (n = 0 ∧ ∀ line, Kind.firstLine? cs = some line → Text.AllBlank line →
      ∃ before, a.previousTerminal? x = .ok before ∧
      a.heededBefore (a.get x).location.first.line (a.size + 1) before = .ok true) ∨
    ∃ line, Kind.firstLine? cs = some line ∧ Text.AllBlank line ∧ n = line.length + 1 := by
  unfold openingStrip at h
  split at h
  · next hline => exact .inl ⟨(Except.ok.inj h).symm, fun line h => by rw [hline] at h; cases h⟩
  · next line hline =>
    split at h
    · next hblank =>
      refine .inl ⟨(Except.ok.inj h).symm, fun line' h hblank' => ?_⟩
      rw [hline] at h
      obtain rfl := Option.some.inj h
      simp [hblank'] at hblank
    · next hblank =>
      have hblank : Text.AllBlank line := by simpa using hblank
      obtain ⟨before, hbefore, h⟩ := exists_of_bind_eq_ok h
      obtain ⟨heeded, hheeded, h⟩ := exists_of_bind_eq_ok h
      cases heeded with
      | true => exact .inl ⟨(Except.ok.inj h).symm, fun _ _ _ => ⟨before, hbefore, hheeded⟩⟩
      | false => exact .inr ⟨line, hline, hblank, (Except.ok.inj h).symm⟩

/-- A blank end goes unless the blanks after it are kept. -/
theorem trailingStrip_cases (h : a.trailingStrip x cs = .ok n) :
    (n = 0 ∧ ∀ line, a.tail? x cs = some line → Text.AllBlank line →
      a.heededAfter (a.get x).location.last.line (a.size + 1) (a.nextTerminal? x) = .ok true) ∨
    ∃ line, a.tail? x cs = some line ∧ Text.AllBlank line ∧ n = line.length := by
  unfold trailingStrip at h
  dsimp only at h
  split at h
  · next hline =>
    have hline : a.tail? x cs = none := hline
    exact .inl ⟨(Except.ok.inj h).symm, fun line h => by rw [hline] at h; cases h⟩
  · next line hline =>
    have hline : a.tail? x cs = some line := hline
    split at h
    · next hblank =>
      refine .inl ⟨(Except.ok.inj h).symm, fun line' h hblank' => ?_⟩
      rw [hline] at h
      obtain rfl := Option.some.inj h
      simp [hblank'] at hblank
    · next hblank =>
      have hblank : Text.AllBlank line := by simpa using hblank
      obtain ⟨heeded, hheeded, h⟩ := exists_of_bind_eq_ok h
      cases heeded with
      | true => exact .inl ⟨(Except.ok.inj h).symm, fun _ _ _ => hheeded⟩
      | false => exact .inr ⟨line, hline, hblank, (Except.ok.inj h).symm⟩

theorem opens_openingStrip (h : a.openingStrip x cs = .ok n) : Text.Opens cs n := by
  rcases openingStrip_cases h with ⟨hn, -⟩ | ⟨line, hline, -, hn⟩
  · exact .inl hn
  · obtain ⟨rest, hrest, -⟩ := exists_of_firstLine? hline
    exact .inr ⟨line, rest, hrest, hn⟩

/-- The end of a text is what follows the last line feed, or all of it. -/
theorem tail?_cases {line : List Char} (h : a.tail? x cs = some line) :
    '\n' ∉ line ∧ (cs = line ∨ ∃ front, cs = front ++ '\n' :: line) := by
  unfold tail? at h
  split at h
  · next hlast =>
    cases h
    obtain ⟨front, hfront, hline⟩ := exists_of_lastLine? hlast
    exact ⟨hline, .inr ⟨front, hfront⟩⟩
  · next hlast =>
    split at h
    · cases h
      refine ⟨fun hfeed => ?_, .inl rfl⟩
      simp [Kind.lastLine?, Kind.firstLine?, hfeed] at hlast
    · cases h

theorem closes_trailingStrip (h : a.trailingStrip x cs = .ok n) : Text.Closes cs n := by
  rcases trailingStrip_cases h with ⟨hn, -⟩ | ⟨line, hline, -, hn⟩
  · exact .inl hn
  · rcases (tail?_cases hline).2 with rfl | ⟨front, hfront⟩
    · exact .inr (.inl hn)
    · exact .inr (.inr ⟨front, line, hfront, hn⟩)

end Arena

/-- A text and what is left of it: its first line may be gone, if that is blank, and blanks
after its last line feed. -/
structure Text.Trimmed (text front kept back : List Char) : Prop where
  split : text = front ++ (kept ++ back)
  opening : front = [] ∨ ∃ line, '\n' ∉ line ∧ AllBlank line ∧ front = line ++ ['\n']
  closing : back = [] ∨ '\n' ∉ back ∧ AllBlank back ∧
    (front ++ kept = [] ∨ ∃ init, front ++ kept = init ++ ['\n'])

theorem Text.isBlank_feed : isBlank '\n' = true := by decide

namespace Text.Trimmed

variable {text front kept back : List Char}

theorem whole (text : List Char) : Trimmed text [] text [] :=
  ⟨(List.append_nil text).symm, .inl rfl, .inl rfl⟩

theorem blank (h : Trimmed text front kept back) : AllBlank front ∧ AllBlank back := by
  refine ⟨?_, ?_⟩
  · rcases h.opening with hfront | ⟨line, -, hline, hfront⟩ <;> rw [hfront]
    · exact allBlank_nil
    · exact allBlank_append.2 ⟨hline, allBlank_cons.2 ⟨isBlank_feed, allBlank_nil⟩⟩
  · rcases h.closing with hback | ⟨-, hblank, -⟩
    · rw [hback]
      exact allBlank_nil
    · exact hblank

/-- A text of which blanks are left was blank. -/
theorem allBlank (h : Trimmed text front kept back) (hkept : AllBlank kept) : AllBlank text := by
  rw [h.split]
  exact allBlank_append.2 ⟨h.blank.1, allBlank_append.2 ⟨hkept, h.blank.2⟩⟩

end Text.Trimmed

namespace Arena

/-- What two ends that do not overlap leave of a text. -/
theorem trimmedText_append (front kept back : List Char) :
    trimmedText (front ++ (kept ++ back)) front.length back.length = kept := by
  have hlength : (front ++ (kept ++ back)).length - back.length = (front ++ kept).length := by
    simp only [List.length_append]
    omega
  rw [trimmedText, hlength, ← List.append_assoc, List.take_left, List.drop_left]

/-- The first of some characters and the last one have a stretch between them, if
they are not the same one. -/
theorem exists_between {c : Char} {line rest init tail : List Char}
    (h : line ++ c :: rest = init ++ c :: tail) (hc : c ∉ tail) :
    ∃ kept, init ++ [c] = (line ++ [c]) ++ kept ∧ rest = kept ++ tail := by
  induction line generalizing init with
  | nil =>
    cases init with
    | nil => exact ⟨[], rfl, (List.cons.inj h).2⟩
    | cons d init =>
      obtain ⟨rfl, rfl⟩ := List.cons.inj h
      exact ⟨init ++ [c], rfl, by simp⟩
  | cons l line ih =>
    cases init with
    | nil => exact absurd ((List.cons.inj h).2 ▸ List.mem_append_right line List.mem_cons_self) hc
    | cons d init =>
      obtain ⟨rfl, hline⟩ := List.cons.inj h
      obtain ⟨kept, hkept, hrest⟩ := ih hline
      exact ⟨kept, by simp [hkept], hrest⟩

/-- What is taken off a text leaves it trimmed. -/
theorem exists_trimmed {a : Arena} {x : ElementId} {cs : List Char} {opening trailing : Nat}
    (hopening : a.openingStrip x cs = .ok opening) (htrailing : a.trailingStrip x cs = .ok trailing) :
    ∃ front back, front.length = opening ∧ back.length = trailing ∧
      Text.Trimmed cs front (trimmedText cs opening trailing) back := by
  -- It is enough to cut the text, since the lengths of the ends tell what is left.
  suffices hcut : ∃ front kept back, front.length = opening ∧ back.length = trailing ∧
      Text.Trimmed cs front kept back by
    obtain ⟨front, kept, back, rfl, rfl, htrimmed⟩ := hcut
    refine ⟨front, back, rfl, rfl, ?_⟩
    have hkept := trimmedText_append front kept back
    rw [← htrimmed.split] at hkept
    rwa [hkept]
  rcases openingStrip_cases hopening with ⟨rfl, -⟩ | ⟨line, hline, hlineBlank, rfl⟩
  · rcases trailingStrip_cases htrailing with ⟨rfl, -⟩ | ⟨tail, htail, htailBlank, rfl⟩
    · exact ⟨[], cs, [], rfl, rfl, .whole cs⟩
    · obtain ⟨hfeed, rfl | ⟨init, hinit⟩⟩ := tail?_cases htail
      · exact ⟨[], [], cs, rfl, rfl, rfl, .inl rfl, .inr ⟨hfeed, htailBlank, .inl rfl⟩⟩
      · exact ⟨[], init ++ ['\n'], tail, rfl, rfl,
          by simp [hinit], .inl rfl, .inr ⟨hfeed, htailBlank, .inr ⟨init, rfl⟩⟩⟩
  · obtain ⟨rest, hrest, hlineFeed⟩ := exists_of_firstLine? hline
    have hfront : line ++ ['\n'] = [] ∨ ∃ l, '\n' ∉ l ∧ Text.AllBlank l ∧ line ++ ['\n'] = l ++ ['\n'] :=
      .inr ⟨line, hlineFeed, hlineBlank, rfl⟩
    rcases trailingStrip_cases htrailing with ⟨rfl, -⟩ | ⟨tail, htail, htailBlank, rfl⟩
    · exact ⟨line ++ ['\n'], rest, [], by simp, rfl, by simp [hrest], hfront, .inl rfl⟩
    · obtain ⟨hfeed, rfl | ⟨init, hinit⟩⟩ := tail?_cases htail
      · exact absurd (hrest ▸ List.mem_append_right line List.mem_cons_self) hfeed
      · -- The first line feed is the last one or stands before it.
        have hsplit : line ++ '\n' :: rest = init ++ '\n' :: tail := by rw [← hrest, ← hinit]
        obtain ⟨kept, hkept, hkept'⟩ := exists_between hsplit hfeed
        refine ⟨line ++ ['\n'], kept, tail,
          by simp, rfl, by rw [hrest, hkept']; simp, hfront,
          .inr ⟨hfeed, htailBlank, .inr ⟨init, hkept.symm⟩⟩⟩

end Arena

end Stencil
