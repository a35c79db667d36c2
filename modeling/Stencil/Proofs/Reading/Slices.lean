import Stencil.Source
import Mathlib.Data.List.Basic

/-! # Positions and slices

Positions are counted while a text is read, and slices are cut out of the lines of the text. Both agree:
what begins after some characters of a text and ends at a later one is the slice between the positions. -/

namespace Stencil

namespace Position

/-- The order of positions in a text. -/
def Before (p q : Position) : Prop := p.line < q.line ∨ p.line = q.line ∧ p.column < q.column

variable {p q r : Position}

theorem Before.trans (h : p.Before q) (h' : q.Before r) : p.Before r := by
  unfold Before at *
  omega

theorem Before.trans_not (h : p.Before q) (h' : ¬ r.Before q) : p.Before r := by
  unfold Before at *
  omega

theorem Before.not_trans (h : q.Before r) (h' : ¬ q.Before p) : p.Before r := by
  unfold Before at *
  omega

theorem not_before_trans (h : ¬ p.Before q) (h' : ¬ q.Before r) : ¬ p.Before r := by
  unfold Before at *
  omega

theorem not_before_self (p : Position) : ¬ p.Before p := by
  unfold Before
  omega

theorem before_next (p : Position) (c : Char) : p.Before (p.next c) := by
  unfold Before next
  split
  · exact .inl (Int.lt_succ _)
  · exact .inr ⟨rfl, Int.lt_succ _⟩

/-- A text does not end before it begins. -/
theorem not_after_before (p : Position) (cs : List Char) : ¬ (p.after cs).Before p := by
  induction cs generalizing p with
  | nil => exact not_before_self p
  | cons c cs ih =>
    intro h
    exact ih (p.next c) (h.trans (before_next p c))

theorem last_append_singleton (p : Position) (cs : List Char) (c : Char) :
    p.last (cs ++ [c]) = p.after cs := by
  induction cs generalizing p with
  | nil => rfl
  | cons d cs ih =>
    rw [after_cons, ← ih]
    cases cs <;> rfl

theorem not_last_before (p : Position) {cs : List Char} (h : cs ≠ []) : ¬ (p.last cs).Before p := by
  rw [← List.dropLast_append_getLast h, last_append_singleton]
  exact not_after_before p _

theorem last_before_after (p : Position) {cs : List Char} (h : cs ≠ []) :
    (p.last cs).Before (p.after cs) := by
  rw [← List.dropLast_append_getLast h, last_append_singleton, after_append]
  exact before_next _ _

/-- A position in a text of so many characters, or right after it. -/
structure Within (n : Nat) (p : Position) : Prop where
  line : 1 ≤ p.line ∧ p.line ≤ n + 1
  column : 1 ≤ p.column ∧ p.column ≤ n + 1

theorem Within.after {n : Nat} (h : Within n p) (cs : List Char) : Within (n + cs.length) (p.after cs) := by
  induction cs generalizing n p with
  | nil => exact h
  | cons c cs ih =>
    have hnext : Within (n + 1) (p.next c) := by
      obtain ⟨hline, hcolumn⟩ := h
      unfold next
      split <;> constructor <;> constructor <;> dsimp only <;> push_cast <;> omega
    rw [after_cons, List.length_cons, Nat.add_comm cs.length, ← Nat.add_assoc]
    exact ih hnext

theorem Within.mono {m n : Nat} (h : Within m p) (hmn : m ≤ n) : Within n p := by
  obtain ⟨⟨hline, hline'⟩, hcolumn, hcolumn'⟩ := h
  exact ⟨⟨hline, by omega⟩, hcolumn, by omega⟩

theorem within_after_start (cs : List Char) : Within cs.length (start.after cs) := by
  have h : Within 0 start := ⟨by decide, by decide⟩
  have hafter := h.after cs
  rwa [Nat.zero_add] at hafter

end Position

namespace Source

/-! ### Lines -/

/-- The line of a character: the lines above it, what of its own line stands before it, and the position
that this makes. -/
theorem linesOf_character (p : Position) (pre : List Char) (c : Char) (post : List Char) :
    ∃ above part tail below, linesOf (pre ++ c :: post) = above ++ (part ++ c :: tail) :: below ∧
      pre = above.flatten ++ part ∧
      p.after pre = if above = [] then ⟨p.line, p.column + part.length⟩
        else ⟨p.line + above.length, part.length + 1⟩ := by
  induction pre generalizing p with
  | nil =>
    rw [List.nil_append, linesOf]
    split
    · exact ⟨[], [], [], linesOf post, rfl, rfl, by simp⟩
    · split
      · exact ⟨[], [], [], [], rfl, rfl, by simp⟩
      · next line lines _ => exact ⟨[], [], line, lines, rfl, rfl, by simp⟩
  | cons d pre ih =>
    obtain ⟨above, part, tail, below, hlines, hpre, hafter⟩ := ih (p.next d)
    rw [List.cons_append, linesOf, hlines, Position.after_cons, hafter]
    by_cases hd : d = '\n'
    · refine ⟨[d] :: above, part, tail, below, by rw [if_pos hd]; rfl, by rw [hpre]; rfl, ?_⟩
      rw [if_neg (List.cons_ne_nil _ _), Position.next, if_pos hd]
      split
      · next h => simp [h, Int.add_comm]
      · simp only [List.length_cons, Position.mk.injEq, and_true]
        push_cast
        omega
    · rw [if_neg hd, Position.next, if_neg hd]
      cases above with
      | nil =>
        refine ⟨[], d :: part, tail, below, rfl, by rw [hpre]; rfl, ?_⟩
        simp only [if_true, List.length_cons, Position.mk.injEq, true_and]
        push_cast
        omega
      | cons line above => exact ⟨(d :: line) :: above, part, tail, below, rfl, by rw [hpre]; rfl, by simp⟩

/-! ### Slices -/

theorem cut_eq {line : List Char} {start stop : Nat} (h : start ≤ stop) (h' : stop ≤ line.length) :
    cut line start stop = some ((line.take stop).drop start) := by
  have hfits : ¬ (start > stop || stop > line.length) = true := by
    simp only [Bool.or_eq_true, decide_eq_true_eq]
    omega
  rw [cut, if_neg hfits]

theorem cutLines_whole (lines : List (List Char)) {line : List Char} {stop : Nat} (h : stop ≤ line.length) :
    cutLines 0 (some stop) (lines ++ [line]) = some (lines.flatten ++ line.take stop) := by
  induction lines with
  | nil => exact cut_eq (Nat.zero_le _) h
  | cons head lines ih =>
    obtain ⟨next, rest, hrest⟩ : ∃ next rest, lines ++ [line] = next :: rest :=
      List.exists_cons_of_ne_nil (by simp)
    rw [List.cons_append, hrest, cutLines, cut_eq (Nat.zero_le _) (Nat.le_refl _), ← hrest, ih]
    simp

theorem cutLines_from {first line : List Char} {start stop : Nat} (hstart : start ≤ first.length)
    (lines : List (List Char)) (hstop : stop ≤ line.length) :
    cutLines start (some stop) (first :: (lines ++ [line])) =
      some (first.drop start ++ (lines.flatten ++ line.take stop)) := by
  obtain ⟨next, rest, hrest⟩ : ∃ next rest, lines ++ [line] = next :: rest :=
    List.exists_cons_of_ne_nil (by simp)
  rw [hrest, cutLines, cut_eq hstart (Nat.le_refl _), ← hrest, cutLines_whole lines hstop]
  simp

theorem exists_line (pre : List Char) (c : Char) (post : List Char) :
    ∃ above part tail below, linesOf (pre ++ c :: post) = above ++ (part ++ c :: tail) :: below ∧
      pre = above.flatten ++ part ∧
      Position.start.after pre = ⟨above.length + 1, part.length + 1⟩ := by
  obtain ⟨above, part, tail, below, hlines, hpre, hafter⟩ := linesOf_character .start pre c post
  refine ⟨above, part, tail, below, hlines, hpre, hafter.trans ?_⟩
  split
  · next h => simp [h, Position.start, Int.add_comm]
  · simp [Position.start, Int.add_comm]

/-- A slice that begins in some line and ends in the same or a later one. -/
theorem sliceOf_lines {text line : List Char} {above mid below : List (List Char)}
    (h : linesOf text = (above ++ mid) ++ line :: below) (start stop : Nat) :
    sliceOf text ⟨above.length + 1, start + 1⟩ ⟨(above ++ mid).length + 1, stop⟩ =
    cutLines start (some stop) (mid ++ [line]) := by
  have hstart : ¬ ((above.length : Int) + 1 < 1 || (start : Int) + 1 < 1 ||
      ((above ++ mid).length : Int) + 1 < above.length + 1) = true := by
    simp only [Bool.or_eq_true, decide_eq_true_eq, List.length_append]
    omega
  have habove : ((above.length : Int) + 1 - 1).toNat = above.length := by omega
  have hupTo : (((above ++ mid).length : Int) + 1).toNat = (above ++ mid).length + 1 := by omega
  have hoffset : ((start : Int) + 1 - 1).toNat = start := by omega
  have hlines : ((linesOf text).take ((above ++ mid).length + 1)).drop above.length = mid ++ [line] := by
    have hsplit : (above ++ mid) ++ line :: below = (above ++ mid ++ [line]) ++ below := by simp
    have hlength : (above ++ mid ++ [line]).length = (above ++ mid).length + 1 := List.length_append
    rw [h, hsplit, List.take_left' hlength, List.append_assoc, List.drop_left]
  have hfits : ¬ (above ++ mid).length + 1 > (linesOf text).length := by
    simp only [h, List.length_append, List.length_cons]
    omega
  rw [sliceOf, if_neg hstart]
  simp only [habove, hupTo, hoffset, hlines, if_neg hfits, Int.toNat_natCast]
  rw [if_neg (by omega)]

/-- A slice begins after some characters of a text and ends within a line. -/
theorem sliceOf_between {text pre raw post line : List Char} {above below : List (List Char)} {stop : Nat}
    (htext : text = pre ++ (raw ++ post)) (hraw : raw ≠ []) (hlines : linesOf text = above ++ line :: below)
    (hstop : stop ≤ line.length) (hend : pre ++ raw = above.flatten ++ line.take stop) :
    sliceOf text (Position.start.after pre) ⟨above.length + 1, stop⟩ = some raw := by
  obtain ⟨c, cs, hfirst⟩ := List.exists_cons_of_ne_nil hraw
  obtain ⟨front, part, tail, rest, hlines', hpre, hafter⟩ := exists_line pre c (cs ++ post)
  have htext' : text = pre ++ c :: (cs ++ post) := by rw [htext, hfirst]; rfl
  rw [← htext'] at hlines'
  obtain ⟨mid, rfl, hmid⟩ : ∃ mid, above = front ++ mid ∧
      (part ++ c :: tail) :: rest = mid ++ line :: below := by
    rcases List.append_eq_append_iff.1 (hlines'.symm.trans hlines) with h | ⟨mid, rfl, hmid⟩
    · exact h
    · cases mid with
      | nil => exact ⟨[], by simp, hmid.symm⟩
      | cons m mid =>
        -- The first character would stand in a later line than the last one.
        obtain ⟨rfl, -⟩ := List.cons.inj hmid
        have hlength := congrArg List.length hend
        simp only [hpre, hfirst, List.flatten_append, List.flatten_cons, List.length_append, List.length_cons,
          List.length_take] at hlength
        omega
  rw [hpre, List.flatten_append, List.append_assoc, List.append_assoc] at hend
  have hrest : part ++ raw = mid.flatten ++ line.take stop := List.append_cancel_left hend
  rw [hafter, sliceOf_lines hlines]
  cases mid with
  | nil =>
    obtain ⟨rfl, -⟩ := List.cons.inj hmid
    rw [List.flatten_nil, List.nil_append] at hrest
    have hlength := congrArg List.length hrest
    rw [List.length_append, List.length_take, Nat.min_eq_left hstop] at hlength
    rw [List.nil_append, cutLines, Option.bind_some, cut_eq (by omega) hstop, ← hrest, List.drop_left]
  | cons first mid =>
    obtain ⟨rfl, -⟩ := List.cons.inj hmid
    rw [List.flatten_cons, List.append_assoc, List.append_assoc] at hrest
    rw [List.cons_append, cutLines_from (by simp) mid hstop, List.drop_left, List.append_cancel_left hrest]

/-- The slice from the position after some characters of a text to the position of a later one is what
stands there. -/
theorem sliceOf_eq (pre post : List Char) {raw : List Char} (hraw : raw ≠ []) :
    sliceOf (pre ++ (raw ++ post)) (Position.start.after pre) ((Position.start.after pre).last raw) =
    some raw := by
  obtain ⟨init, z, hlast⟩ : ∃ init z, raw = init ++ [z] := ⟨_, _, (List.dropLast_append_getLast hraw).symm⟩
  obtain ⟨above, part, tail, below, hlines, hpre, hafter⟩ := exists_line (pre ++ init) z post
  have htext : pre ++ (raw ++ post) = (pre ++ init) ++ z :: post := by rw [hlast]; simp
  rw [← htext] at hlines
  have hstop : (Position.start.after pre).last raw = ⟨above.length + 1, (part ++ [z]).length⟩ := by
    rw [hlast, Position.last_append_singleton, ← Position.after_append, hafter]
    simp
  rw [hstop]
  refine sliceOf_between rfl hraw hlines (by simp) ?_
  have hline : part ++ z :: tail = (part ++ [z]) ++ tail := by simp
  rw [hline, List.take_left, hlast, ← List.append_assoc, hpre, List.append_assoc]

/-- The slice up to the beginning of the line after some whole lines is what stands there. -/
theorem sliceOf_lineEnd (pre init post : List Char) (hpost : post ≠ []) :
    sliceOf (pre ++ ((init ++ ['\n']) ++ post)) (Position.start.after pre)
      ⟨(Position.start.after (pre ++ (init ++ ['\n']))).line, 0⟩ =
      some (init ++ ['\n']) := by
  obtain ⟨d, post, rfl⟩ := List.exists_cons_of_ne_nil hpost
  obtain ⟨above, part, tail, below, hlines, hpre, hafter⟩ := exists_line (pre ++ (init ++ ['\n'])) d post
  rw [List.append_assoc] at hlines
  -- After a line feed a line begins, with nothing before it.
  have hbegins : part = [] := by
    have hcolumn := congrArg Position.column hafter
    rw [← List.append_assoc, Position.after_append, Position.after_cons, Position.next, if_pos rfl] at hcolumn
    simp only [Position.after_nil] at hcolumn
    exact List.length_eq_zero_iff.1 (by omega)
  rw [hafter]
  exact sliceOf_between rfl (List.concat_ne_nil '\n' init) hlines (Nat.zero_le _)
    (by rw [hpre, hbegins, List.take_zero])

end Source

end Stencil
