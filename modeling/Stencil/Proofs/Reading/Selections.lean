import Stencil.Proofs.Outcomes
import Stencil.Proofs.Spans

/-! # Slices and the positions of a location

A slice is cut out of a table of lines, with ends that are turned into offsets; a location compares
positions. Both tell the same characters of a text apart from the others, and where no slice can be cut the
ends lie outside the text. The offsets are machine numbers, and none of them ever leaves its range. -/

namespace Stencil

namespace Source

/-! ### Characters at their positions -/

/-- The characters of a text that begins at a position, each at its own position. -/
def placed : Position → List Char → List (Position × Char)
  | _, [] => []
  | p, c :: cs => (p, c) :: placed (p.next c) cs

/-- The characters of one line, or what is left of it from a position on. -/
def row : Position → List Char → List (Position × Char)
  | _, [] => []
  | p, c :: cs => (p, c) :: row ⟨p.line, p.column + 1⟩ cs

/-- The characters of some lines, the first of which has a number. -/
def rows : Int → List (List Char) → List (Position × Char)
  | _, [] => []
  | n, line :: lines => row ⟨n, 1⟩ line ++ rows (n + 1) lines

/-- Those of some characters whose positions a location contains. -/
def select (l : Location) (xs : List (Position × Char)) : List Char :=
  (xs.filter fun x => l.contains x.1).map Prod.snd

section
variable {l l' : Location} {xs : List (Position × Char)} {n : Int}

theorem placed_eq_rows (p : Position) (text : List Char) : placed p text =
    match linesOf text with
    | [] => []
    | line :: lines => row p line ++ rows (p.line + 1) lines := by
  induction text generalizing p with
  | nil => rfl
  | cons c cs ih =>
    rw [placed, ih, linesOf]
    by_cases hc : c = '\n'
    · rw [if_pos hc, Position.next, if_pos hc]
      cases linesOf cs <;> rfl
    · rw [if_neg hc, Position.next, if_neg hc]
      cases linesOf cs <;> rfl

theorem placed_start (text : List Char) : placed .start text = rows 1 (linesOf text) := by
  rw [placed_eq_rows]
  cases linesOf text <;> rfl

theorem rows_append (n : Int) (lines lines' : List (List Char)) :
    rows n (lines ++ lines') = rows n lines ++ rows (n + lines.length) lines' := by
  induction lines generalizing n with
  | nil => simp [rows]
  | cons line lines ih =>
    have hn : n + 1 + (lines.length : Int) = n + ((line :: lines).length : Int) := by
      rw [List.length_cons]
      push_cast
      omega
    rw [List.cons_append, rows, rows, ih, hn, List.append_assoc]

theorem mem_row {p : Position} {line : List Char} {x : Position × Char} (h : x ∈ row p line) :
    x.1.line = p.line ∧ p.column ≤ x.1.column := by
  induction line generalizing p with
  | nil => cases h
  | cons c cs ih =>
    rcases List.mem_cons.1 h with rfl | h
    · exact ⟨rfl, Int.le_refl _⟩
    · obtain ⟨hline, hcolumn⟩ := ih h
      exact ⟨hline, by dsimp only at hcolumn; omega⟩

theorem mem_rows {lines : List (List Char)} {x : Position × Char} (h : x ∈ rows n lines) :
    n ≤ x.1.line ∧ x.1.line < n + lines.length ∧ 1 ≤ x.1.column := by
  induction lines generalizing n with
  | nil => cases h
  | cons line lines ih =>
    rw [List.length_cons]
    rcases List.mem_append.1 h with h | h
    · obtain ⟨hline, hcolumn⟩ := mem_row h
      dsimp only at hline hcolumn
      omega
    · obtain ⟨hleast, hmost, hcolumn⟩ := ih h
      omega

/-! ### Selections -/

theorem select_append (l : Location) (xs ys : List (Position × Char)) :
    select l (xs ++ ys) = select l xs ++ select l ys := by
  rw [select, List.filter_append, List.map_append]
  rfl

theorem select_congr (h : ∀ x ∈ xs, l.contains x.1 = l'.contains x.1) : select l xs = select l' xs := by
  rw [select, select, List.filter_congr h]

/-- A location selects nothing of lines that are all above it or all below it. -/
theorem select_rows_eq_nil {lines : List (List Char)}
    (h : n + lines.length ≤ l.first.line ∨ l.last.line < n) :
    select l (rows n lines) = [] := by
  rw [select, List.map_eq_nil_iff, List.filter_eq_nil_iff]
  intro x hx
  obtain ⟨hleast, hmost, -⟩ := mem_rows hx
  rw [Location.contains_iff]
  simp only [Position.Before]
  omega

/-- A location that contains the positions of a line from one offset up to another selects
the piece between them. -/
theorem select_row {p : Position} {line : List Char} {start stop : Nat}
    (h : ∀ i < line.length, l.contains ⟨p.line, p.column + i⟩ = decide (start ≤ i ∧ i < stop)) :
    select l (row p line) = (line.take stop).drop start := by
  induction line generalizing p start stop with
  | nil => simp [row, select]
  | cons c cs ih =>
    have hhead := h 0 (Nat.succ_pos _)
    rw [Int.natCast_zero, Int.add_zero] at hhead
    have htail : select l (row ⟨p.line, p.column + 1⟩ cs) = (cs.take (stop - 1)).drop (start - 1) := by
      refine ih fun i hi => ?_
      have hnext := h (i + 1) (Nat.succ_lt_succ hi)
      have hcolumn : p.column + ((i + 1 : Nat) : Int) = p.column + 1 + i := by
        push_cast
        omega
      rw [hcolumn] at hnext
      rw [hnext, decide_eq_decide]
      omega
    have hsplit : select l (row p (c :: cs)) =
        (if l.contains p then [c] else []) ++ select l (row ⟨p.line, p.column + 1⟩ cs) := by
      rw [row, select, List.filter_cons]
      split <;> rfl
    rw [hsplit, htail, hhead]
    cases stop with
    | zero => simp
    | succ stop => cases start <;> simp

/-- What is cut out of some lines is what the location from the one end to the other selects of them. -/
theorem cutLines_selects {lines : List (List Char)} (hlines : lines ≠ []) {start stop : Nat}
    {piece : List Char} (h : cutLines start (some stop) lines = some piece) (source : Option Source)
    (n : Int) :
    piece = select ⟨source, ⟨n, start + 1⟩, ⟨n + lines.length - 1, stop⟩⟩ (rows n lines) := by
  induction lines generalizing start piece n with
  | nil => exact absurd rfl hlines
  | cons line lines ih =>
    cases lines with
    | nil =>
      rw [cutLines, Option.bind_some, cut] at h
      split at h
      · cases h
      · obtain rfl := Option.some.inj h
        rw [rows, rows, List.append_nil]
        refine (select_row fun i _ => ?_).symm
        rw [Bool.eq_iff_iff, Location.contains_iff, decide_eq_true_eq]
        simp only [Position.Before, List.length_singleton, true_and]
        omega
    | cons next rest =>
      rw [cutLines, Option.bind_eq_bind, Option.bind_eq_some_iff] at h
      obtain ⟨head, hhead, h⟩ := h
      obtain ⟨tail, htail, h⟩ := Option.bind_eq_some_iff.1 h
      obtain rfl := Option.some.inj h
      rw [cut] at hhead
      split at hhead
      · cases hhead
      obtain rfl := Option.some.inj hhead
      rw [rows, select_append, ih (List.cons_ne_nil _ _) htail (n + 1)]
      congr 1
      · refine (select_row fun i hi => ?_).symm
        rw [Bool.eq_iff_iff, Location.contains_iff, decide_eq_true_eq]
        simp only [Position.Before, List.length_cons, true_and]
        omega
      · -- Below its first line the location begins as if at the beginning of a line.
        refine select_congr fun x hx => ?_
        obtain ⟨hline, -, hcolumn⟩ := mem_rows hx
        rw [Bool.eq_iff_iff, Location.contains_iff, Location.contains_iff]
        simp only [Position.Before, List.length_cons]
        omega

end

/-! ### Ends inside a text -/

/-- The number of characters of a line, its line feed included; none when the text has no such line. -/
def lineLength (text : List Char) (n : Int) : Nat := (((linesOf text)[(n - 1).toNat]?).map List.length).getD 0

/-- Two positions between which a text has nothing to show. -/
def Outside (text : List Char) (first last : Position) : Prop :=
  first.line < 1 ∨ first.column < 1 ∨ last.line < first.line ∨ (linesOf text).length < last.line ∨
    last.column < 0 ∨ lineLength text last.line < last.column ∨
    (if first.line = last.line then last.column else lineLength text first.line) + 1 < first.column

section
variable {text line : List Char} {first last : Position}
  {lines above mid below : List (List Char)} {start stop : Nat}

theorem cutLines_open (start : Nat) (hlines : lines ≠ []) : cutLines start none lines = none := by
  induction lines generalizing start with
  | nil => exact absurd rfl hlines
  | cons line lines ih =>
    cases lines with
    | nil => rfl
    | cons next rest =>
      rw [cutLines, ih 0 (List.cons_ne_nil _ _)]
      cases cut line start line.length <;> rfl

/-- What is cut out of some lines begins within the first one and ends within the last one. -/
theorem cutLines_fits {piece : List Char} (h : cutLines start (some stop) (lines ++ [line]) = some piece) :
    stop ≤ line.length ∧ start ≤ (lines.head?.map List.length).getD stop := by
  have hcut {line : List Char} {start stop : Nat} {piece : List Char} (h : cut line start stop = some piece) :
      start ≤ stop ∧ stop ≤ line.length := by
    rw [cut] at h
    split at h
    · cases h
    · next hfits =>
      simp only [Bool.or_eq_true, decide_eq_true_eq] at hfits
      omega
  induction lines generalizing start piece with
  | nil => exact (hcut h).symm
  | cons first lines ih =>
    obtain ⟨next, rest, hrest⟩ : ∃ next rest, lines ++ [line] = next :: rest :=
      List.exists_cons_of_ne_nil (by simp)
    rw [List.cons_append, hrest, cutLines, ← hrest, Option.bind_eq_bind, Option.bind_eq_some_iff] at h
    obtain ⟨head, hhead, h⟩ := h
    obtain ⟨tail, htail, -⟩ := Option.bind_eq_some_iff.1 h
    exact ⟨(ih htail).1, (hcut hhead).1⟩

theorem cutLines_eq_none : cutLines start (some stop) (lines ++ [line]) = none ↔
    line.length < stop ∨ (lines.head?.map List.length).getD stop < start := by
  constructor
  · intro h
    by_contra hfits
    rw [not_or, Nat.not_lt, Nat.not_lt] at hfits
    obtain ⟨hstop, hstart⟩ := hfits
    cases lines with
    | nil => exact Option.some_ne_none _ ((cut_eq hstart hstop).symm.trans h)
    | cons first lines => exact Option.some_ne_none _ ((cutLines_from hstart lines hstop).symm.trans h)
  · intro h
    rw [Option.eq_none_iff_forall_ne_some]
    intro piece hpiece
    have := cutLines_fits hpiece
    omega

/-- Ends in lines of a text that are in order tell the lines before, between and after them. -/
theorem exists_lines (hfirst : 1 ≤ first.line) (hcolumn : 1 ≤ first.column) (horder : first.line ≤ last.line)
    (hlast : last.line ≤ (linesOf text).length) (hstop : 0 ≤ last.column) :
    ∃ above mid line below, ∃ start stop : Nat, linesOf text = (above ++ mid) ++ line :: below ∧
      first = ⟨above.length + 1, start + 1⟩ ∧ last = ⟨(above ++ mid).length + 1, stop⟩ := by
  have hbound : (last.line - 1).toNat < (linesOf text).length := by omega
  have hfront : ((linesOf text).take (last.line - 1).toNat).length = (last.line - 1).toNat :=
    List.length_take_of_le (Nat.le_of_lt hbound)
  refine ⟨((linesOf text).take (last.line - 1).toNat).take (first.line - 1).toNat,
    ((linesOf text).take (last.line - 1).toNat).drop (first.line - 1).toNat,
    (linesOf text)[(last.line - 1).toNat],
    (linesOf text).drop ((last.line - 1).toNat + 1), (first.column - 1).toNat, last.column.toNat, ?_, ?_, ?_⟩
  · rw [List.take_append_drop, ← List.drop_eq_getElem_cons hbound, List.take_append_drop]
  · rw [Position.mk.injEq, List.length_take, hfront]
    omega
  · rw [Position.mk.injEq, List.take_append_drop, hfront]
    omega

theorem lineLength_of_lines (h : linesOf text = above ++ line :: below) :
    lineLength text (above.length + 1) = line.length := by
  have hline : ((above.length : Int) + 1 - 1).toNat = above.length := by omega
  rw [lineLength, hline, h, List.getElem?_append_right (Nat.le_refl _), Nat.sub_self]
  rfl

/-- Between two positions there is no slice exactly when the text has nothing to show there. -/
theorem sliceOf_eq_none : sliceOf text first last = none ↔ Outside text first last := by
  rw [Outside]
  by_cases hends : first.line < 1 ∨ first.column < 1 ∨ last.line < first.line
  · rw [sliceOf, if_pos (by simpa [or_assoc] using hends)]
    exact iff_of_true rfl (by omega)
  by_cases hlast : (linesOf text).length < last.line
  · have hpast : last.line.toNat > (linesOf text).length := by omega
    rw [sliceOf, if_neg (by simpa [or_assoc] using hends)]
    simp only [if_pos hpast]
    exact iff_of_true trivial (by omega)
  by_cases hcolumn : last.column < 0
  · have hsome : ((linesOf text).take last.line.toNat).drop (first.line - 1).toNat ≠ [] := by
      rw [← List.length_pos_iff_ne_nil, List.length_drop, List.length_take]
      omega
    have hfits : ¬ last.line.toNat > (linesOf text).length := by omega
    rw [sliceOf, if_neg (by simpa [or_assoc] using hends)]
    simp only [if_neg hfits, if_pos hcolumn]
    exact iff_of_true (cutLines_open _ hsome) (by omega)
  obtain ⟨above, mid, line, below, start, stop, hlines, rfl, rfl⟩ :=
    @exists_lines text first last (by omega) (by omega) (by omega) (by omega) (by omega)
  have hlineLength := lineLength_of_lines hlines
  rw [sliceOf_lines hlines, cutLines_eq_none]
  dsimp only at hends hlast hcolumn ⊢
  rw [hlineLength]
  cases mid with
  | nil =>
    simp only [List.append_nil, if_true, List.head?_nil, Option.map_none, Option.getD_none]
    omega
  | cons middle mid =>
    rw [List.append_assoc, List.cons_append] at hlines
    have hne : ¬ (above.length : Int) + 1 = ((above ++ middle :: mid).length : Int) + 1 := by
      rw [List.length_append, List.length_cons]
      omega
    rw [if_neg hne, lineLength_of_lines hlines]
    simp only [List.head?_cons, Option.map_some, Option.getD_some]
    omega

/-- A slice is what the location between its ends selects of the whole text. -/
theorem sliceOf_selects {piece : List Char} (h : sliceOf text first last = some piece)
    (source : Option Source) :
    piece = select ⟨source, first, last⟩ (placed .start text) := by
  have hinside : ¬ Outside text first last := by
    rw [← sliceOf_eq_none, h]
    exact Option.some_ne_none piece
  rw [Outside] at hinside
  obtain ⟨above, mid, line, below, start, stop, hlines, rfl, rfl⟩ :=
    @exists_lines text first last (by omega) (by omega) (by omega) (by omega) (by omega)
  rw [sliceOf_lines hlines] at h
  have hsplit : linesOf text = above ++ ((mid ++ [line]) ++ below) := by rw [hlines]; simp
  have hlast : (((above ++ mid).length : Nat) : Int) + 1 = 1 + above.length + (mid ++ [line]).length - 1 := by
    simp only [List.length_append, List.length_singleton]
    omega
  have hfirst : (above.length : Int) + 1 = 1 + above.length := Int.add_comm _ _
  have habove : (1 : Int) + above.length ≤ above.length + 1 := by omega
  have hbelow : (((above ++ mid).length : Nat) : Int) + 1 < 1 + above.length +
    (mid ++ [line]).length := by omega
  rw [placed_start, hsplit, rows_append, rows_append, select_append, select_append,
    select_rows_eq_nil (.inl habove), select_rows_eq_nil (n := 1 + above.length + (mid ++ [line]).length)
      (.inr hbelow), List.nil_append, List.append_nil,
    cutLines_selects (by simp) h source (1 + above.length), hfirst, hlast]

example : sliceOf "a\nb".toList ⟨1, 1⟩ ⟨2, 0⟩ = some "a\n".toList := by decide

end

/-! ### Machine numbers -/

/-- The difference of two signed numbers of 32 bits. -/
def difference32 (a b : Int) : Except Breach Int :=
  if Int32.minValue.toInt ≤ a - b ∧ a - b ≤ Int32.maxValue.toInt then .ok (a - b) else .error .overflow

/-- The number of sizes, `2 ^ 64`. -/
def sizeBound : Nat := 18446744073709551616

/-- A signed number taken for a size, which wraps around. -/
def toSize (n : Int) : Nat := (n % sizeBound).toNat

/-- The characters of a line between two offsets. -/
def range (line : List Char) (start stop : Nat) : Except Breach (List Char) :=
  if start ≤ stop ∧ stop ≤ line.length then .ok ((line.take stop).drop start) else .error .cut

/-- The lines between two indices, both included, if they are there. -/
def pick (lines : List (List Char)) (first last : Nat) : Option (List (List Char)) :=
  if last + 1 = sizeBound || first > last + 1 || last + 1 > lines.length then none
  else some ((lines.take (last + 1)).drop first)

/-- The offset at which the piece of a line begins. -/
def startOf (first : Position) (offset : Nat) : Except Breach Nat :=
  if offset = 0 then toSize <$> difference32 first.column 1 else .ok 0

/-- The offset at which the piece of a line ends, unless it is negative. -/
def stopOf (last : Position) (count offset : Nat) (line : List Char) : Except Breach (Option Nat) := do
  let final ← difference count 1
  return if offset = final then (if last.column < 0 then none else some last.column.toNat)
    else some line.length

/-- The piece of a line between two offsets, if they are in order and lie in the line. -/
def pieceOf (line : List Char) (start : Nat) : Option Nat → Except Breach (Option (List Char))
  | none => .ok none
  | some stop => if start > stop || stop > line.length then .ok none else some <$> range line start stop

/-- The text of the picked lines from some line on, which goes after what has been cut
out of the lines before. -/
def cutChecked (first last : Position) (count : Nat) :
    Nat → List (List Char) → List Char → Except Breach (Option (List Char))
  | _, [], out => .ok (some out)
  | offset, line :: lines, out => do
    let start ← startOf first offset
    let stop ← stopOf last count offset line
    match ← pieceOf line start stop with
    | none => .ok none
    | some piece => cutChecked first last count (offset + 1) lines (out ++ piece)

/-- The piece of a text between two positions as it is cut with numbers of the machine. -/
def sliceChecked (text : List Char) (first last : Position) : Except Breach (Option (List Char)) :=
  if first.line < 1 || first.column < 1 || last.line < first.line then .ok none
  else do
    let above ← difference32 first.line 1
    let upTo ← difference32 last.line 1
    match pick (linesOf text) (toSize above) (toSize upTo) with
    | none => .ok none
    | some lines => cutChecked first last lines.length 0 lines []

section
variable {first last : Position} {a b : Int32}

theorem difference32_one (h : 1 ≤ a.toInt) : difference32 a.toInt 1 = .ok (a.toInt - 1) := by
  have hmost := a.toInt_lt
  have hmin : Int32.minValue.toInt = -2 ^ 31 := by decide
  have hmax : Int32.maxValue.toInt = 2 ^ 31 - 1 := by decide
  rw [difference32, hmin, hmax, if_pos (by omega)]

theorem toSize_pred (h : 1 ≤ a.toInt) : toSize (a.toInt - 1) = (a.toInt - 1).toNat := by
  have hmost := a.toInt_lt
  rw [toSize, sizeBound, Int.emod_eq_of_lt (by omega) (by omega)]

theorem startOf_eq (hfirst : first.column = b.toInt) (hcolumn : 1 ≤ b.toInt) (offset : Nat) :
    startOf first offset = .ok (if offset = 0 then (first.column - 1).toNat else 0) := by
  rw [startOf]
  split
  · rw [hfirst, difference32_one hcolumn]
    exact congrArg Except.ok (toSize_pred hcolumn)
  · rfl

theorem stopOf_eq {count : Nat} (hcount : 1 ≤ count) (offset : Nat) (line : List Char) :
    stopOf last count offset line =
    .ok (if offset = count - 1 then (if last.column < 0 then none else some last.column.toNat)
      else some line.length) := by
  rw [stopOf, difference, if_pos hcount]
  rfl

theorem pieceOf_eq (line : List Char) (start : Nat) (stop : Option Nat) :
    pieceOf line start stop = .ok (stop.bind (cut line start)) := by
  cases stop with
  | none => rfl
  | some stop =>
    rw [pieceOf, Option.bind_some, cut]
    split
    · rfl
    · next hfits =>
      simp only [Bool.or_eq_true, decide_eq_true_eq] at hfits
      rw [range, if_pos (by omega)]
      rfl

/-- The machine cuts the same piece out of the lines, one after the other, as they give together. -/
theorem cutChecked_eq (hfirst : first.column = b.toInt) (hcolumn : 1 ≤ b.toInt) {offset count : Nat}
    {lines : List (List Char)} (hcount : offset + lines.length = count) (out : List Char) :
    cutChecked first last count offset lines out =
      .ok ((cutLines (if offset = 0 then (first.column - 1).toNat else 0)
        (if last.column < 0 then none else some last.column.toNat) lines).map (out ++ ·)) := by
  induction lines generalizing offset out with
  | nil => simp [cutChecked, cutLines]
  | cons line lines ih =>
    rw [List.length_cons] at hcount
    have hnext : offset + 1 + lines.length = count := by omega
    have hrest (out : List Char) := ih hnext out
    rw [if_neg (Nat.succ_ne_zero offset)] at hrest
    rw [cutChecked, startOf_eq hfirst hcolumn, stopOf_eq (by omega)]
    generalize (if offset = 0 then (first.column - 1).toNat else 0) = start
    dsimp only [bind, Except.bind]
    rw [pieceOf_eq]
    cases lines with
    | nil =>
      rw [List.length_nil] at hcount
      rw [if_pos (by omega), cutLines]
      cases (if last.column < 0 then none else some last.column.toNat).bind (cut line start) <;> rfl
    | cons next lines =>
      rw [List.length_cons] at hcount
      rw [if_neg (by omega), cutLines, Option.bind_some]
      cases cut line start line.length with
      | none => rfl
      | some piece =>
        dsimp only
        rw [hrest]
        cases cutLines 0 (if last.column < 0 then none else some last.column.toNat) (next :: lines) with
        | none => rfl
        | some tail => simp

/-- With coordinates of 32 bits no number of the machine leaves its range, and the slice is the same. -/
theorem sliceChecked_eq (text : List Char) (firstLine firstColumn lastLine lastColumn : Int32) :
    sliceChecked text ⟨firstLine.toInt, firstColumn.toInt⟩ ⟨lastLine.toInt, lastColumn.toInt⟩ =
      .ok (sliceOf text ⟨firstLine.toInt, firstColumn.toInt⟩ ⟨lastLine.toInt, lastColumn.toInt⟩) := by
  rw [sliceChecked, sliceOf]
  dsimp only
  split
  · rfl
  · next hends =>
    simp only [Bool.or_eq_true, decide_eq_true_eq, not_or, Int.not_lt] at hends
    obtain ⟨⟨hfirst, hcolumn⟩, horder⟩ := hends
    have hlast := lastLine.toInt_lt
    rw [difference32_one hfirst, difference32_one (Int.le_trans hfirst horder)]
    dsimp only [bind, Except.bind]
    rw [toSize_pred hfirst, toSize_pred (Int.le_trans hfirst horder), pick]
    have hupTo : (lastLine.toInt - 1).toNat + 1 = lastLine.toInt.toNat := by omega
    rw [hupTo]
    have hsize : ¬ lastLine.toInt.toNat = sizeBound := by
      rw [sizeBound]
      omega
    have habove : ¬ (firstLine.toInt - 1).toNat > lastLine.toInt.toNat := by omega
    simp only [hsize, habove, decide_false, Bool.false_or, decide_eq_true_eq]
    by_cases hpast : lastLine.toInt.toNat > (linesOf text).length
    · simp only [if_pos hpast]
    · simp only [if_neg hpast]
      rw [cutChecked_eq rfl hcolumn (Nat.zero_add _)]
      simp

end

end Source

/-! ### The slice of a location -/

namespace Location

/-- The slice of a location shows the characters of the text that the location contains, in their
order. It is there unless an end of the location lies outside the text, and finding that out breaks
no rule of the machine. -/
theorem slice_selects (source : Source) (firstLine firstColumn lastLine lastColumn : Int32) :
    let l : Location := ⟨some source, ⟨firstLine.toInt, firstColumn.toInt⟩,
      ⟨lastLine.toInt, lastColumn.toInt⟩⟩
    Source.sliceChecked source.text.toList l.first l.last = .ok (l.slice?.map String.toList) ∧
      (∀ s, l.slice? = some s → s.toList = Source.select l (Source.placed .start source.text.toList)) ∧
      (l.slice? = none ↔ Source.Outside source.text.toList l.first l.last) ∧
      (l.isEvaluated = true → l.slice? = none) := by
  intro l
  have hslice : l.slice? = (Source.sliceOf source.text.toList l.first l.last).map String.ofList := rfl
  have hnone : l.slice? = none ↔ Source.Outside source.text.toList l.first l.last := by
    rw [hslice, Option.map_eq_none_iff, Source.sliceOf_eq_none]
  refine ⟨?_, fun s hs => ?_, hnone, fun hevaluated => hnone.2 (.inl ?_)⟩
  · rw [Source.sliceChecked_eq, hslice, Option.map_map]
    cases Source.sliceOf source.text.toList l.first l.last with
    | none => rfl
    | some piece => exact congrArg (fun piece => Except.ok (some piece)) String.toList_ofList.symm
  · rw [hslice, Option.map_eq_some_iff] at hs
    obtain ⟨piece, hpiece, rfl⟩ := hs
    rw [String.toList_ofList]
    exact Source.sliceOf_selects hpiece (some source)
  · have hnegative : l.first.line < 0 := of_decide_eq_true hevaluated
    omega

end Location

end Stencil
