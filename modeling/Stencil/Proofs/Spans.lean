import Stencil.Arena.Cleanup
import Stencil.Proofs.Reading.Slices

/-! # Spans

Where elements begin and end. Spans nest when those of the children of an element lie within its own, one
after the other. Taking blanks off a text moves its ends inwards, and as long as characters are left the span
does not end before it begins. -/

namespace Stencil

/-! ### Spans inside spans -/

namespace Location

theorem contains_iff {l : Location} {p : Position} :
    l.contains p = true ↔ ¬ p.Before l.first ∧ ¬ l.last.Before p := by
  unfold contains Position.Before
  simp only [Bool.not_eq_true', Bool.or_eq_false_iff, Bool.and_eq_false_iff, decide_eq_false_iff_not,
    beq_eq_false_iff_ne]
  omega

/-- A span does not begin before another and does not end after it. -/
structure Inside (l outer : Location) : Prop where
  first : ¬ l.first.Before outer.first
  last : ¬ outer.last.Before l.last

variable {l outer outermost : Location}

theorem Inside.self (l : Location) : l.Inside l := ⟨Position.not_before_self _, Position.not_before_self _⟩

theorem Inside.trans (h : l.Inside outer) (h' : outer.Inside outermost) : l.Inside outermost :=
  ⟨Position.not_before_trans h.first h'.first, Position.not_before_trans h'.last h.last⟩

/-- Spans inside others are at least as far apart. -/
theorem Inside.before {l' outer' : Location} (h : l.Inside outer) (h' : l'.Inside outer')
    (hbefore : outer.last.Before outer'.first) :
    l.last.Before l'.first :=
  (hbefore.trans_not h'.first).not_trans h.last

theorem Inside.contains (h : l.Inside outer) {p : Position} (hp : l.contains p = true) :
    outer.contains p = true := by
  rw [contains_iff] at hp ⊢
  exact ⟨Position.not_before_trans hp.1 h.first, Position.not_before_trans h.last hp.2⟩

end Location

/-! ### Elements and their spans -/

/-- Elements with characters of their own in the template. -/
def Kind.Solid (kind : Kind) : Prop := kind ≠ .sequence ∧ ∀ trimmed, kind ≠ .text "" trimmed

/-- Elements that are written as tags. -/
def Kind.IsTag : Kind → Prop
  | .sequence | .text _ _ => False
  | _ => True

theorem Kind.IsTag.ne_text {kind : Kind} (h : kind.IsTag) (text : String) (trimmed : Bool) :
    kind ≠ .text text trimmed := by
  rintro rfl
  exact h

theorem Kind.IsTag.solid {kind : Kind} (h : kind.IsTag) : kind.Solid := by
  refine ⟨?_, h.ne_text ""⟩
  rintro rfl
  exact h

/-- A span that an element can have: it does not end before it begins, and if the element is a text that has
not been trimmed, its lines are those of the text. -/
structure Kind.Fits (kind : Kind) (l : Location) : Prop where
  column : 0 ≤ l.last.column
  order : kind.Solid → ¬ l.last.Before l.first
  lines : ∀ text, kind = .text text false → 1 ≤ l.last.column ∧
    l.last.line = l.first.line + text.toList.dropLast.count '\n'

/-- Trees whose spans nest. -/
inductive Tree.Nested : List Tree → Prop
  | nil : Nested []
  | cons {t : Tree} {ts : List Tree} (fits : t.kind.Fits t.location)
    (parts : ∀ c ∈ t.children, c.kind.Solid ∧ c.location.Inside t.location)
    (order : t.children.Pairwise fun c d => c.location.last.Before d.location.first)
    (body : Nested t.children)
    (tail : Nested ts) : Nested (t :: ts)

/-! ### Trimming -/

/-- The number of characters of the first line and its line feed, or none. -/
def Text.Opens (text : List Char) (n : Nat) : Prop :=
  n = 0 ∨ ∃ line rest, text = line ++ '\n' :: rest ∧ n = line.length + 1

/-- The number of characters after the last line feed, or of all, or none. -/
def Text.Closes (text : List Char) (n : Nat) : Prop :=
  n = 0 ∨ n = text.length ∨ ∃ front tail, text = front ++ '\n' :: tail ∧ n = tail.length

/-- The ends of a span after trimming, line by line and column by column. -/
theorem Arena.trimmedLocation_ends (l : Location) (opening trailing : Nat) :
    (trimmedLocation l opening trailing).first.line = l.first.line + (if opening > 0 then 1 else 0) ∧
    (trimmedLocation l opening trailing).first.column = (if opening > 0 then 1 else l.first.column) ∧
    (trimmedLocation l opening trailing).last.line = l.last.line ∧
    (trimmedLocation l opening trailing).last.column = (if trailing > 0 then 0 else l.last.column) := by
  unfold trimmedLocation
  split <;> split <;> simp

theorem Location.inside_trimmed {l : Location} (h : 0 ≤ l.last.column) (opening trailing : Nat) :
    (Arena.trimmedLocation l opening trailing).Inside l := by
  obtain ⟨hfirst, hfirst', hlast, hlast'⟩ := Arena.trimmedLocation_ends l opening trailing
  constructor <;> unfold Position.Before <;> omega

theorem count_lt_count_dropLast (front : List Char) {tail : List Char} (h : tail ≠ []) (c : Char) :
    front.count c < (front ++ c :: tail).dropLast.count c := by
  have hsplit : front ++ c :: tail = (front ++ [c]) ++ tail := by simp
  rw [hsplit, List.dropLast_append_of_ne_nil h, List.count_append, List.count_append,
    List.count_singleton_self]
  omega

/-- When characters are left between two trimmed ends, the ends stand on lines far enough apart. -/
theorem lines_of_trimmedText {cs : List Char} {opening trailing : Nat} (hopening : Text.Opens cs opening)
    (htrailing : Text.Closes cs trailing) (hleft : Arena.trimmedText cs opening trailing ≠ []) :
    (if opening > 0 then 1 else 0 : Int) + (if trailing > 0 then 1 else 0) ≤ cs.dropLast.count '\n' := by
  have hlength : opening < cs.length - trailing := by
    rw [Arena.trimmedText, ne_eq, List.drop_eq_nil_iff, List.length_take,
      Nat.min_eq_left (Nat.sub_le _ _)] at hleft
    omega
  rcases hopening with rfl | ⟨line, rest, hline, rfl⟩
  · rcases htrailing with rfl | rfl | ⟨front, tail, rfl, rfl⟩
    · simp
    · omega
    · cases tail with
      | nil => simp
      | cons c tail =>
        have hcount := count_lt_count_dropLast front (List.cons_ne_nil c tail) '\n'
        omega
  · have hrest : rest ≠ [] := by
      rintro rfl
      rw [hline, List.length_append, List.length_singleton] at hlength
      omega
    have hfirst := count_lt_count_dropLast line hrest '\n'
    rw [← hline] at hfirst
    rcases htrailing with rfl | rfl | ⟨front, tail, rfl, rfl⟩
    · simp only [Nat.lt_irrefl, gt_iff_lt, if_false]
      omega
    · omega
    · cases tail with
      | nil =>
        simp only [List.length_nil, Nat.lt_irrefl, gt_iff_lt, if_false]
        omega
      | cons c tail =>
        -- Two line feeds stand before the last characters: the one of the first line and a later one.
        have hlast := count_lt_count_dropLast front (List.cons_ne_nil c tail) '\n'
        simp only [List.length_append, List.length_cons] at hlength
        have hfront : 1 ≤ front.count '\n' := by
          refine List.one_le_count_iff.2 ?_
          rcases List.append_eq_append_iff.1 hline with ⟨mid, rfl, -⟩ | ⟨mid, rfl, hmid⟩
          · simp only [List.length_append] at hlength
            omega
          · cases mid with
            | nil =>
              simp only [List.append_nil] at hlength
              omega
            | cons d mid =>
              rw [← (List.cons.inj hmid).1]
              exact List.mem_append_cons_self
        omega

/-- What is left of a text after trimming has a span that it can have. -/
theorem Kind.Fits.trimmed {text : String} {l : Location} (h : Fits (.text text false) l)
    {opening trailing : Nat} (hopening : Text.Opens text.toList opening)
    (htrailing : Text.Closes text.toList trailing) :
    Fits (.text (.ofList (Arena.trimmedText text.toList opening trailing)) true)
      (Arena.trimmedLocation l opening trailing) := by
  obtain ⟨hcolumn, hlines⟩ := h.lines text rfl
  obtain ⟨hfirst, hfirst', hlast, hlast'⟩ := Arena.trimmedLocation_ends l opening trailing
  refine ⟨?_, fun hsolid => ?_, fun _ htrimmed => nomatch (Kind.text.inj htrimmed).2⟩
  · have := h.column
    omega
  · have hleft : Arena.trimmedText text.toList opening trailing ≠ [] := by
      intro hnone
      exact hsolid.2 true (by rw [hnone])
    have hcount := lines_of_trimmedText hopening htrailing hleft
    have hwhole : (Kind.text text false).Solid := by
      refine ⟨nofun, ?_⟩
      rintro _ ⟨⟩
      exact hleft (by simp [Arena.trimmedText])
    have horder := h.order hwhole
    unfold Position.Before at horder ⊢
    omega

end Stencil
