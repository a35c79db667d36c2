import Stencil.Proofs.Cleanup.Trimming
import Stencil.Proofs.Reading.Borders

/-! # Lines of their own

Tags that write no value and have a line for themselves, but for blanks: what else is read stands on lines
before it or after it, apart from the text right before them and the text right after them. -/

namespace Stencil

namespace Token

/-- Complete tags side by side none of which writes a value: comments, and brackets that begin with the mark
of a directive, of a closing tag or of a macro call. -/
inductive Directives : List Token → Prop
  | nil : Directives []
  | comment {t : Token} {ts : List Token} (kind : t.kind = .comment) (rest : Directives ts) :
    Directives (t :: ts)
  | tag {opening mark closing : Token} {inner ts : List Token} (kind : opening.kind = .opening)
      (hmark : mark.kind = .hash ∨ mark.kind = .slash ∨ mark.kind = .atSign)
      (hinner : ∀ t ∈ inner, t.kind.Inside)
      (hclosing : closing.kind = .closing) (rest : Directives ts) :
      Directives (opening :: mark :: (inner ++ closing :: ts))

/-- Directives that have a line for themselves: before them it begins with blanks, and after them it ends
with blanks and a line feed, if it does not end the template. -/
structure AloneOn (tokens before tags after : List Token) (line : Int) : Prop where
  split : tokens = before ++ (tags ++ after)
  directives : Directives tags
  nonempty : tags ≠ []
  on : ∀ t ∈ tags, t.first.line = line ∧ t.last.line = line
  before : ∀ u ∈ before.getLast?, u.kind = .text ∧
    ((∃ blank, Kind.lastLine? u.value.toList = some blank ∧ Text.AllBlank blank) ∨ before = [u] ∧
      Text.AllBlank u.value.toList)
  after : ∀ u ∈ after.head?, u.kind = .eof ∨
    u.kind = .text ∧ ∃ blank, Kind.firstLine? u.value.toList = some blank ∧ Text.AllBlank blank

section
variable {ts us pre post before tags after front : List Token} {t u v opening mark : Token} {line : Int}

/-! ### Interpolations among directives -/

theorem infix_of_closed (hpre : ∀ t ∈ pre, t.kind ≠ .opening) (hopening : opening.kind = .opening)
    (h : opening :: us <:+: pre ++ ts) : opening :: us <:+: ts := by
  induction pre with
  | nil => exact h
  | cons p pre ih =>
    obtain ⟨hp, hrest⟩ := List.forall_mem_cons.1 hpre
    rcases List.infix_cons_iff.1 h with hprefix | h
    · rcases List.prefix_cons_iff.1 hprefix with hnil | ⟨_, heq, -⟩
      · cases hnil
      · obtain ⟨rfl, -⟩ := List.cons.inj heq
        exact absurd hopening hp
    · exact ih hrest h

/-- Brackets that begin with no mark stand after the directives. -/
theorem Directives.passed (h : Directives tags) (hopening : opening.kind = .opening)
    (hmark : mark.kind ∈ Expr.starts) (hbrackets : opening :: mark :: us <:+: tags ++ after) :
    opening :: mark :: us <:+: after := by
  induction h with
  | nil => exact hbrackets
  | comment kind _ ih =>
    exact ih (infix_of_closed (List.forall_mem_singleton.2 (by rw [kind]; decide)) hopening hbrackets)
  | @tag opening' mark' closing inner ts kind hmark' hinner hclosing _ ih =>
    rcases List.infix_cons_iff.1 hbrackets with hprefix | hbrackets
    · rcases List.prefix_cons_iff.1 hprefix with hnil | ⟨_, heq, hprefix⟩
      · cases hnil
      obtain ⟨rfl, rfl⟩ := List.cons.inj heq
      rcases List.prefix_cons_iff.1 hprefix with hnil | ⟨_, heq, -⟩
      · cases hnil
      obtain ⟨rfl, -⟩ := List.cons.inj heq
      rcases hmark' with hkind | hkind | hkind <;> exact absurd hmark (by rw [hkind]; decide)
    · have hclosed : ∀ t ∈ mark' :: (inner ++ [closing]), t.kind ≠ .opening := by
        refine List.forall_mem_cons.2 ⟨?_, List.forall_mem_append.2 ⟨fun t ht hkind => ?_, ?_⟩⟩
        · rcases hmark' with hkind | hkind | hkind <;> rw [hkind] <;> decide
        · exact absurd (hinner t ht) (by rw [hkind]; decide)
        · exact List.forall_mem_singleton.2 (by rw [hclosing]; decide)
      exact ih (infix_of_closed hclosed hopening (by simpa using hbrackets))

theorem Directives.no_text (h : Directives tags) : ∀ t ∈ tags, t.kind ≠ .text := by
  induction h with
  | nil => simp
  | comment kind _ ih => exact List.forall_mem_cons.2 ⟨by rw [kind]; decide, ih⟩
  | tag kind hmark hinner hclosing _ ih =>
    refine List.forall_mem_cons.2 ⟨by rw [kind]; decide, List.forall_mem_cons.2 ⟨?_, ?_⟩⟩
    · rcases hmark with hkind | hkind | hkind <;> rw [hkind] <;> decide
    · exact List.forall_mem_append.2
        ⟨fun t ht => (hinner t ht).ne_text, List.forall_mem_cons.2 ⟨by rw [hclosing]; decide, ih⟩⟩

/-! ### Lines in order -/

theorem Placed.line_le (h : t.Placed) : t.first.line ≤ t.last.line := by
  by_contra hlt
  exact h.order (.inl (Int.not_le.1 hlt))

theorem InOrder.line_le (h : InOrder (pre ++ t :: post)) (hu : u ∈ post) : t.last.line ≤ u.first.line := by
  have horder := (List.pairwise_cons.1 (List.pairwise_append.1 h.order).2.1).1 u hu
  rcases horder with hlt | ⟨heq, -⟩
  · exact Int.le_of_lt hlt
  · exact Int.le_of_eq heq

/-- What comes after a text does not begin on a line before its last. -/
theorem text_line_le (h : InOrder (pre ++ t :: post)) (hborders : (pre ++ t :: post).IsChain Borders)
    (htext : t.kind = .text) (hu : u ∈ post) : t.first.line + t.value.toList.count '\n' ≤ u.first.line := by
  cases post with
  | nil => cases hu
  | cons v post =>
    have hadjacent : (t :: v :: post).IsChain Borders := hborders.suffix ⟨pre, rfl⟩
    rw [← ((List.isChain_cons_cons.1 hadjacent).1.after htext).2]
    rcases List.mem_cons.1 hu with rfl | hu
    · exact Int.le_refl _
    · have horder : InOrder ((pre ++ [t]) ++ v :: post) := by simpa using h
      exact Int.le_trans (h.placed v (by simp)).line_le (horder.line_le hu)

end

/-! ### What stands on the line -/

section
variable {source : Source} {raw : Tree} {tokens before tags after : List Token} {u v : Token} {line : Int}

theorem AloneOn.line_before (h : AloneOn tokens before tags after line) (hread : raw.ReadFrom source tokens)
    (hu : u ∈ before.getLast?) : u.first.line + u.value.toList.count '\n' = line := by
  obtain ⟨front, rfl⟩ := List.getLast?_eq_some_iff.1 hu
  obtain ⟨v, tags', rfl⟩ := List.exists_cons_of_ne_nil h.nonempty
  have hadjacent : (u :: v :: (tags' ++ after)).IsChain Borders := by
    refine hread.borders.suffix ⟨front, ?_⟩
    rw [h.split]
    simp
  rw [← ((List.isChain_cons_cons.1 hadjacent).1.after (h.before u hu).1).2]
  exact (h.on v List.mem_cons_self).1

theorem AloneOn.line_after (h : AloneOn tokens before tags after line) (hread : raw.ReadFrom source tokens)
    (hu : u ∈ after.head?) (htext : u.kind = .text) : u.first.line = line := by
  obtain ⟨rest, rfl⟩ := List.head?_eq_some_iff.1 hu
  obtain ⟨tags', v, rfl⟩ := List.eq_nil_or_concat' tags |>.resolve_left h.nonempty
  have hadjacent : (v :: u :: rest).IsChain Borders := by
    refine hread.borders.suffix ⟨before ++ tags', ?_⟩
    rw [h.split]
    simp
  rw [((List.isChain_cons_cons.1 hadjacent).1.before htext).2]
  exact (h.on v (by simp)).2

/-- What comes before the text before the directives stands on lines before theirs. -/
theorem AloneOn.early (h : AloneOn tokens before tags after line) (hread : raw.ReadFrom source tokens)
    (hv : v ∈ before.dropLast) :
    v.last.line < line ∧ (v.kind = .text → v.first.line + v.value.toList.count '\n' < line) := by
  rcases List.eq_nil_or_concat' before with rfl | ⟨front, u, rfl⟩
  · cases hv
  rw [List.dropLast_concat] at hv
  have hu : u ∈ (front ++ [u]).getLast? := by simp
  have hline := h.line_before hread hu
  obtain ⟨-, ⟨blank, hblank, -⟩ | ⟨honly, -⟩⟩ := h.before u hu
  · obtain ⟨init, hinit, -⟩ := Arena.exists_of_lastLine? hblank
    have hcount : 1 ≤ u.value.toList.count '\n' := List.one_le_count_iff.2 (by rw [hinit]; simp)
    obtain ⟨pre, post, rfl⟩ := List.append_of_mem hv
    have hsplit : tokens = pre ++ v :: (post ++ u :: (tags ++ after)) := by rw [h.split]; simp
    have horder := hsplit ▸ hread.inOrder
    have hlast := horder.line_le (u := u) (by simp)
    refine ⟨by omega, fun htext => ?_⟩
    have htext := text_line_le horder (hsplit ▸ hread.borders) htext (u := u) (by simp)
    omega
  · obtain rfl : front = [] := by simpa using honly
    cases hv

/-- What comes after the text after the directives stands on lines after theirs. -/
theorem AloneOn.late (h : AloneOn tokens before tags after line) (hread : raw.ReadFrom source tokens)
    (hv : v ∈ after.tail) :
    line < v.first.line ∧ line < v.last.line := by
  cases after with
  | nil => cases hv
  | cons u rest =>
    have hsplit : tokens = (before ++ tags) ++ u :: rest := by rw [h.split]; simp
    rcases h.after u rfl with heof | ⟨htext, blank, hblank, -⟩
    · -- Nothing comes after the end of the input.
      obtain ⟨front, eof, hfront, -, hkinds⟩ := hread.standing
      rcases List.eq_nil_or_concat' rest with rfl | ⟨rest, last, rfl⟩
      · cases hv
      · rw [hsplit, ← List.cons_append, ← List.append_assoc] at hfront
        have hu : u ∈ front := List.append_inj_left' hfront rfl ▸ by simp
        exact absurd heof (hkinds u hu).1
    · obtain ⟨later, hlater, -⟩ := Arena.exists_of_firstLine? hblank
      have hcount : 1 ≤ u.value.toList.count '\n' := List.one_le_count_iff.2 (by rw [hlater]; simp)
      have hline := h.line_after hread rfl htext
      have hv' := text_line_le (hsplit ▸ hread.inOrder) (hsplit ▸ hread.borders) htext hv
      have hplaced := (hread.inOrder.placed v (by rw [hsplit]; simp [show v ∈ rest from hv])).line_le
      omega

/-- Of the texts only those right before and right after the directives share the line with them. -/
theorem AloneOn.neighbour (h : AloneOn tokens before tags after line) (hread : raw.ReadFrom source tokens)
    (hu : u ∈ tokens) (htext : u.kind = .text) (hfirst : u.first.line ≤ line)
    (hlast : line ≤ u.first.line + u.value.toList.count '\n') :
    u ∈ before.getLast? ∨ u ∈ after.head? := by
  rw [h.split] at hu
  rcases List.mem_append.1 hu with hu | hu
  · rcases List.eq_nil_or_concat' before with rfl | ⟨front, w, rfl⟩
    · cases hu
    rcases List.mem_append.1 hu with hin | hin
    · have hearly := (h.early hread (v := u) (by simpa using hin)).2 htext
      omega
    · rw [List.mem_singleton.1 hin]
      exact .inl (by simp)
  · rcases List.mem_append.1 hu with hu | hu
    · exact absurd htext (h.directives.no_text u hu)
    · cases after with
      | nil => cases hu
      | cons w rest =>
        rcases List.mem_cons.1 hu with rfl | hu
        · exact .inr rfl
        · have hlate := (h.late hread (v := u) hu).1
          omega

/-- The last token before the directives is a text. -/
theorem AloneOn.mem_dropLast (h : AloneOn tokens before tags after line) (hu : u ∈ before)
    (hkind : u.kind ≠ .text) :
    u ∈ before.dropLast := by
  rw [← List.dropLast_concat_getLast (List.ne_nil_of_mem hu)] at hu
  refine (List.mem_append.1 hu).resolve_right fun hlast => hkind ?_
  rw [List.mem_singleton.1 hlast]
  exact (h.before _ (List.getLast?_eq_some_getLast _)).1

/-- The first token after the directives is a text or the end of the input. -/
theorem AloneOn.mem_tail (h : AloneOn tokens before tags after line) (hu : u ∈ after)
    (hkind : u.kind ≠ .text ∧ u.kind ≠ .eof) :
    u ∈ after.tail := by
  cases after with
  | nil => cases hu
  | cons v rest =>
    refine (List.mem_cons.1 hu).resolve_left ?_
    rintro rfl
    rcases h.after u rfl with heof | ⟨htext, -⟩
    · exact hkind.2 heof
    · exact hkind.1 htext

/-- A tag with no text in it that is none of the directives stands before them all or after them all. -/
theorem AloneOn.sides (h : AloneOn tokens before tags after line) {tag : List Token} (htag : tag <:+: tokens)
    (hkinds : ∀ t ∈ tag, t.kind ≠ .text ∧ t.kind ≠ .eof) (hpassed : tag <:+: tags ++ after → tag <:+: after) :
    (∀ t ∈ tag, t ∈ before.dropLast) ∨ ∀ t ∈ tag, t ∈ after.tail := by
  have hlater : tag <:+: tags ++ after → ∀ t ∈ tag, t ∈ after.tail := fun hin t ht =>
    h.mem_tail ((hpassed hin).subset ht) (hkinds t ht)
  rw [h.split] at htag
  rcases List.infix_append_iff.1 htag with hin | hin | ⟨xs, ys, rfl, hxs, hys⟩
  · exact .inl fun t ht => h.mem_dropLast (hin.subset ht) (hkinds t ht).1
  · exact .inr (hlater hin)
  · rcases List.eq_nil_or_concat' xs with rfl | ⟨xs, w, rfl⟩
    · exact .inr (hlater hys.isInfix)
    · obtain ⟨pre, rfl⟩ := hxs
      exact absurd (h.before w (by simp)).1 (hkinds w (by simp)).1

/-- No interpolation begins or ends on the line. -/
theorem AloneOn.bracketed (h : AloneOn tokens before tags after line) (hread : raw.ReadFrom source tokens)
    {e : Expr} {l : Location} (hl : Tree.Bracketed (some source) tokens e l) :
    l.first.line ≠ line ∧ l.last.line ≠ line := by
  obtain ⟨opening, inner, closing, hbrackets, hopening, hclosing, hinner, rfl⟩ := hl
  have hkinds : ∀ t ∈ opening :: (inner ++ [closing]), t.kind ≠ .text ∧ t.kind ≠ .eof := by
    refine List.forall_mem_cons.2 ⟨by rw [hopening]; decide, List.forall_mem_append.2 ⟨fun t ht => ?_, ?_⟩⟩
    · have hinside := hinner.inside t ht
      constructor <;> intro hkind <;> rw [hkind] at hinside <;> exact absurd hinside (by decide)
    · exact List.forall_mem_singleton.2 (by rw [hclosing]; decide)
  have hpassed : opening :: (inner ++ [closing]) <:+: tags ++ after →
      opening :: (inner ++ [closing]) <:+: after := by
    obtain ⟨mark, inner, rfl, ⟨hmark, -⟩, -⟩ := hinner.begins
    exact h.directives.passed hopening hmark
  have hfirst : opening ∈ opening :: (inner ++ [closing]) := List.mem_cons_self
  have hlast : closing ∈ opening :: (inner ++ [closing]) := by simp
  show opening.first.line ≠ line ∧ closing.last.line ≠ line
  rcases h.sides hbrackets hkinds hpassed with hearly | hlate
  · have hopening := (h.early hread (hearly opening hfirst)).1
    have hplaced := (hread.inOrder.placed opening (hbrackets.subset hfirst)).line_le
    have hclosing := (h.early hread (hearly closing hlast)).1
    exact ⟨by omega, by omega⟩
  · have hopening := (h.late hread (hlate opening hfirst)).1
    have hclosing := (h.late hread (hlate closing hlast)).2
    exact ⟨by omega, by omega⟩

end

end Token

end Stencil
