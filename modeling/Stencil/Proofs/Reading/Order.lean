import Stencil.Proofs.Reading.Tokens

/-! # Tokens in order

Tokens stand in a text one after the other. A text spans the lines of its value, since what is written for
brackets has no line feed. -/

namespace Stencil

/-! ### Lines and columns -/

namespace Position

theorem line_after (p : Position) (cs : List Char) : (p.after cs).line = p.line + cs.count '\n' := by
  induction cs generalizing p with
  | nil => simp
  | cons c cs ih =>
    rw [after_cons, ih, next, List.count_cons]
    by_cases hc : c = '\n'
    · rw [if_pos hc, if_pos (beq_iff_eq.2 hc)]
      push_cast
      omega
    · rw [if_neg hc, if_neg fun h => hc (beq_iff_eq.1 h), Nat.add_zero]

theorem column_after {p : Position} (h : 1 ≤ p.column) (cs : List Char) : 1 ≤ (p.after cs).column := by
  induction cs generalizing p with
  | nil => exact h
  | cons c cs ih =>
    refine ih ?_
    unfold next
    split
    · exact Int.le_refl 1
    · exact Int.le_add_one h

theorem last_eq_after (p : Position) {cs : List Char} (h : cs ≠ []) : p.last cs = p.after cs.dropLast := by
  rw [← last_append_singleton p cs.dropLast (cs.getLast h), List.dropLast_append_getLast]

end Position

theorem Text.unescaped_ne_nil {cs : List Char} (h : cs ≠ []) : unescaped cs ≠ [] := by
  fun_cases unescaped cs with
  | case1 => exact absurd rfl h
  | case2 => exact List.cons_ne_nil _ _
  | case3 => exact List.cons_ne_nil _ _

/-- An escape ends on the line it begins on, as what it stands for does. -/
theorem Text.count_dropLast_unescaped (cs : List Char) :
    (unescaped cs).dropLast.count '\n' = cs.dropLast.count '\n' := by
  fun_induction unescaped cs with
  | case1 => rfl
  | case2 cs ih =>
    cases cs with
    | nil => rfl
    | cons d ds =>
      have hds := unescaped_ne_nil (List.cons_ne_nil d ds)
      simp only [List.dropLast_cons_of_ne_nil, ne_eq, hds, not_false_eq_true, reduceCtorEq,
        List.count_cons, ih]
      rfl
  | case3 c cs hescape ih =>
    cases cs with
    | nil => rfl
    | cons d ds =>
      have hds := unescaped_ne_nil (List.cons_ne_nil d ds)
      rw [List.dropLast_cons_of_ne_nil hds, List.dropLast_cons_of_ne_nil (List.cons_ne_nil d ds),
        List.count_cons, List.count_cons, ih]

/-! ### Tokens -/

namespace Token

/-- A token that does not end before it begins. A text is not empty and spans the lines of its value. -/
structure Placed (t : Token) : Prop where
  column : 1 ≤ t.last.column
  order : ¬ t.last.Before t.first
  text : t.kind = .text → t.value ≠ "" ∧ t.last.line = t.first.line + t.value.toList.dropLast.count '\n'

/-- Tokens as the lexer gives them, one after the other. -/
structure InOrder (ts : List Token) : Prop where
  lexed : ∀ t ∈ ts, t.Lexed
  placed : ∀ t ∈ ts, t.Placed
  order : ts.Pairwise fun t u => t.last.Before u.first

theorem InOrder.sublist {ts us : List Token} (h : InOrder us) (hsub : ts.Sublist us) : InOrder ts :=
  ⟨fun t ht => h.lexed t (hsub.subset ht), fun t ht => h.placed t (hsub.subset ht), h.order.sublist hsub⟩

theorem InOrder.left {ts : List Token} (h : InOrder ts) : Left ts ts := left_self h.lexed

end Token

namespace Lexer

variable {mode : Mode} {here : Position} {c : Char} {cs : List Char} {p : Piece} {ts : List Token}

/-- What a piece stands for is read from it, and is not the end of the input. -/
theorem Piece.Fits.reads {inTag : Bool} {kind : TokenKind} {value : List Char} (h : p.Fits inTag)
    (htoken : p.token = some (kind, value)) :
    kind.Reads p.raw value ∧ kind ≠ .eof := by
  cases h with
  | blanks token => rw [token] at htoken; cases htoken
  | outside token hkind reads =>
    rw [token] at htoken
    cases htoken
    exact ⟨reads, by rintro rfl; simp at hkind⟩
  | opening token raw | closing token raw =>
    rw [token] at htoken
    cases htoken
    exact ⟨raw, by decide⟩
  | inside token hkind reads =>
    rw [token] at htoken
    cases htoken
    exact ⟨reads, by rintro rfl; exact absurd hkind (by decide)⟩

/-- The token that a piece stands for spans the piece. -/
theorem placed_token (h : scan mode here c cs = .ok p) (hcolumn : 1 ≤ here.column) {t : Token}
    (ht : p.token? here = some t) :
    t.first = here ∧ t.last = here.last p.raw ∧ t.Placed := by
  have hraw := raw_ne_nil h
  have hfits := (scan_fits h).2
  obtain ⟨⟨kind, value⟩, htoken, rfl⟩ := Option.map_eq_some_iff.1 ht
  refine ⟨rfl, rfl, ?_, Position.not_last_before here hraw, ?_⟩
  · exact Position.last_eq_after here hraw ▸ Position.column_after hcolumn _
  · rintro rfl
    have hvalue : Text.unescaped p.raw = value := (hfits.reads htoken).1
    refine ⟨fun hnone => Text.unescaped_ne_nil hraw (hvalue.trans (String.ofList_eq_empty_iff.1 hnone)), ?_⟩
    rw [String.toList_ofList, ← hvalue, Text.count_dropLast_unescaped, ← Position.line_after,
      Position.last_eq_after here hraw]

/-- Tokens stand one after the other, from where the lexer begins. -/
theorem inOrder_tokensFrom (h : tokensFrom mode here cs = .ok ts) (hcolumn : 1 ≤ here.column) :
    Token.InOrder ts := by
  suffices hplaced : (∀ t ∈ ts, t.Placed) ∧ (ts.Pairwise fun t u => t.last.Before u.first) ∧
    ∀ t ∈ ts, ¬ t.first.Before here from
    ⟨lexed_tokensFrom h, hplaced.1, hplaced.2.1⟩
  fun_induction tokensFrom mode here cs generalizing ts with
  | case1 | case3 | case4 => cases h
  | case2 mode here =>
    cases h
    have heof : Token.Placed ⟨.eof, "", here, here⟩ :=
      ⟨hcolumn, Position.not_before_self here, TokenKind.noConfusion⟩
    exact ⟨List.forall_mem_singleton.2 heof, List.pairwise_singleton _ _,
      List.forall_mem_singleton.2 (Position.not_before_self here)⟩
  | case5 mode here c cs p hscan tokens htokens ih =>
    cases h
    have hraw := raw_ne_nil hscan
    obtain ⟨hplaced, horder, hlater⟩ := ih htokens (Position.column_after hcolumn _)
    have hfrom : ∀ t ∈ tokens, ¬ t.first.Before here := fun t ht =>
      Position.not_before_trans (hlater t ht) (Position.not_after_before here _)
    cases htoken : p.token? here with
    | none => exact ⟨hplaced, horder, hfrom⟩
    | some t =>
      obtain ⟨hfirst, hlast, ht⟩ := placed_token hscan hcolumn htoken
      refine ⟨List.forall_mem_cons.2 ⟨ht, hplaced⟩, List.pairwise_cons.2 ⟨fun u hu => ?_, horder⟩,
        List.forall_mem_cons.2 ⟨hfirst ▸ Position.not_before_self here, hfrom⟩⟩
      rw [hlast]
      exact (Position.last_before_after here hraw).trans_not (hlater u hu)

end Lexer

end Stencil
