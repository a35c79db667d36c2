import Stencil.Proofs.Cleanup.Remnants

/-! # Lines that lose blanks

Blanks are taken off a text on lines only that it shares with a tag or a comment, and on the first and the
last line of the template, which need not hold any. -/

namespace Stencil

/-- The line on which a character of a text stands. -/
def Token.lineOf (u : Token) (i : Nat) : Int := u.first.line + (u.value.toList.take i).count '\n'

/-- A tag or a comment has a character on a line. -/
def Token.Marked (tokens : List Token) (line : Int) : Prop :=
  ∃ v ∈ tokens, (v.kind = .opening ∨ v.kind = .closing ∨ v.kind = .comment) ∧
    (v.first.line = line ∨ v.last.line = line)

section
variable {source : Source} {raw : Tree} {tokens : List Token} {u : Token}
  {front kept back : List Char} {i : Nat}

/-- What is gone from the beginning of a text stood on its first line. -/
theorem Text.Trimmed.lineOf_front (h : Trimmed u.value.toList front kept back) (hi : i < front.length) :
    u.lineOf i = u.first.line := by
  rcases h.opening with hfront | ⟨line, hline, -, hfront⟩
  · rw [hfront] at hi
    exact absurd hi (Nat.not_lt_zero i)
  · have hwithin : i ≤ line.length := by
      rw [hfront, List.length_append, List.length_singleton] at hi
      exact Nat.le_of_lt_succ hi
    have htake : u.value.toList.take i = line.take i := by
      rw [h.split, hfront, List.append_assoc, List.take_append_of_le_length hwithin]
    rw [Token.lineOf, htake, List.count_eq_zero_of_not_mem fun hin => hline (List.take_subset i line hin)]
    exact Int.add_zero _

/-- What is gone from the end of a text stood on its last line. -/
theorem Text.Trimmed.lineOf_back (h : Trimmed u.value.toList front kept back)
    (hi : front.length + kept.length ≤ i) (hlt : i < u.value.toList.length) :
    u.lineOf i = u.first.line + u.value.toList.count '\n' := by
  have hsplit : u.value.toList = (front ++ kept) ++ back := by rw [h.split, List.append_assoc]
  have hback : '\n' ∉ back := by
    refine (h.closing.resolve_left ?_).1
    rintro rfl
    rw [hsplit, List.append_nil, List.length_append] at hlt
    omega
  have hcount : ∀ xs : List Char, xs ⊆ back → ((front ++ kept) ++ xs).count '\n' =
      (front ++ kept).count '\n' := fun xs hsub => by
    rw [List.count_append, List.count_eq_zero_of_not_mem fun hin => hback (hsub hin)]
    exact Nat.add_zero _
  rw [Token.lineOf, hsplit, List.take_append, List.take_of_length_le (by rw [List.length_append]; exact hi),
    hcount _ (List.take_subset _ back), hcount back fun _ => id]

/-- Before a text there is a tag or a comment on its first line, or it begins the template. -/
theorem Tree.ReadFrom.marked_first (h : raw.ReadFrom source tokens) (hu : u ∈ tokens)
    (htext : u.kind = .text) :
    Token.Marked tokens u.first.line ∨ u.first.line = 1 := by
  obtain ⟨pre, post, rfl⟩ := List.append_of_mem hu
  rcases List.eq_nil_or_concat' pre with rfl | ⟨pre, v, rfl⟩
  · exact .inr (congrArg Position.line (h.begins u rfl))
  · have hadjacent : (v :: u :: post).IsChain Token.Borders := h.borders.suffix ⟨pre, by simp⟩
    obtain ⟨hkind, hline⟩ := (List.isChain_cons_cons.1 hadjacent).1.before htext
    exact .inl ⟨v, by simp, .inr hkind, .inr hline.symm⟩

/-- After a text there is a tag or a comment on its last line, or it ends the template. -/
theorem Tree.ReadFrom.marked_last (h : raw.ReadFrom source tokens) (hu : u ∈ tokens)
    (htext : u.kind = .text) :
    Token.Marked tokens (u.first.line + u.value.toList.count '\n') ∨
      ∀ eof ∈ tokens.getLast?, u.first.line + u.value.toList.count '\n' = eof.first.line := by
  obtain ⟨front, eof, rfl, heof, hfront⟩ := h.standing
  have hin : u ∈ front := by
    refine (List.mem_append.1 hu).resolve_right fun hlast => ?_
    rw [List.mem_singleton.1 hlast, heof] at htext
    cases htext
  obtain ⟨pre, post, rfl⟩ := List.append_of_mem hin
  have hadjacent : ((u :: post) ++ [eof]).IsChain Token.Borders := h.borders.suffix ⟨pre, by simp⟩
  cases post with
  | nil =>
    obtain ⟨-, hline⟩ := (List.isChain_cons_cons.1 hadjacent).1.after htext
    refine .inr fun last hlast => ?_
    obtain rfl : eof = last := by simpa using hlast
    exact hline.symm
  | cons v post =>
    obtain ⟨hkind, hline⟩ := (List.isChain_cons_cons.1 hadjacent).1.after htext
    have hv : v.kind = .opening ∨ v.kind = .comment :=
      hkind.imp_right fun h => h.resolve_right (hfront v (by simp)).1
    exact .inl ⟨v, by simp, hv.imp_right .inr, .inl hline⟩

end

/-- Every character of a text that is gone stood on a line on which a tag or a comment has a character, or
on the first or the last line of the template. -/
theorem Template.gone_marked {name : Option String} {text : String} {t : Template}
    (h : Template.parse name text true = .ok t) :
    ∃ tokens, tokenize text = .ok tokens ∧
      Sifted (fun u => Text.AllBlank u.value.toList)
        (fun u x => ∃ front kept back, u.LeftAs ⟨name, text⟩ true (t.arena.get x) front kept back ∧
          ∀ i < u.value.toList.length, i < front.length ∨ front.length + kept.length ≤ i →
            Token.Marked tokens (u.lineOf i) ∨ u.lineOf i = 1 ∨
            ∀ eof ∈ tokens.getLast?, u.lineOf i = eof.first.line)
        (Token.texts tokens) t.texts := by
  obtain ⟨raw, parts, us, hraw, hfinished⟩ := exists_finished_of_parse h
  obtain ⟨tokens, hread⟩ := Tree.exists_readFrom hraw
  refine ⟨tokens, hread.tokenized, (hfinished.sifted hread).imp (fun _ _ => And.right) ?_⟩
  rintro u hu x - ⟨hreadAs, front, kept, back, hremnant⟩
  have hmem : u ∈ tokens := List.mem_of_mem_filter hu
  refine ⟨front, kept, back, hremnant.leftAs hreadAs, fun i hi hgone => ?_⟩
  rcases hgone with hfront | hback
  · rw [hremnant.trimmed.lineOf_front hfront]
    exact (hread.marked_first hmem hreadAs.text).imp_right .inl
  · rw [hremnant.trimmed.lineOf_back hback hi]
    exact (hread.marked_last hmem hreadAs.text).imp_right .inr

/-- A text that loses blanks on the line of a branch and on the first line. -/
theorem Template.gone_marked_branch :
    ∃ t tokens, Template.parse none " \n\x7b[#if x]\x7d \na \n \x7b[/if]\x7d\nb" true = .ok t ∧
    t.texts.map (fun x => (t.arena.get x).kind) = [.text "a \n" true, .text "b" true] ∧
    tokenize " \n\x7b[#if x]\x7d \na \n \x7b[/if]\x7d\nb" = .ok tokens ∧
    Sifted (fun u => Text.AllBlank u.value.toList)
      (fun u x => ∃ front kept back, u.LeftAs ⟨none, " \n\x7b[#if x]\x7d \na \n \x7b[/if]\x7d\nb"⟩ true
        (t.arena.get x) front kept back ∧
        ∀ i < u.value.toList.length, i < front.length ∨ front.length + kept.length ≤ i →
          Token.Marked tokens (u.lineOf i) ∨ u.lineOf i = 1 ∨
          ∀ eof ∈ tokens.getLast?, u.lineOf i = eof.first.line)
      (Token.texts tokens) t.texts := by
  obtain ⟨t, ht, htexts⟩ := exists_of_parses none " \n\x7b[#if x]\x7d \na \n \x7b[/if]\x7d\nb" true
    (fun t => t.texts.map (fun x => (t.arena.get x).kind) == [.text "a \n" true, .text "b" true])
      (by decide +kernel)
  obtain ⟨tokens, htokens, hsifted⟩ := gone_marked ht
  exact ⟨t, tokens, ht, beq_iff_eq.1 htexts, htokens, hsifted⟩

/-- A text without any tag or comment loses a blank line before it and blanks after it. -/
theorem Template.gone_unmarked : ∃ t tokens, Template.parse none "  \nfoo\n  " true = .ok t ∧
    tokenize "  \nfoo\n  " = .ok tokens ∧ tokens.map (·.kind) = [.text, .eof] ∧
    t.texts.map (fun x => (t.arena.get x).kind) = [.text "foo\n" true] := by
  obtain ⟨t, ht, htexts⟩ := exists_of_parses none "  \nfoo\n  " true
    (fun t => t.texts.map (fun x => (t.arena.get x).kind) == [.text "foo\n" true]) (by decide +kernel)
  have hkinds : (tokenize "  \nfoo\n  ").toOption.map (List.map Token.kind) =
    some [.text, .eof] := by decide +kernel
  cases htokens : tokenize "  \nfoo\n  " with
  | error e =>
    rw [htokens] at hkinds
    cases hkinds
  | ok tokens =>
    rw [htokens] at hkinds
    exact ⟨t, tokens, ht, rfl, Option.some.inj hkinds, beq_iff_eq.1 htexts⟩

end Stencil
