import Stencil.Proofs.Reading.Spelling

/-! # Reading expressions back

The tokens that an expression is written with, without their places, and what the reader makes of them: the
expression again, but for its places. -/

namespace Stencil

/-! ### Tokens without their places -/

/-- A token without its place. -/
abbrev Form := TokenKind × String

def Token.form (t : Token) : Form := (t.kind, t.value)

/-- The token of a kind that is always written alike. -/
def TokenKind.form (kind : TokenKind) : Form := (kind, kind.spelling?.getD "")

/-- Some tokens begin with tokens of the given forms. -/
def Spells (ts : List Token) (fs : List Form) (rest : List Token) : Prop :=
  ∃ front, front.map Token.form = fs ∧ ts = front ++ rest

namespace Spells

variable {ts rest : List Token} {fs gs : List Form}

theorem nil (h : Spells ts [] rest) : ts = rest := by
  obtain ⟨front, hfront, rfl⟩ := h
  rw [List.map_eq_nil_iff.1 hfront]
  rfl

theorem cons {kind : TokenKind} {value : String} (h : Spells ts ((kind, value) :: fs) rest) :
    ∃ t ts', ts = t :: ts' ∧ t.kind = kind ∧ t.value = value ∧ Spells ts' fs rest := by
  obtain ⟨front, hfront, rfl⟩ := h
  obtain ⟨t, front', rfl, hform, hfront'⟩ := List.map_eq_cons_iff.1 hfront
  obtain ⟨hkind, hvalue⟩ := Prod.mk.inj hform
  exact ⟨t, front' ++ rest, rfl, hkind, hvalue, front', hfront', rfl⟩

theorem append (h : Spells ts (fs ++ gs) rest) : ∃ mid, Spells ts fs mid ∧ Spells mid gs rest := by
  obtain ⟨front, hfront, rfl⟩ := h
  obtain ⟨front₁, front₂, rfl, h₁, h₂⟩ := List.map_eq_append_iff.1 hfront
  exact ⟨front₂ ++ rest, ⟨front₁, h₁, List.append_assoc ..⟩, front₂, h₂, rfl⟩

theorem length (h : Spells ts fs rest) : ts.length = fs.length + rest.length := by
  obtain ⟨front, rfl, rfl⟩ := h
  rw [List.length_append, List.length_map]

end Spells

theorem expectName_spelled {ts rest : List Token} {fs : List Form} {name : String}
    (h : Spells ts ((.identifier, name) :: fs) rest) :
    ∃ ts', expectName ts = .ok (name, ts') ∧ Spells ts' fs rest := by
  obtain ⟨t, ts', rfl, hkind, hvalue, hts'⟩ := h.cons
  exact ⟨ts', by rw [expectName, if_pos hkind, hvalue], hts'⟩

/-! ### The tokens of expressions -/

namespace Expr

/-- The tokens that an expression is written with. -/
def forms : Expr → List Form
  | string _ s => [(.string, s)]
  | integer _ n => [(.integer, toString n)]
  | boolean _ b => [if b then (.keywordTrue, "true") else (.keywordFalse, "false")]
  | null _ => [(.keywordNull, "null")]
  | var _ name => [(.identifier, name)]
  | dot _ target key => target.forms ++ [TokenKind.dot.form, (.identifier, key)]
  | binary _ op left right => left.forms ++ op.token.form :: right.forms
  | not _ operand => TokenKind.bang.form :: operand.forms
  | group _ inner => TokenKind.leftParen.form :: (inner.forms ++ [TokenKind.rightParen.form])
  | eval _ target => target.forms ++ [TokenKind.question.form, (.identifier, "eval")]

theorem exists_forms_cons (e : Expr) : ∃ kind value fs, e.forms = (kind, value) :: fs ∧ kind ∈ starts := by
  induction e with
  | string _ s => exact ⟨.string, s, [], rfl, by decide⟩
  | integer _ n => exact ⟨.integer, _, [], rfl, by decide⟩
  | boolean _ b => cases b <;> exact ⟨_, _, [], rfl, by decide⟩
  | null _ => exact ⟨.keywordNull, _, [], rfl, by decide⟩
  | var _ name => exact ⟨.identifier, name, [], rfl, by decide⟩
  | not _ operand => exact ⟨.bang, _, operand.forms, rfl, by decide⟩
  | group _ inner => exact ⟨.leftParen, _, _, rfl, by decide⟩
  | dot _ target _ ih | eval _ target ih =>
    obtain ⟨kind, value, fs, h, hkind⟩ := ih
    exact ⟨kind, value, _, by rw [forms, h]; rfl, hkind⟩
  | binary _ _ left right ih _ =>
    obtain ⟨kind, value, fs, h, hkind⟩ := ih
    exact ⟨kind, value, _, by rw [forms, h]; rfl, hkind⟩

theorem literalValue_toString (n : Nat) : literalValue (toString (n : Int)) = n := by
  have hdigits : (toString (n : Int)).toList = Nat.toDigits 10 n := by
    rw [← Nat.toList_repr]
    rfl
  have hvalue := Nat.ofDigitChars_ten_toDigits (n := n)
  rw [Nat.ofDigitChars_eq_foldl] at hvalue
  rw [literalValue, hdigits]
  simpa only [Nat.mul_comm] using hvalue

/-- Tokens of the forms that an expression is written with spell it, but for its places. -/
theorem Written.spelled {n : Nat} {e : Expr} (h : e.Written n) (source : Option Source) {ts : List Token}
    (hts : ts.map Token.form = e.forms) : ∃ e', Spelled source n ts e' ∧ e'.unplaced = e.unplaced := by
  -- The tokens of a literal or a name, and the mark and the name after a target.
  have htoken : ∀ {kind : TokenKind} {value : String} {ts : List Token}, ts.map Token.form = [(kind, value)] →
      ∃ t, ts = [t] ∧ t.kind = kind ∧ t.value = value := by
    intro kind value ts hts
    obtain ⟨t, rfl, hform⟩ := List.map_eq_singleton_iff.1 hts
    exact ⟨t, rfl, Prod.mk.inj hform⟩
  have hsuffix : ∀ {fs : List Form} {kind : TokenKind} {word : String} {ts : List Token},
      ts.map Token.form = fs ++ [kind.form, (.identifier, word)] →
        ∃ front mark name, ts = front ++ [mark, name] ∧
        front.map Token.form = fs ∧ mark.kind = kind ∧ name.kind = .identifier ∧ name.value = word := by
    intro fs kind word ts hts
    obtain ⟨front, back, rfl, hfront, hback⟩ := List.map_eq_append_iff.1 hts
    obtain ⟨mark, back, rfl, hmark, hback⟩ := List.map_eq_cons_iff.1 hback
    obtain ⟨name, rfl, hkind, hvalue⟩ := htoken hback
    exact ⟨front, mark, name, rfl, hfront, (Prod.mk.inj hmark).1, hkind, hvalue⟩
  induction h generalizing ts with
  | string loc value =>
    obtain ⟨t, rfl, hkind, rfl⟩ := htoken hts
    exact ⟨_, .string hkind, rfl⟩
  | @integer _ loc value h =>
    obtain ⟨t, rfl, hkind, hvalue⟩ := htoken hts
    have hliteral : literalValue t.value = value := by rw [hvalue, literalValue_toString]
    exact ⟨_, .integer hkind (hliteral ▸ h), by rw [hliteral]; rfl⟩
  | boolean loc value =>
    cases value with
    | true =>
      obtain ⟨t, rfl, hkind, -⟩ := htoken hts
      exact ⟨_, .yes hkind, rfl⟩
    | false =>
      obtain ⟨t, rfl, hkind, -⟩ := htoken hts
      exact ⟨_, .no hkind, rfl⟩
  | null loc =>
    obtain ⟨t, rfl, hkind, -⟩ := htoken hts
    exact ⟨_, .null hkind, rfl⟩
  | var loc h =>
    obtain ⟨t, rfl, hkind, rfl⟩ := htoken hts
    exact ⟨_, .var hkind, rfl⟩
  | group loc _ ih =>
    obtain ⟨t, ts, rfl, hform, hts⟩ := List.map_eq_cons_iff.1 hts
    obtain ⟨front, back, rfl, hfront, hback⟩ := List.map_eq_append_iff.1 hts
    obtain ⟨close, rfl, hclose, -⟩ := htoken hback
    obtain ⟨e', he', hsame⟩ := ih hfront
    exact ⟨_, .group (Prod.mk.inj hform).1 he' hclose, by simp only [unplaced, hsame]⟩
  | dot loc _ _ ih =>
    obtain ⟨front, mark, key, rfl, hfront, hmark, hkey, rfl⟩ := hsuffix hts
    obtain ⟨e', he', hsame⟩ := ih hfront
    exact ⟨_, .dot he' hmark hkey, by simp only [unplaced, hsame]⟩
  | eval loc _ ih =>
    obtain ⟨front, mark, name, rfl, hfront, hmark, hname, hvalue⟩ := hsuffix hts
    obtain ⟨e', he', hsame⟩ := ih hfront
    exact ⟨_, .eval he' hmark hname hvalue, by simp only [unplaced, hsame]⟩
  | not loc hn _ ih =>
    obtain ⟨mark, ts, rfl, hform, hts⟩ := List.map_eq_cons_iff.1 hts
    obtain ⟨e', he', hsame⟩ := ih hts
    exact ⟨_, .not hn (Prod.mk.inj hform).1 he', by simp only [unplaced, hsame]⟩
  | binary loc hn _ _ ihLeft ihRight =>
    obtain ⟨front, back, rfl, hfront, hback⟩ := List.map_eq_append_iff.1 hts
    obtain ⟨mark, back, rfl, hform, hback⟩ := List.map_eq_cons_iff.1 hback
    obtain ⟨left', hleft, hsameLeft⟩ := ihLeft hfront
    obtain ⟨right', hright, hsameRight⟩ := ihRight hback
    exact ⟨_, .binary hn (Prod.mk.inj hform).1 hleft hright, by simp only [unplaced, hsameLeft, hsameRight]⟩

/-- Expressions that can be written are read back, whatever follows that does not go on with them. -/
theorem read_forms {source : Option Source} {ts rest : List Token} {e : Expr} (h : e.Written 0)
    (hts : Spells ts e.forms rest) (hrest : Stops 0 rest) :
    ∃ e', read source ts = .ok (e', rest) ∧ e'.unplaced = e.unplaced := by
  obtain ⟨front, hfront, rfl⟩ := hts
  obtain ⟨e', he', hsame⟩ := h.spelled source hfront
  exact ⟨e', he'.read hrest, hsame⟩

end Expr

end Stencil
