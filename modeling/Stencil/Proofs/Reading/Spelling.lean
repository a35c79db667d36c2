import Stencil.Proofs.Outcomes
import Stencil.Proofs.Reading.Grammar

/-! # The tokens of an expression

Which tokens spell an expression, and the places that the expression has from them. The readers are sound
and complete for this: what they take spells what they give, and an expression is read from the tokens
that spell it, whatever follows that does not go on with it. A reader of a level first comes to the end of
the leftmost operand and then goes on with the operators of the level, so an expression leads a reader to
where it goes on after it. -/

namespace Stencil

/-- How an operator reads as a token. -/
def BinaryOp.token : BinaryOp → TokenKind
  | or => .orOr
  | and => .andAnd
  | equal => .equalEqual
  | notEqual => .notEqual
  | add => .plus

theorem BinaryOp.level_lt (op : BinaryOp) : op.level < 4 := by
  cases op <;> decide

theorem expect_eq_ok {kind : TokenKind} {ts rest : List Token} {t : Token}
    (h : expect kind ts = .ok (t, rest)) :
    ts = t :: rest ∧ t.kind = kind := by
  cases ts with
  | nil => cases h
  | cons u us =>
    rw [expect] at h
    split at h
    · next hkind =>
      cases h
      exact ⟨rfl, hkind⟩
    · cases h

theorem expect_cons {kind : TokenKind} {t : Token} (h : t.kind = kind) (rest : List Token) :
    expect kind (t :: rest) = .ok (t, rest) := by
  rw [expect, if_pos h]

namespace Expr

theorem operator_token (op : BinaryOp) : operator? op.token = some op := by
  cases op <;> rfl

theorem eq_token {kind : TokenKind} {op : BinaryOp} (h : operator? kind = some op) : kind = op.token := by
  cases kind <;> cases h <;> rfl

/-- Tokens that spell an expression of a level. The expression has its places from them. -/
inductive Spelled (source : Option Source) : Nat → List Token → Expr → Prop
  | string {n : Nat} {t : Token} (kind : t.kind = .string) :
    Spelled source n [t] (.string (locate source t) t.value)
  | integer {n : Nat} {t : Token} (kind : t.kind = .integer) (h : literalValue t.value ≤ greatestLiteral) :
    Spelled source n [t] (.integer (locate source t) (literalValue t.value))
  | yes {n : Nat} {t : Token} (kind : t.kind = .keywordTrue) :
    Spelled source n [t] (.boolean (locate source t) true)
  | no {n : Nat} {t : Token} (kind : t.kind = .keywordFalse) :
    Spelled source n [t] (.boolean (locate source t) false)
  | null {n : Nat} {t : Token} (kind : t.kind = .keywordNull) : Spelled source n [t] (.null (locate source t))
  | var {n : Nat} {t : Token} (kind : t.kind = .identifier) :
    Spelled source n [t] (.var (locate source t) t.value)
  | group {n : Nat} {opening close : Token} {ts : List Token} {inner : Expr}
    (kind : opening.kind = .leftParen)
    (h : Spelled source 0 ts inner) (hclose : close.kind = .rightParen) :
    Spelled source n (opening :: (ts ++ [close])) (.group ⟨source, opening.first, close.last⟩ inner)
  | dot {n : Nat} {mark key : Token} {ts : List Token} {target : Expr} (h : Spelled source 5 ts target)
    (kind : mark.kind = .dot) (hkey : key.kind = .identifier) :
    Spelled source n (ts ++ [mark, key]) (.dot ⟨source, target.location.first, key.last⟩ target key.value)
  | eval {n : Nat} {mark name : Token} {ts : List Token} {target : Expr} (h : Spelled source 5 ts target)
    (kind : mark.kind = .question) (hname : name.kind = .identifier) (hvalue : name.value = "eval") :
    Spelled source n (ts ++ [mark, name]) (.eval ⟨source, target.location.first, name.last⟩ target)
  | not {n : Nat} {mark : Token} {ts : List Token} {operand : Expr} (hn : n ≤ 4) (kind : mark.kind = .bang)
    (h : Spelled source 4 ts operand) :
    Spelled source n (mark :: ts) (.not ⟨source, mark.first, operand.location.last⟩ operand)
  | binary {n : Nat} {op : BinaryOp} {mark : Token} {ts us : List Token}
    {left right : Expr} (hn : n ≤ op.level)
    (kind : mark.kind = op.token) (hleft : Spelled source op.level ts left)
    (hright : Spelled source (op.level + 1) us right) :
    Spelled source n (ts ++ mark :: us) (.binary (between source left.location right.location) op left right)

section
variable {source : Option Source} {inner : Reader Expr} {m n : Nat} {e : Expr} {ts front rest : List Token}

/-! ### Levels -/

theorem Spelled.mono (h : Spelled source n ts e) (hmn : m ≤ n) : Spelled source m ts e := by
  cases h with
  | string kind => exact .string kind
  | integer kind h => exact .integer kind h
  | yes kind => exact .yes kind
  | no kind => exact .no kind
  | null kind => exact .null kind
  | var kind => exact .var kind
  | group kind h hclose => exact .group kind h hclose
  | dot h kind hkey => exact .dot h kind hkey
  | eval h kind hname hvalue => exact .eval h kind hname hvalue
  | not hn kind h => exact .not (Nat.le_trans hmn hn) kind h
  | binary hn kind hleft hright => exact .binary (Nat.le_trans hmn hn) kind hleft hright

/-- An expression of a level is an operator of this level between two expressions, or
one of the next level. -/
theorem Spelled.binary_or (hn : n < 4) (h : Spelled source n ts e) : Spelled source (n + 1) ts e ∨
    ∃ op mark front back left right, ts = front ++ mark :: back ∧
      e = .binary (between source left.location right.location) op left right ∧
      op.level = n ∧ mark.kind = op.token ∧ Spelled source n front left ∧
      Spelled source (n + 1) back right := by
  cases h with
  | string kind => exact .inl (.string kind)
  | integer kind h => exact .inl (.integer kind h)
  | yes kind => exact .inl (.yes kind)
  | no kind => exact .inl (.no kind)
  | null kind => exact .inl (.null kind)
  | var kind => exact .inl (.var kind)
  | group kind h hclose => exact .inl (.group kind h hclose)
  | dot h kind hkey => exact .inl (.dot h kind hkey)
  | eval h kind hname hvalue => exact .inl (.eval h kind hname hvalue)
  | not _ kind h => exact .inl (.not hn kind h)
  | binary hlevel kind hleft hright =>
    rcases Nat.eq_or_lt_of_le hlevel with rfl | hlt
    · exact .inr ⟨_, _, _, _, _, _, rfl, rfl, rfl, kind, hleft, hright⟩
    · exact .inl (.binary hlt kind hleft hright)

theorem Spelled.not_or (h : Spelled source 4 ts e) : Spelled source 5 ts e ∨
    ∃ mark back operand, ts = mark :: back ∧ e = .not ⟨source, mark.first, operand.location.last⟩ operand ∧
      mark.kind = .bang ∧ Spelled source 4 back operand := by
  cases h with
  | string kind => exact .inl (.string kind)
  | integer kind h => exact .inl (.integer kind h)
  | yes kind => exact .inl (.yes kind)
  | no kind => exact .inl (.no kind)
  | null kind => exact .inl (.null kind)
  | var kind => exact .inl (.var kind)
  | group kind h hclose => exact .inl (.group kind h hclose)
  | dot h kind hkey => exact .inl (.dot h kind hkey)
  | eval h kind hname hvalue => exact .inl (.eval h kind hname hvalue)
  | not _ kind h => exact .inr ⟨_, _, _, rfl, rfl, kind, h⟩
  | binary hlevel => exact absurd hlevel (Nat.not_le_of_lt (BinaryOp.level_lt _))

/-! ### The first token and the last -/

/-- The kinds of token that an expression can begin with. -/
def starts : List TokenKind :=
  [.string, .integer, .keywordTrue, .keywordFalse, .keywordNull, .identifier, .leftParen, .bang]

/-- Only negations begin with a mark, and keys cannot follow them. -/
theorem Spelled.begins (h : Spelled source n front e) :
    ∃ t ts, front = t :: ts ∧ (t.kind ∈ starts ∧ (n = 5 → t.kind ≠ .bang)) ∧ e.location.first = t.first := by
  induction h with
  | string kind | integer kind | yes kind | no kind | null kind | var kind | group kind =>
    exact ⟨_, _, rfl, by simp [kind, starts], rfl⟩
  | dot _ _ _ ih | eval _ _ _ _ ih =>
    obtain ⟨t, ts, rfl, hkind, hfirst⟩ := ih
    exact ⟨t, _, rfl, ⟨hkind.1, fun _ => hkind.2 rfl⟩, hfirst⟩
  | not hn kind => exact ⟨_, _, rfl, ⟨by rw [kind]; decide, by omega⟩, rfl⟩
  | @binary n op _ _ _ _ _ hn _ _ _ ih =>
    obtain ⟨t, ts, rfl, hkind, hfirst⟩ := ih
    have hlevel := op.level_lt
    exact ⟨t, _, rfl, ⟨hkind.1, by omega⟩, hfirst⟩

theorem Spelled.ends (h : Spelled source n front e) :
    ∃ ts t, front = ts ++ [t] ∧ e.location.last = t.last := by
  induction h with
  | string | integer | yes | no | null | var => exact ⟨[], _, rfl, rfl⟩
  | @group _ opening close ts => exact ⟨opening :: ts, close, rfl, rfl⟩
  | @dot _ mark key ts => exact ⟨ts ++ [mark], key, by simp, rfl⟩
  | @eval _ mark name ts => exact ⟨ts ++ [mark], name, by simp, rfl⟩
  | @not _ mark _ _ _ _ _ ih =>
    obtain ⟨ts, t, rfl, hlast⟩ := ih
    exact ⟨mark :: ts, t, rfl, hlast⟩
  | @binary _ _ mark ts _ _ _ _ _ _ _ _ ih =>
    obtain ⟨us, t, rfl, hlast⟩ := ih
    exact ⟨ts ++ mark :: us, t, by simp, hlast⟩

theorem Spelled.location_source (h : Spelled source n front e) : e.location.source = source := by
  cases h <;> rfl

/-! ### Soundness -/

/-- What a reader takes spells the expression of a level that it gives. -/
def SoundAt (source : Option Source) (n : Nat) (reader : Reader Expr) : Prop :=
  ∀ ⦃ts : List Token⦄ ⦃e : Expr⦄ ⦃rest : List Token⦄, reader ts = .ok (e, rest) →
    ∃ front, ts = front ++ rest ∧ Spelled source n front e

theorem sound_readPrimary (hinner : SoundAt source 0 inner) :
    SoundAt source 5 (readPrimary source inner) := by
  intro ts e rest h
  cases ts with
  | nil => cases h
  | cons t ts =>
    simp only [readPrimary] at h
    split at h
    · next kind =>
      cases h
      exact ⟨[t], rfl, .string kind⟩
    · next kind =>
      split at h
      · next hmax =>
        cases h
        exact ⟨[t], rfl, .integer kind hmax⟩
      · cases h
    · next kind =>
      cases h
      exact ⟨[t], rfl, .yes kind⟩
    · next kind =>
      cases h
      exact ⟨[t], rfl, .no kind⟩
    · next kind =>
      cases h
      exact ⟨[t], rfl, .null kind⟩
    · next kind =>
      cases h
      exact ⟨[t], rfl, .var kind⟩
    · next kind =>
      obtain ⟨⟨operand, mid⟩, hoperand, hrest⟩ := exists_of_bind_eq_ok h
      obtain ⟨⟨close, mid'⟩, hclose, hend⟩ := exists_of_bind_eq_ok hrest
      obtain ⟨rfl, hkind⟩ := expect_eq_ok hclose
      obtain ⟨front, rfl, hfront⟩ := hinner hoperand
      cases hend
      exact ⟨t :: (front ++ [close]), by simp, .group kind hfront hkind⟩
    · cases h
    · cases h

theorem spelled_readSuffixes {bound : Nat} {e' : Expr} (he : Spelled source 5 front e)
    (h : readSuffixes source bound e ts = .ok (e', rest)) :
    ∃ back, ts = back ++ rest ∧ Spelled source 5 (front ++ back) e' := by
  have hdone : ∀ {ts : List Token}, (Except.ok (e, ts) : Except ParseError _) = .ok (e', rest) →
      ∃ back, ts = back ++ rest ∧ Spelled source 5 (front ++ back) e' := by
    rintro _ ⟨⟩
    exact ⟨[], rfl, by rwa [List.append_nil]⟩
  induction bound generalizing e front ts with
  | zero => exact hdone h
  | succ bound ih =>
    -- A key or a built-in takes two tokens.
    have hnext : ∀ {e'' : Expr} {mark name : Token} {mid : List Token},
        Spelled source 5 (front ++ [mark, name]) e'' →
        readSuffixes source bound e'' mid = .ok (e', rest) →
        ∃ back, mark :: name :: mid = back ++ rest ∧ Spelled source 5 (front ++ back) e' := by
      intro e'' mark name mid he'' h
      obtain ⟨back, rfl, hback⟩ := ih he'' h (by
        rintro _ ⟨⟩
        exact ⟨[], rfl, by rwa [List.append_nil]⟩)
      exact ⟨mark :: name :: back, rfl, by simpa using hback⟩
    cases ts with
    | nil => exact hdone h
    | cons mark ts =>
      simp only [readSuffixes] at h
      split at h
      · next kind =>
        obtain ⟨⟨key, mid⟩, hkey, hmore⟩ := exists_of_bind_eq_ok h
        obtain ⟨rfl, hkind⟩ := expect_eq_ok hkey
        exact hnext (.dot he kind hkind) hmore
      · next kind =>
        obtain ⟨⟨name, mid⟩, hname, hmore⟩ := exists_of_bind_eq_ok h
        obtain ⟨rfl, hkind⟩ := expect_eq_ok hname
        dsimp only at hmore
        split at hmore
        · next hvalue => exact hnext (.eval he kind hkind hvalue) hmore
        · cases hmore
      · exact hdone h

theorem sound_readPostfix (hinner : SoundAt source 0 inner) :
    SoundAt source 5 (readPostfix source inner) := by
  intro ts e rest h
  obtain ⟨⟨operand, mid⟩, hoperand, hsuffixes⟩ := exists_of_bind_eq_ok h
  obtain ⟨front, rfl, hfront⟩ := sound_readPrimary hinner hoperand
  obtain ⟨back, rfl, hback⟩ := spelled_readSuffixes hfront hsuffixes
  exact ⟨front ++ back, (List.append_assoc ..).symm, hback⟩

theorem sound_readUnary (hinner : SoundAt source 0 inner) : SoundAt source 4 (readUnary source inner) := by
  have hpostfix : SoundAt source 4 (readPostfix source inner) := by
    intro ts e rest h
    obtain ⟨front, hts, hfront⟩ := sound_readPostfix hinner h
    exact ⟨front, hts, hfront.mono (by decide)⟩
  intro ts
  induction ts with
  | nil => exact fun e rest h => hpostfix h
  | cons t ts ih =>
    intro e rest h
    rw [readUnary] at h
    split at h
    · next kind =>
      obtain ⟨⟨operand, mid⟩, hoperand, hend⟩ := exists_of_bind_eq_ok h
      obtain ⟨front, rfl, hfront⟩ := ih hoperand
      cases hend
      exact ⟨t :: front, rfl, .not (Nat.le_refl 4) kind hfront⟩
    · exact hpostfix h

theorem spelled_readChain {ops : List BinaryOp} (hops : ∀ op ∈ ops, op.level = n) {operand : Reader Expr}
    (hoperand : SoundAt source (n + 1) operand) {bound : Nat} {left : Expr}
    (hleft : Spelled source n front left) (h : readChain source ops operand bound left ts = .ok (e, rest)) :
    ∃ back, ts = back ++ rest ∧ Spelled source n (front ++ back) e := by
  induction bound generalizing left front ts with
  | zero =>
    cases h
    exact ⟨[], rfl, by rwa [List.append_nil]⟩
  | succ bound ih =>
    have hdone : ∀ {ts : List Token}, (Except.ok (left, ts) : Except ParseError _) = .ok (e, rest) →
        ∃ back, ts = back ++ rest ∧ Spelled source n (front ++ back) e := by
      rintro _ ⟨⟩
      exact ⟨[], rfl, by rwa [List.append_nil]⟩
    cases ts with
    | nil => exact hdone h
    | cons mark ts =>
      simp only [readChain] at h
      split at h
      · next op hop =>
        split at h
        · next hin =>
          obtain ⟨⟨right, mid⟩, hright, hmore⟩ := exists_of_bind_eq_ok h
          obtain ⟨back, rfl, hback⟩ := hoperand hright
          obtain rfl := hops op hin
          obtain ⟨back', rfl, hall⟩ := ih (.binary (Nat.le_refl _) (eq_token hop) hleft hback) hmore
          exact ⟨mark :: (back ++ back'), by simp, by simpa using hall⟩
        · exact hdone h
      · exact hdone h

theorem sound_readLevels (hinner : SoundAt source 0 inner) {k : Nat} (hn : n + k = 4) :
    SoundAt source n (readLevels source inner (levels.drop n)) := by
  induction k generalizing n with
  | zero =>
    obtain rfl : n = 4 := hn
    exact sound_readUnary hinner
  | succ k ih =>
    obtain ⟨ops, hdrop, hops⟩ := levels_drop (n := n) (by omega)
    intro ts e rest h
    rw [hdrop, readLevels] at h
    obtain ⟨⟨left, mid⟩, hleft, hchain⟩ := exists_of_bind_eq_ok h
    obtain ⟨front, rfl, hfront⟩ := ih (by omega) hleft
    obtain ⟨back, rfl, hback⟩ := spelled_readChain (fun op hop => (hops op).1 hop) (ih (by omega))
      (hfront.mono (Nat.le_succ n)) hchain
    exact ⟨front ++ back, (List.append_assoc ..).symm, hback⟩

theorem sound_readWithin (bound : Nat) : SoundAt source 0 (readWithin source bound) := by
  induction bound with
  | zero => exact fun ts e rest h => nomatch h
  | succ bound ih => exact sound_readLevels (n := 0) (k := 4) ih rfl

/-- What is taken for an expression spells it. -/
theorem spelled_read (h : read source ts = .ok (e, rest)) :
    ∃ front, ts = front ++ rest ∧ Spelled source 0 front e :=
  sound_readWithin ts.length h

/-! ### Completeness -/

/-- Tokens that do not go on with an expression of a level. -/
structure Stops (n : Nat) (ts : List Token) : Prop where
  suffix : nextKind ts ≠ .dot ∧ nextKind ts ≠ .question
  operator (op : BinaryOp) : operator? (nextKind ts) = some op → op.level < n

theorem Stops.mono (h : Stops m ts) (hmn : m ≤ n) : Stops n ts :=
  ⟨h.suffix, fun op hop => Nat.lt_of_lt_of_le (h.operator op hop) hmn⟩

/-- An operator ends the expressions that bind tighter. -/
theorem stops_operator {op : BinaryOp} {mark : Token} (kind : mark.kind = op.token) :
    Stops (op.level + 1) (mark :: ts) := by
  have hnext : nextKind (mark :: ts) = op.token := kind
  refine ⟨by rw [hnext]; cases op <;> decide, fun op' hop' => ?_⟩
  rw [hnext, operator_token] at hop'
  obtain rfl := Option.some.inj hop'
  exact Nat.lt_succ_self _

/-- A reader reads the expressions of a level from the tokens that spell them, if these are at most `m`. -/
def CompleteAt (source : Option Source) (n m : Nat) (reader : Reader Expr) : Prop :=
  ∀ ⦃front : List Token⦄ ⦃e : Expr⦄ ⦃rest : List Token⦄, Spelled source n front e →
    front.length ≤ m → Stops n rest →
    reader (front ++ rest) = .ok (e, rest)

theorem readSuffixes_stops {bound : Nat} (h : nextKind ts ≠ .dot ∧ nextKind ts ≠ .question) :
    readSuffixes source bound e ts = .ok (e, ts) := by
  cases bound with
  | zero => rfl
  | succ bound =>
    cases ts with
    | nil => rfl
    | cons t rest =>
      simp only [readSuffixes]
      split
      · next hkind => exact absurd hkind h.1
      · next hkind => exact absurd hkind h.2
      · rfl

theorem readChain_stops {bound : Nat} {ops : List BinaryOp} (hops : ∀ op, op ∈ ops ↔ op.level = n)
    {operand : Reader Expr} (h : Stops n ts) : readChain source ops operand bound e ts = .ok (e, ts) := by
  cases bound with
  | zero => rfl
  | succ bound =>
    cases ts with
    | nil => rfl
    | cons t rest =>
      simp only [readChain]
      split
      · next op hop =>
        have hlevel : op.level < n := h.operator op hop
        rw [if_neg fun hin => by rw [(hops op).1 hin] at hlevel; exact Nat.lt_irrefl _ hlevel]
      · rfl

/-- The reader comes to the end of an expression and goes on with the keys after it. -/
theorem readPostfix_leads (hinner : CompleteAt source 0 m inner) (h : Spelled source 5 front e)
    (hlength : front.length ≤ m + 1) (rest : List Token) :
    ∃ bound, rest.length ≤ bound ∧
    readPostfix source inner (front ++ rest) = readSuffixes source bound e rest := by
  have hprimary : ∀ {front rest : List Token} {e : Expr},
      readPrimary source inner (front ++ rest) = .ok (e, rest) →
      ∃ bound, rest.length ≤ bound ∧
      readPostfix source inner (front ++ rest) = readSuffixes source bound e rest :=
    fun {_ rest _} h => ⟨rest.length, Nat.le_refl _, by simp only [readPostfix, h, bind, Except.bind]⟩
  generalize hn : 5 = n at h
  induction h generalizing rest with
  | string kind => exact hprimary (by simp only [List.cons_append, List.nil_append, readPrimary, kind])
  | integer kind h =>
    exact hprimary (by simp only [List.cons_append, List.nil_append, readPrimary, kind, if_pos h])
  | yes kind => exact hprimary (by simp only [List.cons_append, List.nil_append, readPrimary, kind])
  | no kind => exact hprimary (by simp only [List.cons_append, List.nil_append, readPrimary, kind])
  | null kind => exact hprimary (by simp only [List.cons_append, List.nil_append, readPrimary, kind])
  | var kind => exact hprimary (by simp only [List.cons_append, List.nil_append, readPrimary, kind])
  | @group _ opening close ts operand kind h hclose =>
    have hlength' : ts.length ≤ m := by
      simp only [List.length_cons, List.length_append] at hlength
      omega
    have hstops : Stops 0 (close :: rest) :=
      ⟨by simp [nextKind, hclose], by simp [nextKind, hclose, operator?]⟩
    have hread := hinner h hlength' hstops
    refine hprimary ?_
    simp only [List.cons_append, List.append_assoc, List.nil_append, readPrimary, kind, hread,
      expect_cons hclose, bind, Except.bind, pure, Except.pure]
  | @dot _ mark key ts target _ kind hkey ih =>
    simp only [List.length_append, List.length_cons] at hlength
    obtain ⟨bound, hbound, hread⟩ := ih (by omega) (mark :: key :: rest) rfl
    simp only [List.length_cons] at hbound
    obtain ⟨bound, rfl⟩ : ∃ k, bound = k + 1 := ⟨bound - 1, by omega⟩
    refine ⟨bound, by omega, ?_⟩
    rw [List.append_assoc]
    refine hread.trans ?_
    simp only [readSuffixes, kind, expect_cons hkey, bind, Except.bind]
  | @eval _ mark name ts target _ kind hname hvalue ih =>
    simp only [List.length_append, List.length_cons] at hlength
    obtain ⟨bound, hbound, hread⟩ := ih (by omega) (mark :: name :: rest) rfl
    simp only [List.length_cons] at hbound
    obtain ⟨bound, rfl⟩ : ∃ k, bound = k + 1 := ⟨bound - 1, by omega⟩
    refine ⟨bound, by omega, ?_⟩
    rw [List.append_assoc]
    refine hread.trans ?_
    simp only [readSuffixes, kind, expect_cons hname, hvalue, bind, Except.bind, if_true]
  | not hn' => omega
  | binary hn' => exact absurd (hn ▸ hn') (Nat.not_le_of_lt (Nat.lt_succ_of_lt (BinaryOp.level_lt _)))

theorem complete_readUnary (hinner : CompleteAt source 0 m inner) :
    CompleteAt source 4 (m + 1) (readUnary source inner) := by
  intro front
  induction front with
  | nil =>
    intro e rest h
    rcases h.not_or with h | ⟨_, _, _, hnil, -⟩
    · obtain ⟨_, _, hnil, -⟩ := h.begins
      cases hnil
    · cases hnil
  | cons t ts ih =>
    intro e rest h hlength hrest
    rw [List.cons_append, readUnary]
    rcases h.not_or with h | ⟨mark, back, operand, hcons, rfl, kind, hoperand⟩
    · obtain ⟨bound, -, hread⟩ := readPostfix_leads hinner h hlength rest
      obtain ⟨t', ts', hcons, hstarts⟩ := h.begins
      obtain ⟨rfl, rfl⟩ := List.cons.inj hcons
      rw [if_neg (hstarts.1.2 rfl), ← List.cons_append, hread, readSuffixes_stops hrest.suffix]
    · obtain ⟨rfl, rfl⟩ := List.cons.inj hcons
      simp only [if_pos kind, ih hoperand (Nat.le_of_succ_le hlength) hrest, bind,
        Except.bind, pure, Except.pure]

/-- An expression leads the reader of a level to the operators after it, if the reader of the next
level reads its operands. -/
theorem readLevels_leads (hn : n < 4) {ops : List BinaryOp}
    (hlevels : levels.drop n = ops :: levels.drop (n + 1)) (hops : ∀ op, op ∈ ops ↔ op.level = n)
    (hoperand : CompleteAt source (n + 1) m (readLevels source inner (levels.drop (n + 1))))
    (h : Spelled source n front e) (hlength : front.length ≤ m) (hrest : Stops (n + 1) rest) :
    ∃ bound, rest.length ≤ bound ∧ readLevels source inner (levels.drop n) (front ++ rest) =
      readChain source ops (readLevels source inner (levels.drop (n + 1))) bound e rest := by
  have hnext : ∀ {front : List Token} {e : Expr}, Spelled source (n + 1) front e → front.length ≤ m →
      ∃ bound, rest.length ≤ bound ∧ readLevels source inner (levels.drop n) (front ++ rest) =
        readChain source ops (readLevels source inner (levels.drop (n + 1))) bound e rest :=
    fun h hlength => ⟨rest.length, Nat.le_refl _,
      by simp only [hlevels, readLevels, hoperand h hlength hrest, bind, Except.bind]⟩
  induction e generalizing front rest with
  | binary loc op left right ih _ =>
    rcases h.binary_or hn with h | ⟨_, mark, front, back, _, _, rfl, hsame, rfl, kind, hleft, hright⟩
    · exact hnext h hlength
    · cases hsame
      simp only [List.length_append, List.length_cons] at hlength
      have hstops : Stops (op.level + 1) (mark :: (back ++ rest)) := stops_operator kind
      obtain ⟨bound, hbound, hread⟩ := ih hleft (by omega) hstops fun h hlength =>
        ⟨_, Nat.le_refl _,
          by simp only [hlevels, readLevels, hoperand h hlength (stops_operator kind), bind, Except.bind]⟩
      simp only [List.length_append, List.length_cons] at hbound
      obtain ⟨bound, rfl⟩ : ∃ k, bound = k + 1 := ⟨bound - 1, by omega⟩
      refine ⟨bound, by omega, ?_⟩
      rw [List.append_assoc, List.cons_append, hread]
      simp only [readChain, kind, operator_token, if_pos ((hops _).2 rfl),
        hoperand hright (by omega) hrest, bind, Except.bind]
  | _ =>
    rcases h.binary_or hn with h | ⟨_, _, _, _, _, _, _, hsame, -⟩
    · exact hnext h hlength
    · cases hsame

theorem complete_readLevels (hinner : CompleteAt source 0 m inner) {k : Nat} (hn : n + k = 4) :
    CompleteAt source n (m + 1) (readLevels source inner (levels.drop n)) := by
  induction k generalizing n with
  | zero =>
    obtain rfl : n = 4 := hn
    exact complete_readUnary hinner
  | succ k ih =>
    intro front e rest h hlength hrest
    obtain ⟨ops, hlevels, hops⟩ := levels_drop (n := n) (by omega)
    obtain ⟨bound, -, hread⟩ := readLevels_leads (by omega) hlevels hops (ih (by omega)) h hlength
      (hrest.mono (Nat.le_succ n))
    rw [hread, readChain_stops hops hrest]

theorem complete_readWithin (bound : Nat) : CompleteAt source 0 bound (readWithin source bound) := by
  induction bound with
  | zero =>
    intro front e rest h hlength
    obtain rfl := List.length_eq_zero_iff.1 (Nat.le_zero.1 hlength)
    obtain ⟨_, _, hnil, -⟩ := h.begins
    cases hnil
  | succ bound ih => exact complete_readLevels (n := 0) (k := 4) ih rfl

/-- An expression is read from the tokens that spell it, whatever follows that does not go on with it. -/
theorem Spelled.read (h : Spelled source 0 front e) (hrest : Stops 0 rest) :
    read source (front ++ rest) = .ok (e, rest) :=
  complete_readWithin _ h (by rw [List.length_append]; exact Nat.le_add_right _ _) hrest

end

end Expr

end Stencil
