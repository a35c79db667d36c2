import Stencil.Proofs.Reading.Readers

/-! # The cursor

The readers at work on the tokens of one text: a cursor stands at a token and moves on, but never past the
last one. The loops go on for as long as the tokens have it. To take the token at the cursor where there is
none is a breach, and so is to make an element that has no number any more. How deeply calls may be nested
is counted only so that all this can be written down: wherever the cursor stands, it comes to what the
readers come to with the tokens from there, if calls may be nested deeply enough. -/

namespace Stencil

namespace Cursor

/-- What keeps a parser from giving something. -/
inductive Stop
  | error (e : ParseError)
  /-- A token is taken where there is none, or an element is made that has no number. -/
  | breach (b : Breach)

/-- The token that the cursor stands at, and how many elements have been made. -/
structure State where
  cursor : Nat := 0
  made : Nat := 0

/-- Gives something and moves the cursor, or stops; `none` if calls would be nested too deeply. -/
abbrev Parser (α : Type) := StateT State (ExceptT Stop Option) α

def tooDeep {α : Type} : Parser α := fun _ => none

section
variable (tokens : List Token) (source : Option Source)

/-- The tokens from the cursor on. -/
def ahead : Parser (List Token) := return tokens.drop (← get).cursor

/-- The token at the cursor, or the last one. -/
def current : Parser Token := do
  match tokens[min (← get).cursor (tokens.length - 1)]? with
  | some t => return t
  | none => throw (.breach .place)

def fail {α : Type} (t : Token) (cause : ParseError.Cause) : Parser α := throw (.error ⟨cause, t.first⟩)

def advance : Parser Unit := modify fun s =>
    if s.cursor + 1 < tokens.length then { s with cursor := s.cursor + 1 } else s

/-- Makes an element, which gets the next number of 32 bits. -/
def make (t : Tree) : Parser Tree := do
  let s ← get
  if s.made < UInt32.size then
    set { s with made := s.made + 1 }
    return t
  else throw (.breach .overflow)

def consume (kind : TokenKind) : Parser Token := do
  let t ← current tokens
  if t.kind = kind then
    advance tokens
    return t
  else fail t (.expectedKind kind t)

def name : Parser String := do
  let t ← current tokens
  if t.kind = .identifier then
    advance tokens
    return t.value
  else if t.kind.isReserved then fail t (.reservedWord t.value)
  else fail t (.expectedIdentifier t)

/-- Takes a token that is an expression by itself. -/
def literal (e : Expr) : Parser Expr := do
  advance tokens
  return e

/-! ### Expressions -/

mutual

def levels : (depth : Nat) → List (List BinaryOp) → Parser Expr
  | 0, _ => tooDeep
  | depth + 1, [] => unary depth
  | depth + 1, ops :: tighter => do
    let left ← levels depth tighter
    chain depth ops tighter left

def chain : (depth : Nat) → List BinaryOp → List (List BinaryOp) → Expr → Parser Expr
  | 0, _, _, _ => tooDeep
  | depth + 1, ops, tighter, left => do
    match Expr.operator? (nextKind (← ahead tokens)) with
    | some op =>
      if op ∈ ops then
        advance tokens
        let right ← levels depth tighter
        chain depth ops tighter (.binary (Expr.between source left.location right.location) op left right)
      else return left
    | none => return left

def unary : (depth : Nat) → Parser Expr
  | 0 => tooDeep
  | depth + 1 => do
    if nextKind (← ahead tokens) = .bang then
      let bang ← consume tokens .bang
      let e ← unary depth
      return .not ⟨source, bang.first, e.location.last⟩ e
    else
      let e ← primary depth
      suffixes depth e

def suffixes : (depth : Nat) → Expr → Parser Expr
  | 0, _ => tooDeep
  | depth + 1, e => do
    match nextKind (← ahead tokens) with
    | .dot =>
      advance tokens
      let key ← consume tokens .identifier
      suffixes depth (.dot ⟨source, e.location.first, key.last⟩ e key.value)
    | .question =>
      advance tokens
      let name ← consume tokens .identifier
      if name.value = "eval" then suffixes depth (.eval ⟨source, e.location.first, name.last⟩ e)
      else fail name (.unknownBuiltin name.value)
    | _ => return e

def primary : (depth : Nat) → Parser Expr
  | 0 => tooDeep
  | depth + 1 => do
    let t ← current tokens
    let loc := Expr.locate source t
    match t.kind with
    | .string => literal tokens (.string loc t.value)
    | .integer =>
      let n := Expr.literalValue t.value
      if n ≤ Expr.greatestLiteral then literal tokens (.integer loc n)
      else fail t (.integerOutOfRange t.value)
    | .keywordTrue => literal tokens (.boolean loc true)
    | .keywordFalse => literal tokens (.boolean loc false)
    | .keywordNull => literal tokens (.null loc)
    | .identifier => literal tokens (.var loc t.value)
    | .leftParen =>
      advance tokens
      let e ← levels depth Expr.levels
      let close ← consume tokens .rightParen
      return .group ⟨source, t.first, close.last⟩ e
    | .keywordAs => fail t (.reservedWord t.value)
    | _ => fail t (.expectedExpression t)

end

/-- An expression. -/
def expression (depth : Nat) : Parser Expr := levels tokens source depth Expr.levels

/-! ### Elements -/

def condition (depth : Nat) : Branch → Parser (Option Expr)
  | .otherwise => return none
  | _ => do
    let e ← expression tokens source depth
    return some e

def parameters : (depth : Nat) → (before : List String) → Parser (List String)
  | 0, _ => tooDeep
  | depth + 1, before => do
    if nextKind (← ahead tokens) = .closing then return before
    else
      let t ← current tokens
      let parameter ← name tokens
      if parameter ∈ before then fail t (.duplicateParameter parameter)
      else parameters depth (before ++ [parameter])

def arguments : (depth : Nat) → Parser (List Expr)
  | 0 => tooDeep
  | depth + 1 => do
    let e ← expression tokens source depth
    if nextKind (← ahead tokens) = .comma then
      advance tokens
      let es ← arguments depth
      return e :: es
    else return [e]

/-- Takes the tag that closes a block. -/
def closing (block : Block) (opened : Token) : Parser Position := do
  if nextKind (← ahead tokens) = .eof then fail opened (.unterminated (.block block))
  else
    let _ ← consume tokens .opening
    let _ ← consume tokens .slash
    let name ← current tokens
    if name.kind = .identifier ∧ name.value = block.keyword then
      advance tokens
      let close ← consume tokens .closing
      return close.last
    else fail name (.mismatchedClose block.keyword name.value)

/-- Takes the end of a tag that has no body. -/
def tag (kind : Kind) (opened : Token) : Parser Tree := do
  let close ← consume tokens .closing
  make (Tree.plain kind source opened.first close.last [])

def inclusion (depth : Nat) (opened : Token) : Parser Tree := do
  let path ← expression tokens source depth
  tag tokens source (.inclusion path) opened

def call (depth : Nat) (opened : Token) : Parser Tree := do
  let macroName ← name tokens
  if nextKind (← ahead tokens) = .closing then tag tokens source (.call macroName []) opened
  else
    let es ← arguments tokens source depth
    tag tokens source (.call macroName es) opened

def interpolation (depth : Nat) (opened : Token) : Parser Tree := do
  let value ← expression tokens source depth
  tag tokens source (.interpolation value) opened

mutual

/-- Elements up to the end of a body. -/
def body : (depth : Nat) → Parser (List Tree)
  | 0 => tooDeep
  | depth + 1 => do
    let ts ← ahead tokens
    if nextKind ts = .eof || Tree.endsBody ts then return []
    else
      let element ← node depth
      let elements ← body depth
      return element :: elements

/-- An element. -/
def node : (depth : Nat) → Parser Tree
  | 0 => tooDeep
  | depth + 1 => do
    let t ← current tokens
    match t.kind with
    | .text =>
      advance tokens
      make (Tree.plain (.text t.value false) source t.first t.last [])
    | .comment =>
      advance tokens
      make (Tree.plain (.comment t.value) source t.first t.last [])
    | .opening =>
      advance tokens
      match nextKind (← ahead tokens) with
      | .hash => advance tokens; directive depth t
      | .atSign => advance tokens; call tokens source depth t
      | _ => interpolation tokens source depth t
    | _ => fail t (.strayToken t)

def directive : (depth : Nat) → (opened : Token) → Parser Tree
  | 0, _ => tooDeep
  | depth + 1, opened => do
    let name ← current tokens
    if name.kind ≠ .identifier then fail name (.expectedDirective name)
    else if name.value = "if" then
      advance tokens
      let (elements, last) ← branches depth .main opened opened
      make (Tree.plain .ifBlock source opened.first last elements)
    else if name.value = "list" then
      advance tokens
      let items ← expression tokens source depth
      let _ ← consume tokens .keywordAs
      let item ← Cursor.name tokens
      block depth .list (.list items item) opened
    else if name.value = "assign" then
      advance tokens
      let target ← Cursor.name tokens
      if nextKind (← ahead tokens) = .equal then
        advance tokens
        let value ← expression tokens source depth
        tag tokens source (.assignment target value) opened
      else block depth .assign (.capture target) opened
    else if name.value = "macro" then
      advance tokens
      let macroName ← Cursor.name tokens
      let ps ← parameters tokens depth []
      block depth .definition (.definition macroName ps) opened
    else if name.value = "include" then
      advance tokens
      inclusion tokens source depth opened
    else if name.value = "elseif" ∨ name.value = "else" then fail name (.branchOutsideIf name)
    else fail name (.unknownDirective name.value)

/-- The rest of a directive with one body, from the end of its tag on. -/
def block : (depth : Nat) → (which : Block) → (kind : Kind) → (opened : Token) → Parser Tree
  | 0, _, _, _ => tooDeep
  | depth + 1, which, kind, opened => do
    let _ ← consume tokens .closing
    let children ← body depth
    let last ← closing tokens which opened
    make (Tree.plain kind source opened.first last children)

/-- The branches of an if block from a condition on, and the end of the block. -/
def branches : (depth : Nat) → (branch : Branch) → (header opened : Token) → Parser (List Tree × Position)
  | 0, _, _, _ => tooDeep
  | depth + 1, branch, header, opened => do
    let condition ← condition tokens source depth branch
    let close ← consume tokens .closing
    let children ← body depth
    let location := Location.enclosing source header.first close.last (children.getLast?.map (·.location))
    let element ← make ⟨.conditional branch condition, location, true, children⟩
    match Tree.branchAhead? (← ahead tokens) with
    | some next =>
      let header ← current tokens
      if branch = .otherwise then fail header (.branchAfterElse header)
      else
        let _ ← consume tokens .opening
        let _ ← consume tokens .hash
        let _ ← consume tokens .identifier
        let (elements, last) ← branches depth next header opened
        return (element :: elements, last)
    | none =>
      let last ← closing tokens .conditional opened
      return ([element], last)

end

/-- What is there when the end of the input follows. -/
def wholly {α : Type} (m : Parser α) (cause : Token → ParseError.Cause) : Parser α := do
  let x ← m
  if nextKind (← ahead tokens) ≠ .eof then
    let t ← current tokens
    fail t (cause t)
  else return x

/-- A template. -/
def root (depth : Nat) : Parser Tree := do
  let children ← wholly tokens (body tokens source depth) .strayClosing
  make ⟨.sequence, Tree.spanOf source tokens, false, children⟩

/-- An expression that stands alone. -/
def fragment (depth : Nat) : Parser Expr := wholly tokens (expression tokens source depth) .expectedEnd

end

/-! ### What a parser comes to -/

/-- The cursor stands at the first of some tokens. -/
structure At (tokens : List Token) (k : Nat) (ts : List Token) : Prop where
  inside : k < tokens.length
  rest : tokens.drop k = ts

/-- There are numbers left for an element for each token ahead, and for some more. -/
def Room (tokens : List Token) (spare : Nat) (s : State) : Prop :=
  s.made + spare + tokens.length ≤ UInt32.size + s.cursor

/-- The cursor has moved on by so many tokens at least. Since then no more elements than tokens have been
taken are made, but for some to spare. -/
structure Moves (spare least : Nat) (s s' : State) : Prop where
  cursor : s.cursor + least ≤ s'.cursor
  made : s'.made + s.cursor ≤ s.made + spare + s'.cursor

/-- What a parser comes to from a place on if calls may be nested deeply enough. -/
def Ends {α : Type} (m : Nat → Parser α) (s : State) (r : Except Stop (α × State)) : Prop :=
  ∃ enough, ∀ depth ≥ enough, m depth s = some r

/-- At the first of some tokens, a parser comes to what a reader comes to with them, while there is room: to
something further on, depending on what it is, or to an error where a token begins. -/
def Reads {α : Type} (tokens : List Token) (spare : Nat) (least : α → Nat) (m : Nat → Parser α)
    (ts : List Token) (result : Except ParseError (α × List Token)) : Prop :=
  ∀ s, At tokens s.cursor ts → Room tokens spare s → match result with
    | .ok (x, rest) => ∃ s', Ends m s (.ok (x, s')) ∧ At tokens s'.cursor rest ∧ Moves spare (least x) s s'
    | .error e => Ends m s (.error (.error e)) ∧ ∃ t ∈ tokens, e.position = t.first

/-- To something further on by so many tokens at least, whatever it is. -/
abbrev Takes {α : Type} (tokens : List Token) (least : Nat) (m : Nat → Parser α) (ts : List Token)
    (result : Except ParseError (α × List Token)) : Prop := Reads tokens 0 (fun _ => least) m ts result

section
variable {α β : Type} {tokens ts rest : List Token} {spare : Nat} {t : Token} {k : Nat} {s s' s'' : State}

theorem At.mem (h : At tokens k (t :: rest)) : t ∈ tokens := by
  have hin : t ∈ tokens.drop k := by simp only [h.rest, List.mem_cons_self]
  exact List.mem_of_mem_drop hin

theorem At.length (h : At tokens k ts) : ts.length = tokens.length - k := by rw [← h.rest, List.length_drop]

theorem At.get (h : At tokens k (t :: rest)) : tokens[k]? = some t := by
  have hhead := congrArg List.head? h.rest
  rwa [List.head?_drop] at hhead

theorem At.next (hend : ∀ t ∈ tokens.getLast?, t.kind = .eof) (h : At tokens k (t :: rest))
    (hkind : t.kind ≠ .eof) :
    At tokens (k + 1) rest := by
  have hrest : tokens.drop (k + 1) = rest := by rw [← List.drop_drop, h.rest]; rfl
  refine ⟨?_, hrest⟩
  by_contra hlast
  -- The cursor is at the last token, which is the end of the input.
  have hk : k = tokens.length - 1 := by have := h.inside; omega
  refine hkind (hend t ?_)
  rw [List.getLast?_eq_getElem?, ← hk, h.get, Option.mem_def]

/-! ### Room for elements -/

/-- What makes no more elements than it takes tokens leaves as much room as there was. -/
theorem Moves.room {least : Nat} (h : Moves 0 least s s') (hs : Room tokens spare s) :
    Room tokens spare s' := by
  have := h.made
  unfold Room at *
  omega

theorem Moves.trans {least least' : Nat} (h : Moves 0 least s s') (h' : Moves spare least' s' s'') :
    Moves spare (least + least') s s'' := by
  have := h.cursor
  have := h.made
  have := h'.cursor
  have := h'.made
  constructor <;> omega

theorem Moves.weaken {least least' spare' : Nat} (h : Moves spare least s s') (hspare : spare ≤ spare')
    (hleast : least' ≤ least) :
    Moves spare' least' s s' := by
  have := h.cursor
  have := h.made
  constructor <;> omega

theorem Room.weaken {spare' : Nat} (h : Room tokens spare' s) (hspare : spare ≤ spare') :
    Room tokens spare s := by
  unfold Room at *
  omega

section
variable {m : Nat → Parser α} {f : Nat → α → Parser β}

theorem Ends.always {r : Except Stop (α × State)} (h : ∀ depth, m depth s = some r) : Ends m s r :=
  ⟨0, fun depth _ => h depth⟩

/-- A call is one more that is nested. -/
theorem Ends.step {m' : Nat → Parser α} {r : Except Stop (α × State)}
    (hm : ∀ depth, m' (depth + 1) = m depth) (h : Ends m s r) :
    Ends m' s r := by
  obtain ⟨enough, h⟩ := h
  refine ⟨enough + 1, fun depth hdepth => ?_⟩
  obtain ⟨depth, rfl⟩ := Nat.exists_eq_add_of_le' hdepth
  rw [← Nat.add_assoc, hm]
  exact h _ (Nat.le_add_left enough depth)

theorem Ends.bind {x : α} {r : Except Stop (β × State)} (h : Ends m s (.ok (x, s')))
    (hf : Ends (f · x) s' r) :
    Ends (fun depth => m depth >>= f depth) s r := by
  obtain ⟨enough, h⟩ := h
  obtain ⟨enough', hf⟩ := hf
  refine ⟨max enough enough', fun depth hdepth => ?_⟩
  obtain ⟨hle, hle'⟩ := Nat.max_le.1 hdepth
  change (m depth s >>= _) = _
  rw [h depth hle]
  exact hf depth hle'

theorem Ends.bind_error {stop : Stop} (h : Ends m s (.error stop)) :
    Ends (fun depth => m depth >>= f depth) s (.error stop) := by
  obtain ⟨enough, h⟩ := h
  refine ⟨enough, fun depth hdepth => ?_⟩
  change (m depth s >>= _) = _
  rw [h depth hdepth]
  rfl

end

section
variable {least : α → Nat} {result : Except ParseError (α × List Token)}

theorem Reads.nil {m : Nat → Parser α} : Reads tokens spare least m [] result := by
  intro s hs
  have hnone := hs.length
  have := hs.inside
  simp only [List.length_nil] at hnone
  omega

/-- A cursor stands nowhere where there are no tokens. -/
theorem Reads.of_length {m : Nat → Parser α} (h : ts.length ≤ 0) : Reads tokens spare least m ts result :=
  List.length_eq_zero_iff.1 (Nat.le_zero.1 h) ▸ .nil

theorem Reads.step {m m' : Nat → Parser α} (hm : ∀ depth, m' (depth + 1) = m depth)
    (h : Reads tokens spare least m ts result) :
    Reads tokens spare least m' ts result := by
  intro s hs hroom
  have hread := h s hs hroom
  cases result with
  | error e => exact ⟨hread.1.step hm, hread.2⟩
  | ok pair =>
    obtain ⟨s', hends, hs', hmoves⟩ := hread
    exact ⟨s', hends.step hm, hs', hmoves⟩

theorem Reads.pure (x : α) (hx : least x = 0) : Reads tokens spare least (fun _ => pure x) ts (.ok (x, ts)) :=
  fun s hs _ => ⟨s, .always fun _ => rfl, hs, by omega, by omega⟩

theorem Reads.fail (ht : t ∈ tokens) (cause : ParseError.Cause) :
    Reads tokens spare least (fun _ => fail (α := α) t cause) ts (t.fail cause) :=
      fun _ _ _ => ⟨.always fun _ => rfl, t, ht, rfl⟩

/-- The token that the cursor stands at is one of the tokens. -/
theorem Reads.of_mem {m : Nat → Parser α} (h : t ∈ tokens → Reads tokens spare least m (t :: rest) result) :
    Reads tokens spare least m (t :: rest) result := fun s hs => h hs.mem s hs

/-- What makes no more elements than it takes tokens does so where there is more room, too. -/
theorem Reads.any {m : Nat → Parser α} {least' : α → Nat} (h : Reads tokens 0 least' m ts result)
    (hleast : ∀ x, least x ≤ least' x) :
    Reads tokens spare least m ts result := by
  intro s hs hroom
  have hm := h s hs (hroom.weaken (Nat.zero_le spare))
  cases result with
  | error e => exact hm
  | ok pair =>
    obtain ⟨s', hms, hs', hmoves⟩ := hm
    exact ⟨s', hms, hs', hmoves.weaken (Nat.zero_le spare) (hleast pair.1)⟩

theorem Reads.bind {m : Nat → Parser β} {f : Nat → β → Parser α} {least' : β → Nat}
    {read : Except ParseError (β × List Token)}
    {g : β × List Token → Except ParseError (α × List Token)} (h : Reads tokens 0 least' m ts read)
    (hf : ∀ x rest, rest.length + least' x ≤ ts.length →
      Reads tokens spare (fun y => least y - least' x) (f · x) rest (g (x, rest))) :
    Reads tokens spare least (fun depth => m depth >>= f depth) ts (read >>= g) := by
  intro s hs hroom
  have hm := h s hs (hroom.weaken (Nat.zero_le spare))
  cases read with
  | error e => exact ⟨hm.1.bind_error, hm.2⟩
  | ok pair =>
    obtain ⟨x, rest⟩ := pair
    obtain ⟨s', hms, hs', hmoves⟩ := hm
    have hlength : rest.length + least' x ≤ ts.length := by
      rw [hs'.length, hs.length]
      have := hs'.inside
      have := hmoves.cursor
      omega
    change match g (x, rest) with
      | .ok (y, rest) => ∃ s', Ends (fun depth => m depth >>= f depth) s (.ok (y, s')) ∧
          At tokens s'.cursor rest ∧
          Moves spare (least y) s s'
      | .error e => Ends (fun depth => m depth >>= f depth) s (.error (.error e)) ∧
        ∃ t ∈ tokens, e.position = t.first
    have hfx := hf x rest hlength s' hs' (hmoves.room hroom)
    cases hg : g (x, rest) with
    | error e =>
      rw [hg] at hfx
      exact ⟨hms.bind hfx.1, hfx.2⟩
    | ok pair =>
      rw [hg] at hfx
      obtain ⟨s'', hfs, hs'', hmoves'⟩ := hfx
      exact ⟨s'', hms.bind hfs, hs'',
        (hmoves.trans hmoves').weaken (Nat.le_refl spare) (by dsimp only; omega)⟩

/-- A first step that moves the cursor on, or leaves it where it is. -/
theorem Reads.after {m : Parser β} {f : Nat → β → Parser α} {x : β} (moves : Nat)
    (hm : ∀ s, At tokens s.cursor ts →
      m s = some (.ok (x, { s with cursor := s.cursor + moves })) ∧ At tokens (s.cursor + moves) rest)
    (h : Reads tokens (spare + moves) (fun y => least y - moves) (f · x) rest result) :
    Reads tokens spare least (fun depth => m >>= f depth) ts result := by
  intro s hs hroom
  obtain ⟨hms, hs'⟩ := hm s hs
  have hrest := h { s with cursor := s.cursor + moves } hs' (by unfold Room at *; dsimp only; omega)
  have hends : Ends (fun _ => m) s (.ok (x, { s with cursor := s.cursor + moves })) := .always fun _ => hms
  cases result with
  | error e => exact ⟨hends.bind hrest.1, hrest.2⟩
  | ok pair =>
    obtain ⟨s', hfs, hs', hcursor, hmade⟩ := hrest
    dsimp only at hcursor hmade
    exact ⟨s', hends.bind hfs, hs', by omega, by omega⟩

theorem Reads.ahead_bind {f : Nat → List Token → Parser α} (h : Reads tokens spare least (f · ts) ts result) :
    Reads tokens spare least (fun depth => ahead tokens >>= f depth) ts result :=
  .after 0 (fun s hs => ⟨congrArg (fun ts => some (Except.ok (ts, s))) hs.rest, hs⟩) h

theorem current_ok (h : At tokens s.cursor (t :: rest)) : current tokens s = some (.ok (t, s)) := by
  have hget : tokens[min s.cursor (tokens.length - 1)]? = some t := by
    rw [Nat.min_eq_left (by have := h.inside; omega), h.get]
  change (match tokens[min s.cursor (tokens.length - 1)]? with
    | some t => return t
    | none => throw (.breach .place) : Parser Token) s = _
  rw [hget]
  rfl

theorem Reads.current_bind {f : Nat → Token → Parser α}
    (h : Reads tokens spare least (f · t) (t :: rest) result) :
    Reads tokens spare least (fun depth => current tokens >>= f depth) (t :: rest) result :=
  .after 0 (fun _ hs => ⟨current_ok hs, hs⟩) h

/-- The tokens end with the end of the input. -/
abbrev Ended (tokens : List Token) : Prop := ∀ t ∈ tokens.getLast?, t.kind = .eof

theorem Reads.advance_bind (hend : Ended tokens) (hkind : t.kind ≠ .eof) {f : Nat → Unit → Parser α}
    (h : Reads tokens (spare + 1) (fun y => least y - 1) (f · ()) rest result) :
    Reads tokens spare least (fun depth => advance tokens >>= f depth) (t :: rest) result := by
  refine .after 1 (fun s hs => ?_) h
  have hnext := hs.next hend hkind
  exact ⟨congrArg (fun s => some (Except.ok ((), s))) (if_pos hnext.inside), hnext⟩

/-- A token that is known to be there is passed. -/
theorem Reads.skip_bind (hend : Ended tokens) {kind : TokenKind} (hkind : kind ≠ .eof) (ht : t.kind = kind)
    {f : Nat → Unit → Parser α} (h : Reads tokens (spare + 1) (fun y => least y - 1) (f · ()) rest result) :
    Reads tokens spare least (fun depth => advance tokens >>= f depth) (t :: rest) result :=
      .advance_bind hend (ht ▸ hkind) h

/-- An element is made where a token has been taken for it. -/
theorem Reads.make_bind (t : Tree) {f : Nat → Tree → Parser α}
    (h : Reads tokens spare least (f · t) ts result) :
    Reads tokens (spare + 1) least (fun depth => make t >>= f depth) ts result := by
  intro s hs hroom
  have hinside := hs.inside
  have hends : Ends (fun _ => make t) s (.ok (t, { s with made := s.made + 1 })) := by
    refine .always fun _ => ?_
    have hnumber : s.made < UInt32.size := by unfold Room at hroom; omega
    change (if s.made < UInt32.size then _ else _ : Parser Tree) s = _
    rw [if_pos hnumber]
    rfl
  have hrest := h { s with made := s.made + 1 } hs (by unfold Room at *; dsimp only; omega)
  cases result with
  | error e => exact ⟨hends.bind hrest.1, hrest.2⟩
  | ok pair =>
    obtain ⟨s', hfs, hs', hcursor, hmade⟩ := hrest
    dsimp only at hcursor hmade
    exact ⟨s', hends.bind hfs, hs', by omega, by omega⟩

theorem Reads.make {least : Tree → Nat} (t : Tree) (ht : least t = 0) :
    Reads tokens (spare + 1) least (fun _ => make t) ts (.ok (t, ts)) := by
  have hmake : Reads tokens (spare + 1) least (fun _ => Cursor.make t >>= Pure.pure) ts (.ok (t, ts)) :=
    .make_bind t (.pure t ht)
  simpa only [bind_pure] using hmake

theorem Reads.ite {c : Prop} [Decidable c] {m m' : Nat → Parser α}
    {result' : Except ParseError (α × List Token)} (h : c → Reads tokens spare least m ts result)
    (h' : ¬ c → Reads tokens spare least m' ts result') :
    Reads tokens spare least (fun depth => if c then m depth else m' depth) ts
      (if c then result else result') := by
  by_cases hc : c
  · simp only [if_pos hc]
    exact h hc
  · simp only [if_neg hc]
    exact h' hc

/-- A token of the right kind is taken. -/
theorem Reads.take_bind (hend : Ended tokens) {kind : TokenKind} (hkind : kind ≠ .eof) (ht : t.kind = kind)
    {f : Nat → Token → Parser α} (h : Reads tokens (spare + 1) (fun y => least y - 1) (f · t) rest result) :
    Reads tokens spare least (fun depth => consume tokens kind >>= f depth) (t :: rest) result := by
  simp only [consume, bind_assoc]
  refine .current_bind ?_
  simp only [if_pos ht, bind_assoc]
  refine .advance_bind hend (ht ▸ hkind) ?_
  simp only [pure_bind]
  exact h

theorem Reads.consume_bind (hend : Ended tokens) (kind : TokenKind) (hkind : kind ≠ .eof)
    {f : Nat → Token → Parser α} {g : Token × List Token → Except ParseError (α × List Token)}
    (hf : ∀ t rest, t ∈ tokens → rest.length < ts.length →
      Reads tokens (spare + 1) (fun y => least y - 1) (f · t) rest (g (t, rest))) :
    Reads tokens spare least (fun depth => consume tokens kind >>= f depth) ts (expect kind ts >>= g) := by
  cases ts with
  | nil => exact .nil
  | cons t rest =>
    refine .of_mem fun ht => ?_
    rw [expect]
    split
    · next h => exact .take_bind hend hkind h (hf t rest ht (Nat.lt_succ_self _))
    · next h =>
      simp only [consume, bind_assoc]
      refine .current_bind ?_
      simp only [if_neg h]
      exact .fail ht _

@[simp] theorem nextKind_cons (t : Token) (rest : List Token) : nextKind (t :: rest) = t.kind := rfl

theorem Reads.name_bind (hend : Ended tokens) {f : Nat → String → Parser α}
    {g : String × List Token → Except ParseError (α × List Token)}
    (hf : ∀ x rest, rest = ts.tail → rest.length < ts.length →
      Reads tokens (spare + 1) (fun y => least y - 1) (f · x) rest (g (x, rest))) :
    Reads tokens spare least (fun depth => name tokens >>= f depth) ts (expectName ts >>= g) := by
  cases ts with
  | nil => exact .nil
  | cons t rest =>
    refine .of_mem fun ht => ?_
    simp only [expectName, name, bind_assoc]
    refine .current_bind ?_
    by_cases h : t.kind = .identifier
    · simp only [if_pos h, bind_assoc]
      refine .skip_bind hend (by decide) h ?_
      exact hf t.value rest rfl (Nat.lt_succ_self _)
    · simp only [if_neg h]
      split <;> exact .fail ht _

end

/-! ### Expressions -/

section
variable {source : Option Source} {bound : Nat} {inner : Reader Expr}

/-- The reader of a whole expression, at work on so many tokens at most. -/
abbrev ReadsInner (tokens : List Token) (source : Option Source) (bound : Nat) (inner : Reader Expr) : Prop :=
  ∀ ts : List Token, ts.length ≤ bound → Takes tokens 1 (expression tokens source) ts (inner ts)

theorem reads_primary (hend : Ended tokens) (hinner : ReadsInner tokens source bound inner)
    (hts : ts.length ≤ bound + 1) :
    Takes tokens 1 (primary tokens source) ts (Expr.readPrimary source inner ts) := by
  cases ts with
  | nil => exact .nil
  | cons t rest =>
    rw [Expr.readPrimary]
    refine .step (fun depth => by rw [primary]) (.current_bind ?_)
    cases hkind : t.kind
    case leftParen =>
      refine .skip_bind hend (by decide) hkind ?_
      refine (hinner rest (Nat.le_of_succ_le_succ hts)).bind fun e rest _ => ?_
      refine Reads.consume_bind hend .rightParen (by decide) fun close rest _ _ => ?_
      exact .pure _ rfl
    case integer =>
      refine .ite (fun _ => ?_) fun _ => .of_mem fun ht => .fail ht _
      exact .skip_bind hend (by decide) hkind (.pure _ rfl)
    case string | keywordTrue | keywordFalse | keywordNull | identifier =>
      exact .skip_bind hend (by decide) hkind (.pure _ rfl)
    all_goals exact .of_mem fun ht => .fail ht _

theorem reads_suffixes (hend : Ended tokens) (e : Expr) (hts : ts.length ≤ bound) :
    Takes tokens 0 (suffixes tokens source · e) ts (Expr.readSuffixes source bound e ts) := by
  induction bound generalizing ts e with
  | zero => exact .of_length hts
  | succ bound ih =>
    cases ts with
    | nil => exact .nil
    | cons t rest =>
      rw [Expr.readSuffixes]
      refine .step (fun depth => by rw [suffixes]) (.ahead_bind ?_)
      simp only [nextKind_cons]
      simp only [List.length_cons] at hts
      cases hkind : t.kind
      case dot =>
        refine Reads.skip_bind hend (by decide) hkind ?_
        refine Reads.consume_bind hend .identifier (by decide) fun key left _ hleft => ?_
        exact (ih _ (by omega)).any fun _ => Nat.le_refl 0
      case question =>
        refine Reads.skip_bind hend (by decide) hkind ?_
        refine Reads.consume_bind hend .identifier (by decide) fun name left hname hleft => ?_
        exact .ite (fun _ => (ih _ (by omega)).any fun _ => Nat.le_refl 0) fun _ => .fail hname _
      all_goals exact .pure e rfl

theorem reads_unary (hend : Ended tokens) (hinner : ReadsInner tokens source bound inner)
    (hts : ts.length ≤ bound + 1) :
    Takes tokens 1 (unary tokens source) ts (Expr.readUnary source inner ts) := by
  induction ts with
  | nil => exact .nil
  | cons t rest ih =>
    rw [Expr.readUnary]
    refine .step (fun depth => by rw [unary]) (.ahead_bind (.ite (fun hbang => ?_) fun _ => ?_))
    · refine .take_bind hend (by decide) hbang ?_
      refine (ih (Nat.le_of_succ_le hts)).bind fun e rest _ => ?_
      exact .pure _ rfl
    · refine (reads_primary hend hinner hts).bind fun e rest _ => ?_
      exact reads_suffixes hend e (Nat.le_refl _)

theorem reads_chain (hend : Ended tokens) {ops : List BinaryOp} {tighter : List (List BinaryOp)}
    {operand : Reader Expr}
    {most : Nat} (hoperand : ∀ ts : List Token, ts.length ≤ most →
      Takes tokens 1 (levels tokens source · tighter) ts (operand ts))
    (left : Expr) (hts : ts.length ≤ bound) (hmost : ts.length ≤ most) :
    Takes tokens 0 (chain tokens source · ops tighter left) ts
      (Expr.readChain source ops operand bound left ts) := by
  induction bound generalizing ts left with
  | zero => exact .of_length hts
  | succ bound ih =>
    cases ts with
    | nil => exact .nil
    | cons t rest =>
      rw [Expr.readChain]
      refine .step (fun depth => by rw [chain]) (.ahead_bind ?_)
      simp only [nextKind_cons]
      simp only [List.length_cons] at hts hmost
      cases hop : Expr.operator? t.kind with
      | none => exact .pure left rfl
      | some op =>
        have hkind : t.kind ≠ .eof := by
          intro heof
          rw [heof] at hop
          cases hop
        refine .ite (fun _ => .advance_bind hend hkind ?_) fun _ => .pure left rfl
        refine (hoperand rest (by omega)).bind fun right left _ => ?_
        exact (ih _ (by omega) (by omega)).any fun _ => Nat.le_refl 0

theorem reads_levels (hend : Ended tokens) (hinner : ReadsInner tokens source bound inner)
    (ops : List (List BinaryOp)) (hts : ts.length ≤ bound + 1) :
    Takes tokens 1 (levels tokens source · ops) ts (Expr.readLevels source inner ops ts) := by
  induction ops generalizing ts with
  | nil => exact .step (fun depth => by rw [levels]) (reads_unary hend hinner hts)
  | cons ops tighter ih =>
    rw [Expr.readLevels]
    refine .step (fun depth => by rw [levels]) ((ih hts).bind fun left rest hrest => ?_)
    exact reads_chain hend (fun ts hts => ih hts) left (Nat.le_refl _) (by omega)

theorem reads_readWithin (hend : Ended tokens) (bound : Nat) :
    ReadsInner tokens source bound (Expr.readWithin source bound) := by
  induction bound with
  | zero => exact fun ts hts => .of_length hts
  | succ bound ih => exact fun ts hts => reads_levels hend ih Expr.levels hts

/-- An expression is read as far as it goes, with at least one token. -/
theorem reads_expression (hend : Ended tokens) :
    Takes tokens 1 (expression tokens source) ts (Expr.read source ts) :=
  reads_readWithin hend ts.length ts (Nat.le_refl _)

end

/-! ### Elements -/

section
variable {source : Option Source} {bound : Nat} {opened : Token} {reader : Reader (List Tree)}

theorem reads_condition (hend : Ended tokens) (branch : Branch) :
    Takes tokens 0 (condition tokens source · branch) ts (Tree.readCondition source branch ts) := by
  cases branch with
  | otherwise => exact .pure none rfl
  | main | elseIf =>
    refine (reads_expression hend).bind fun e rest _ => ?_
    exact .pure (some e) rfl

theorem reads_parameters (hend : Ended tokens) (before : List String) :
    Takes tokens 0 (parameters tokens · before) ts (Tree.readParameters before ts) := by
  induction ts generalizing before with
  | nil => exact .nil
  | cons t rest ih =>
    refine .of_mem fun ht => ?_
    rw [Tree.readParameters]
    refine .step (fun depth => by rw [parameters])
      (.ahead_bind (.ite (fun _ => .pure before rfl) fun _ => .current_bind ?_))
    refine Reads.name_bind hend fun parameter left hleft _ => ?_
    obtain rfl : left = rest := hleft
    exact .ite (fun _ => .fail ht _) fun _ => (ih _).any fun _ => Nat.le_refl 0

theorem reads_arguments (hend : Ended tokens) (hts : ts.length ≤ bound) :
    Takes tokens 1 (arguments tokens source) ts (Tree.readArguments source bound ts) := by
  induction bound generalizing ts with
  | zero => exact .of_length hts
  | succ bound ih =>
    rw [Tree.readArguments]
    refine .step (fun depth => by rw [arguments])
      ((reads_expression hend).bind fun e rest hrest => .ahead_bind ?_)
    refine .ite (fun h => ?_) fun _ => .pure [e] rfl
    cases rest with
    | nil => exact .nil
    | cons t rest =>
      have hkind : t.kind = .comma := h
      refine Reads.skip_bind hend (by decide) hkind ?_
      simp only [List.length_cons] at hrest
      refine (ih (show rest.length ≤ bound by omega)).bind fun es rest _ => ?_
      exact .pure (e :: es) rfl

theorem reads_closing (hend : Ended tokens) (which : Block) (hopened : opened ∈ tokens) :
    Takes tokens 0 (fun _ => closing tokens which opened) ts (Tree.readClosing which opened ts) := by
  simp only [closing, Tree.readClosing]
  refine .ahead_bind (.ite (fun _ => .fail hopened _) fun _ => ?_)
  refine Reads.consume_bind hend .opening (by decide) fun _ rest _ _ => ?_
  refine Reads.consume_bind hend .slash (by decide) fun _ rest _ _ => ?_
  cases rest with
  | nil => exact .nil
  | cons name rest =>
    refine .current_bind (.ite (fun h => ?_) fun _ => .of_mem fun ht => .fail ht _)
    refine Reads.skip_bind hend (by decide) h.1 ?_
    refine Reads.consume_bind hend .closing (by decide) fun close rest _ _ => ?_
    exact .pure close.last rfl

/-- An element is made of at least as many tokens as it and those below it are elements. -/
abbrev Makes (tokens : List Token) (m : Nat → Parser Tree) (ts : List Token)
    (result : Except ParseError (Tree × List Token)) : Prop :=
  Reads tokens 0 Tree.size m ts result

/-- A tag without a body. -/
theorem reads_tag (hend : Ended tokens) (kind : Kind) :
    Makes tokens (fun _ => tag tokens source kind opened) ts (do
      let (close, rest) ← expect .closing ts
      return (Tree.plain kind source opened.first close.last [], rest)) := by
  refine .consume_bind hend .closing (by decide) fun close rest _ _ => ?_
  exact .make _ rfl

theorem reads_inclusion (hend : Ended tokens) :
    Makes tokens (inclusion tokens source · opened) ts (Tree.readInclusion source opened ts) := by
  refine (reads_expression hend).bind fun path rest _ => ?_
  exact (reads_tag hend (.inclusion path)).any fun _ => by omega

theorem reads_call (hend : Ended tokens) :
    Makes tokens (call tokens source · opened) ts (Tree.readCall source opened ts) := by
  refine .name_bind hend fun macroName rest _ _ => .ahead_bind (.ite (fun _ => ?_) fun _ => ?_)
  · exact (reads_tag hend (.call macroName [])).any fun _ => by omega
  · refine (reads_arguments hend (Nat.le_refl _)).bind fun es rest _ => ?_
    exact (reads_tag hend (.call macroName es)).any fun _ => by omega

theorem reads_interpolation (hend : Ended tokens) :
    Makes tokens (interpolation tokens source · opened) ts (Tree.readInterpolation source opened ts) := by
  refine (reads_expression hend).bind fun value rest _ => ?_
  exact (reads_tag hend (.interpolation value)).any fun _ => by omega

/-- The reader of a body, at work on so many tokens at most. -/
abbrev ReadsBody (tokens : List Token) (source : Option Source) (bound : Nat) (reader : Reader (List Tree)) :
    Prop :=
  ∀ ts : List Token, ts.length ≤ bound → Reads tokens 0 Tree.sizes (body tokens source) ts (reader ts)

/-- A body from the end of the tag before it to the closing tag. -/
theorem reads_block (hend : Ended tokens) (hbody : ReadsBody tokens source bound reader)
    (hopened : opened ∈ tokens) (which : Block) (kind : Kind) (hts : ts.length ≤ bound) :
    Makes tokens (block tokens source · which kind opened) ts (do
      let (_, rest) ← expect .closing ts
      let (children, rest) ← reader rest
      let (last, rest) ← Tree.readClosing which opened rest
      return (Tree.plain kind source opened.first last children, rest)) := by
  refine .step (fun depth => by rw [block]) (.consume_bind hend .closing (by decide) fun _ rest _ hrest => ?_)
  refine (hbody rest (by omega)).bind fun children rest _ => ?_
  refine (reads_closing hend which hopened).bind fun last rest _ => ?_
  exact .make _ (by simp only [Tree.plain, Tree.size]; omega)

theorem exists_of_branchAhead {next : Branch} (h : Tree.branchAhead? ts = some next) :
    ∃ a b c rest, ts = a :: b :: c :: rest ∧ a.kind = .opening ∧ b.kind = .hash ∧ c.kind = .identifier := by
  unfold Tree.branchAhead? at h
  split at h
  · next a b c rest =>
    split at h
    · next hkinds => exact ⟨a, b, c, rest, rfl, hkinds⟩
    · cases h
  · cases h

theorem reads_branches (hend : Ended tokens) (hbody : ReadsBody tokens source bound reader)
    (hopened : opened ∈ tokens) {most : Nat} (branch : Branch) (header : Token) (hts : ts.length ≤ bound)
    (hmost : ts.length ≤ most) :
    Reads tokens 0 (fun read => Tree.sizes read.1) (branches tokens source · branch header opened) ts
      (Tree.readBranches source reader opened most branch header ts) := by
  induction most generalizing ts branch header with
  | zero => exact .of_length hmost
  | succ most ih =>
    rw [Tree.readBranches_succ]
    refine .step (fun depth => by rw [branches])
      ((reads_condition hend branch).bind fun condition rest hrest => ?_)
    refine Reads.consume_bind hend .closing (by decide) fun close rest _ _ => ?_
    refine (hbody rest (by omega)).bind fun children rest _ => ?_
    refine .make_bind _ (.ahead_bind ?_)
    dsimp only
    cases hnext : Tree.branchAhead? rest with
    | none =>
      refine (reads_closing hend .conditional hopened).bind fun last rest _ => ?_
      exact .pure _ (by simp only [Tree.sizes, Tree.size]; omega)
    | some next =>
      obtain ⟨a, b, c, rest, rfl, ha, hb, hc⟩ := exists_of_branchAhead hnext
      refine .current_bind ?_
      dsimp only [List.head?_cons, Option.getD_some, List.drop_succ_cons, List.drop_zero]
      refine .ite (fun _ => .of_mem fun ht => .fail ht _) fun _ => ?_
      refine Reads.take_bind hend (by decide) ha ?_
      refine Reads.take_bind hend (by decide) hb ?_
      refine Reads.take_bind hend (by decide) hc ?_
      simp only [List.length_cons] at *
      refine (ih next a (show rest.length ≤ bound by omega) (by omega)).bind fun read rest _ => ?_
      exact .pure _ (by simp only [Tree.sizes, Tree.size]; omega)

theorem reads_directive (hend : Ended tokens) (hbody : ReadsBody tokens source bound reader)
    (hopened : opened ∈ tokens) (hts : ts.length ≤ bound) :
    Makes tokens (directive tokens source · opened) ts (Tree.readDirective source reader opened ts) := by
  cases ts with
  | nil => exact .nil
  | cons t rest =>
    refine .of_mem fun ht => ?_
    rw [Tree.readDirective]
    refine .step (fun depth => by rw [directive]) (.current_bind (.ite (fun _ => .fail ht _) fun hkind => ?_))
    simp only [List.length_cons] at hts
    have hword : t.kind ≠ .eof := fun heof => hkind (by rw [heof]; exact TokenKind.noConfusion)
    refine .ite (fun _ => .advance_bind hend hword ?_) fun _ =>
        .ite (fun _ => .advance_bind hend hword ?_) fun _ =>
      .ite (fun _ => .advance_bind hend hword ?_) fun _ =>
        .ite (fun _ => .advance_bind hend hword ?_) fun _ =>
      .ite (fun _ => .advance_bind hend hword ((reads_inclusion hend).any fun _ => by omega)) fun _ =>
      .ite (fun _ => .fail ht _) fun _ => .fail ht _
    · have hbranches := reads_branches hend hbody hopened .main opened
        (show rest.length ≤ bound by omega) (Nat.le_refl _)
      refine hbranches.bind fun read rest _ => ?_
      exact .make _ (by simp only [Tree.plain, Tree.size]; omega)
    · refine (reads_expression hend).bind fun items rest _ => ?_
      refine Reads.consume_bind hend .keywordAs (by decide) fun _ rest _ _ => ?_
      refine Reads.name_bind hend fun item rest _ _ => ?_
      exact (reads_block hend hbody hopened .list (.list items item) (by omega)).any fun _ => by omega
    · refine Reads.name_bind hend fun target rest _ _ => .ahead_bind (.ite (fun hequal => ?_) fun _ => ?_)
      · cases rest with
        | nil => exact .nil
        | cons mark rest =>
          have hmark : mark.kind = .equal := hequal
          refine Reads.skip_bind hend (by decide) hmark ?_
          refine (reads_expression hend).bind fun value rest _ => ?_
          exact (reads_tag hend (.assignment target value)).any fun _ => by omega
      · exact (reads_block hend hbody hopened .assign (.capture target) (by omega)).any fun _ => by omega
    · refine Reads.name_bind hend fun macroName rest _ _ => ?_
      refine (reads_parameters hend []).bind fun ps rest _ => ?_
      exact (reads_block hend hbody hopened .definition (.definition macroName ps) (by omega)).any
        fun _ => by omega

theorem reads_node (hend : Ended tokens) (hbody : ReadsBody tokens source bound reader)
    (hts : ts.length ≤ bound + 1) :
    Makes tokens (node tokens source) ts (Tree.readElement source reader ts) := by
  cases ts with
  | nil => exact .nil
  | cons t rest =>
    refine .of_mem fun ht => ?_
    rw [Tree.readElement]
    refine .step (fun depth => by rw [node]) (.current_bind ?_)
    simp only [List.length_cons] at hts
    cases hkind : t.kind
    case text | comment => exact .skip_bind hend (by decide) hkind (.make _ rfl)
    case opening =>
      refine .skip_bind hend (by decide) hkind (.ahead_bind ?_)
      cases rest with
      | nil => exact .nil
      | cons mark rest =>
        simp only [nextKind_cons]
        simp only [List.length_cons] at hts
        cases hmark : mark.kind
        case hash =>
          exact .skip_bind hend (by decide) hmark
            ((reads_directive hend hbody ht (by omega)).any fun _ => by omega)
        case atSign => exact .skip_bind hend (by decide) hmark ((reads_call hend).any fun _ => by omega)
        all_goals exact (reads_interpolation hend).any fun _ => Nat.sub_le _ _
    all_goals exact .fail ht _

theorem reads_readBody (hend : Ended tokens) (bound : Nat) :
    ReadsBody tokens source bound (Tree.readBody source bound) := by
  induction bound with
  | zero => exact fun ts hts => .of_length hts
  | succ bound ih =>
    intro ts hts
    rw [Tree.readBody]
    refine .step (fun depth => by rw [body]) (.ahead_bind (.ite (fun _ => .pure [] rfl) fun _ => ?_))
    refine (reads_node hend ih hts).bind fun element rest hrest => ?_
    have := element.size_pos
    refine (ih rest (by omega)).bind fun elements rest _ => ?_
    exact .pure (element :: elements) (by simp only [Tree.sizes]; omega)

/-- What is read when the end of the input follows. -/
def whole {α : Type} (read : Except ParseError (α × List Token)) (cause : Token → ParseError.Cause) :
    Except ParseError (α × List Token) := do
  let (x, rest) ← read
  match rest with
  | [] => return (x, [])
  | t :: _ => if t.kind ≠ .eof then t.fail (cause t) else return (x, rest)

theorem Reads.wholly {m : Nat → Parser α} {least : α → Nat} {result : Except ParseError (α × List Token)}
    (h : Reads tokens 0 least m ts result) (cause : Token → ParseError.Cause) :
    Reads tokens 0 least (fun depth => wholly tokens (m depth) cause) ts (whole result cause) := by
  refine h.bind fun x rest _ => .ahead_bind ?_
  cases rest with
  | nil => exact .nil
  | cons t rest =>
    exact .ite (fun _ => .current_bind (.of_mem fun ht => .fail ht _)) fun _ => .pure x (Nat.sub_self _)

/-- The element for the whole is one more than there may be tokens. -/
theorem reads_root (hend : Ended tokens) :
    Reads tokens 1 (fun t : Tree => t.size - 1) (root tokens source) tokens (do
    let (children, rest) ← whole (Tree.readBody source tokens.length tokens) .strayClosing
    return (⟨.sequence, Tree.spanOf source tokens, false, children⟩, rest)) := by
  have hbody : Reads tokens 0 Tree.sizes (body tokens source) tokens _ :=
    reads_readBody hend tokens.length tokens (Nat.le_refl _)
  refine (hbody.wholly .strayClosing).bind fun children rest _ => ?_
  exact .make _ (by simp only [Tree.size]; omega)

end

end

end Cursor

end Stencil
