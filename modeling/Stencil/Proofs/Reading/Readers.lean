import Stencil.Proofs.Reading.Spelling
import Mathlib.Data.List.TakeWhile

/-! # What reading gives

Every tree that is read from a template can be written, since the lexer gives words and comments only of
the right form and every reader puts together what it should. -/

namespace Stencil

/-! ### Tokens -/

/-- Tokens as the lexer gives them: identifiers are names, and comments end where they should. -/
structure Token.Lexed (t : Token) : Prop where
  name : t.kind = .identifier → IsName t.value
  comment : t.kind = .comment → ¬ [']', '\x7d'] <:+: t.value.toList

namespace Lexer

theorem commentRun_value {cs : List Char} {p : Piece} (h : commentRun cs = some p) :
    ∃ value, p.token = some (.comment, value) ∧ cs = value ++ ']' :: '\x7d' :: p.rest ∧
    ¬ [']', '\x7d'] <:+: value := by
  fun_induction commentRun cs generalizing p with
  | case1 => cases h
  | case2 cs =>
    cases h
    exact ⟨[], rfl, rfl, by simp⟩
  | case3 c cs hnot ih =>
    obtain ⟨q, hq, rfl⟩ := Option.map_eq_some_iff.1 h
    obtain ⟨value, htoken, hcs, hinfix⟩ := ih hq
    refine ⟨c :: value, by rw [Piece.push, htoken]; rfl, by rw [hcs]; rfl, fun hin => ?_⟩
    rcases List.infix_cons_iff.1 hin with hprefix | hin
    · obtain ⟨rest, hrest⟩ := hprefix
      obtain ⟨rfl, hvalue⟩ := List.cons.inj hrest
      rw [← hvalue] at hcs
      exact hnot _ rfl hcs
    · exact hinfix hin

theorem textRun_token (cs : List Char) : ∃ value, (textRun cs).token = some (.text, value) := by
  fun_induction textRun cs with
  | case1 => exact ⟨[], rfl⟩
  | case2 cs ih =>
    obtain ⟨value, h⟩ := ih
    exact ⟨_, by rw [Piece.push, h]; rfl⟩
  | case3 cs => exact ⟨[], rfl⟩
  | case4 c cs _ _ ih =>
    obtain ⟨value, h⟩ := ih
    exact ⟨_, by rw [Piece.push, h]; rfl⟩

theorem punctuation_kind {cs : List Char} {kind : TokenKind} (h : punctuation? cs = some kind) :
    kind ≠ .identifier ∧ kind ≠ .comment := by
  unfold punctuation? at h
  split at h <;> cases h <;> decide

/-- Kinds of token with any value. -/
abbrev IsFree (kind : TokenKind) : Prop := kind ≠ .identifier ∧ kind ≠ .comment

theorem IsFree.lexed {kind : TokenKind} (h : IsFree kind) (value : String) (first last : Position) :
    Token.Lexed ⟨kind, value, first, last⟩ :=
  ⟨fun hk => absurd hk h.1, fun hk => absurd hk h.2⟩

theorem ofWord_ne_comment (word : String) : TokenKind.ofWord word ≠ .comment := by
  unfold TokenKind.ofWord
  split
  · decide
  split
  · decide
  split
  · decide
  split <;> decide

theorem scanText_lexed {here : Position} {cs : List Char} {p : Piece} (h : scanText here cs = .ok p)
    {t : Token} (ht : p.token? here = some t) : t.Lexed := by
  obtain ⟨⟨kind, value⟩, htoken, rfl⟩ := Option.map_eq_some_iff.1 ht
  have htext : ∀ ds, p = textRun ds → kind = .text := by
    rintro ds rfl
    obtain ⟨text, hrun⟩ := textRun_token ds
    rw [hrun] at htoken
    exact (Prod.mk.inj (Option.some.inj htoken)).1.symm
  unfold scanText at h
  split at h
  · obtain rfl := htext _ (Except.ok.inj h).symm
    exact IsFree.lexed (by decide) _ _ _
  · split at h
    · next q hq =>
      obtain ⟨text, hrun, -, hinfix⟩ := commentRun_value hq
      cases h
      rw [hrun] at htoken
      cases htoken
      exact ⟨fun hk => (by cases hk), fun _ => (by rwa [String.toList_ofList])⟩
    · cases h
  · split at h
    · cases h
    · cases h
      cases htoken
      exact IsFree.lexed (by decide) _ _ _
  · obtain rfl := htext _ (Except.ok.inj h).symm
    exact IsFree.lexed (by decide) _ _ _

theorem scanTag_lexed {here : Position} {c : Char} {cs : List Char} {p : Piece}
    (h : scanTag here c cs = .ok p) {t : Token} (ht : p.token? here = some t) : t.Lexed := by
  obtain ⟨⟨kind, value⟩, htoken, rfl⟩ := Option.map_eq_some_iff.1 ht
  unfold scanTag at h
  split at h
  · cases h
    cases htoken
  split at h
  · next k hk =>
    cases h
    cases htoken
    exact IsFree.lexed (punctuation_kind hk) _ _ _
  split at h
  · split at h
    · cases h
      cases htoken
      exact IsFree.lexed (by decide) _ _ _
    · cases h
  split at h
  · cases h
    cases htoken
    exact IsFree.lexed (by decide) _ _ _
  split at h
  · next hstart =>
    cases h
    cases htoken
    refine ⟨fun hk => ⟨⟨c, _, String.toList_ofList, hstart, fun d hd => ?_⟩, hk⟩, fun hk => ?_⟩
    · exact List.mem_takeWhile_imp hd
    · exact absurd hk (ofWord_ne_comment _)
  · cases h

theorem scan_lexed {mode : Mode} {here : Position} {c : Char} {cs : List Char} {p : Piece}
    (h : scan mode here c cs = .ok p) {t : Token} (ht : p.token? here = some t) : t.Lexed := by
  cases mode with
  | text => exact scanText_lexed h ht
  | tag | expression => exact scanTag_lexed h ht

end Lexer

/-- All tokens of a text are as they should be. -/
theorem lexed_tokensFrom {mode : Lexer.Mode} {here : Position} {cs : List Char} {ts : List Token}
    (h : Lexer.tokensFrom mode here cs = .ok ts) : ∀ t ∈ ts, t.Lexed := by
  fun_induction Lexer.tokensFrom mode here cs generalizing ts with
  | case1 | case3 | case4 => cases h
  | case2 =>
    cases h
    intro t ht
    obtain rfl := List.mem_singleton.1 ht
    exact Lexer.IsFree.lexed (by decide) _ _ _
  | case5 mode here c cs p hscan tokens htokens ih =>
    cases h
    intro t ht
    rcases List.mem_append.1 ht with ht | ht
    · exact Lexer.scan_lexed hscan (Option.mem_toList.1 ht)
    · exact ih htokens t ht

/-! ### Readers -/

/-- The last ones of some tokens that are as they should be. -/
structure Token.Left (all ts : List Token) : Prop where
  suffix : ts <:+ all
  lexed : ∀ t ∈ all, t.Lexed

/-- What is read, if anything is, has a property, and the tokens after it are those that are left. -/
def Gives {α : Type} (all : List Token) (P : α → Prop) (result : Except ParseError (α × List Token)) : Prop :=
  ∀ x rest, result = .ok (x, rest) → P x ∧ Token.Left all rest

section
variable {α β : Type} {P : α → Prop} {Q : β → Prop} {all ts : List Token}

open Token

theorem Gives.ok {x : α} {rest : List Token} (hx : P x) (hrest : Left all rest) :
    Gives all P (.ok (x, rest)) := by
  rintro _ _ ⟨⟩
  exact ⟨hx, hrest⟩

theorem Gives.error {e : ParseError} : Gives all P (.error e) := by
  rintro _ _ ⟨⟩

theorem Gives.bind {result : Except ParseError (α × List Token)}
    {f : α × List Token → Except ParseError (β × List Token)} (h : Gives all P result)
    (hf : ∀ x rest, P x → Left all rest → Gives all Q (f (x, rest))) : Gives all Q (result >>= f) := by
  intro y rest hy
  cases hresult : result with
  | error e =>
    rw [hresult] at hy
    cases hy
  | ok pair =>
    obtain ⟨x, mid⟩ := pair
    rw [hresult] at hy
    obtain ⟨hx, hmid⟩ := h x mid hresult
    exact hf x mid hx hmid y rest hy

theorem Gives.weaken {P' : α → Prop} {result : Except ParseError (α × List Token)} (h : Gives all P result)
    (hP : ∀ x, P x → P' x) :
    Gives all P' result := fun x rest hresult => ⟨hP x (h x rest hresult).1, (h x rest hresult).2⟩

theorem Token.left_self (h : ∀ t ∈ ts, t.Lexed) : Left ts ts := ⟨List.suffix_rfl, h⟩

theorem Token.Left.head {t : Token} (h : Left all (t :: ts)) : t.Lexed :=
  h.lexed t (h.suffix.subset List.mem_cons_self)

theorem Token.Left.tail {t : Token} (h : Left all (t :: ts)) : Left all ts :=
  ⟨(List.suffix_cons t ts).trans h.suffix, h.lexed⟩

theorem Token.Left.drop (h : Left all ts) (n : Nat) : Left all (ts.drop n) :=
  ⟨(List.drop_suffix n ts).trans h.suffix, h.lexed⟩

theorem gives_expect (kind : TokenKind) (hts : Left all ts) :
    Gives all (fun t => t.kind = kind ∧ t.Lexed) (expect kind ts) := by
  cases ts with
  | nil => exact .error
  | cons t rest =>
    rw [expect]
    split
    · next h => exact .ok ⟨h, hts.head⟩ hts.tail
    · exact .error

theorem gives_expectName (hts : Left all ts) : Gives all IsName (expectName ts) := by
  cases ts with
  | nil => exact .error
  | cons t rest =>
    rw [expectName]
    split
    · next h => exact .ok (hts.head.name h) hts.tail
    · split <;> exact .error

namespace Expr

variable {source : Option Source}

/-- What tokens of the lexer spell can be written. -/
theorem Spelled.written {n : Nat} {e : Expr} (h : Spelled source n ts e) (hlexed : ∀ t ∈ ts, t.Lexed) :
    e.Written n := by
  induction h with
  | string => exact .string _ _
  | integer _ h => exact .integer _ h
  | yes => exact .boolean _ true
  | no => exact .boolean _ false
  | null => exact .null _
  | var kind => exact .var _ ((hlexed _ List.mem_cons_self).name kind)
  | group _ _ _ ih => exact .group _ (ih fun t ht => hlexed t (by simp [ht]))
  | @dot _ mark key _ _ _ _ hkey ih =>
    exact .dot _ (ih fun t ht => hlexed t (by simp [ht])) ((hlexed key (by simp)).name hkey)
  | eval _ _ _ _ ih => exact .eval _ (ih fun t ht => hlexed t (by simp [ht]))
  | not hn _ _ ih => exact .not _ hn (ih fun t ht => hlexed t (by simp [ht]))
  | binary hn _ _ _ ihLeft ihRight =>
    exact .binary _ hn (ihLeft fun t ht => hlexed t (by simp [ht]))
      (ihRight fun t ht => hlexed t (by simp [ht]))

/-- Expressions that are read can be written. -/
theorem gives_read (hts : Left all ts) : Gives all (Written 0) (read source ts) := by
  intro e rest h
  obtain ⟨front, rfl, hfront⟩ := spelled_read h
  have hsub := (List.suffix_append front rest).trans hts.suffix
  exact ⟨hfront.written fun t ht => hts.lexed t (hts.suffix.subset (List.mem_append_left rest ht)),
    hsub, hts.lexed⟩

end Expr

/-! ### Bodies -/

namespace Tree

variable {source : Option Source} {body : Reader (List Tree)} {opened : Token}

/-- Reads the condition of a branch, if it has one. -/
def readCondition (source : Option Source) (branch : Branch) : Reader (Option Expr) := fun ts =>
  match branch with
  | .otherwise => .ok (none, ts)
  | _ => do
    let (e, rest) ← Expr.read source ts
    return (some e, rest)

theorem readBranches_succ (source : Option Source) (body : Reader (List Tree)) (opened : Token) (bound : Nat)
    (branch : Branch) (header : Token) (ts : List Token) :
    readBranches source body opened (bound + 1) branch header ts = (do
      let (condition, rest) ← readCondition source branch ts
      let (close, rest) ← expect .closing rest
      let (children, rest) ← body rest
      let element : Tree := ⟨.conditional branch condition,
        .enclosing source header.first close.last (children.getLast?.map (·.location)), true, children⟩
      match branchAhead? rest with
      | some next =>
        if branch = .otherwise then (rest.head?.getD default).fail (.branchAfterElse
          (rest.head?.getD default))
        else
          let ((elements, last), rest) ←
            readBranches source body opened bound next (rest.head?.getD default) (rest.drop 3)
          return ((element :: elements, last), rest)
      | none =>
        let (last, rest) ← readClosing .conditional opened rest
        return (([element], last), rest)) := by
  cases branch with
  | otherwise => rw [readBranches]; rfl
  | main | elseIf =>
    rw [readBranches]
    · simp only [readCondition]
      cases Expr.read source ts with
      | error e => rfl
      | ok read => rfl
    · rintro ⟨⟩

variable {Q : Expr → Prop}

/-- An element that is neither an if block nor a branch. -/
theorem WrittenWith.plain {kind : Kind} {first last : Position} {children : List Tree} (hkind : kind.Written)
    (hexpressions : ∀ e ∈ kind.expressions, Q e) (hleaf : kind.hasBody = false → children = [])
    (hblock : kind ≠ .ifBlock) (hbranch : ∀ branch condition, kind ≠ .conditional branch condition)
    (hbody : WrittenWith Q kind.isIfBlock children) :
    WrittenWith Q false [plain kind source first last children] :=
  ⟨.cons hkind hleaf (fun h => absurd h hblock)
    (fun _ branch condition h => absurd h (hbranch branch condition)) nofun hbody.written .nil,
    .cons hexpressions hbody.expressions .nil⟩

theorem WrittenWith.branch {branch : Branch} {condition : Option Expr} {location : Location} {inBlock : Bool}
    {children ts : List Tree} (hkind : (Kind.conditional branch condition).Written)
    (hexpressions : ∀ e ∈ condition, Q e) (hbody : WrittenWith Q false children)
    (htail : WrittenWith Q true ts) :
    WrittenWith Q true (⟨.conditional branch condition, location, inBlock, children⟩ :: ts) :=
  ⟨.cons hkind nofun nofun nofun (fun _ => ⟨branch, condition, rfl⟩) hbody.written htail.written,
    .cons (fun e he => hexpressions e (Option.mem_toList.1 he)) hbody.expressions htail.expressions⟩

theorem WrittenWith.nil (branches : Bool) : WrittenWith Q branches [] := ⟨.nil, .nil⟩

theorem Written.append {branches : Bool} {ts us : List Tree} (h : Written branches ts)
    (h' : Written branches us) :
    Written branches (ts ++ us) := by
  induction ts with
  | nil => exact h'
  | cons t ts ih =>
    cases h with
    | cons kind leaf block outside inside body tail =>
      exact .cons kind leaf block outside inside body (ih tail)

theorem WrittenWith.append {branches : Bool} {ts us : List Tree} (h : WrittenWith Q branches ts)
    (h' : WrittenWith Q branches us) :
    WrittenWith Q branches (ts ++ us) := ⟨h.written.append h'.written, h.expressions.append h'.expressions⟩

/-- The expressions that are read can be written and have a property. -/
abbrev ReadsWith (all : List Token) (source : Option Source) (Q : Expr → Prop) : Prop :=
  ∀ ⦃ts : List Token⦄, Left all ts → Gives all (fun e => e.Written 0 ∧ Q e) (Expr.read source ts)

theorem readsWith_true : ReadsWith all source fun _ => True :=
  fun _ hts => (Expr.gives_read hts).weaken fun _ he => ⟨he, trivial⟩

/-- The bodies that are read can be written, with expressions that have a property. -/
abbrev BodiesWith (all : List Token) (Q : Expr → Prop) (body : Reader (List Tree)) : Prop :=
  ∀ ⦃ts : List Token⦄, Left all ts → Gives all (WrittenWith Q false) (body ts)

/-- What is read is an element that can be written, with expressions that have a property. -/
abbrev GivesElement (all : List Token) (Q : Expr → Prop) (result : Except ParseError (Tree × List Token)) :
    Prop :=
  Gives all (fun t => WrittenWith Q false [t]) result

theorem gives_readCondition (hread : ReadsWith all source Q) {branch : Branch} (hts : Left all ts) :
    Gives all (fun condition => (Kind.conditional branch condition).Written ∧ ∀ e ∈ condition, Q e)
      (readCondition source branch ts) := by
  cases branch with
  | otherwise => exact .ok ⟨⟨⟨fun _ => rfl, fun _ => rfl⟩, nofun⟩, nofun⟩ hts
  | main | elseIf =>
    refine (hread hts).bind fun e rest he hrest => .ok ⟨⟨⟨nofun, nofun⟩, ?_⟩, ?_⟩ hrest
    · rintro _ ⟨⟩
      exact he.1
    · rintro _ ⟨⟩
      exact he.2

theorem branchAhead_ne_main {next : Branch} (h : branchAhead? ts = some next) : next ≠ .main := by
  unfold branchAhead? at h
  split at h
  · split at h
    · split at h
      · cases h
        decide
      · split at h <;> cases h
        decide
    · cases h
  · cases h

theorem gives_readClosing (block : Block) (hts : Left all ts) :
    Gives all (fun _ => True) (readClosing block opened ts) := by
  unfold readClosing
  split
  · exact .error
  refine (gives_expect .opening hts).bind fun _ rest _ hrest => ?_
  refine (gives_expect .slash hrest).bind fun _ rest _ hrest => ?_
  cases rest with
  | nil => exact .error
  | cons name rest =>
    dsimp only
    split
    · refine (gives_expect .closing hrest.tail).bind fun close rest _ hrest => ?_
      exact .ok trivial hrest
    · exact .error

theorem gives_readBranches (hread : ReadsWith all source Q) (hbody : BodiesWith all Q body) (bound : Nat)
    {branch : Branch} {header : Token} (hts : Left all ts) :
    Gives all (fun read => Branches branch read.1 ∧ WrittenWith Q true read.1)
      (readBranches source body opened bound branch header ts) := by
  induction bound generalizing branch header ts with
  | zero => exact .error
  | succ bound ih =>
    rw [readBranches_succ]
    refine (gives_readCondition hread hts).bind fun condition rest hcondition hrest => ?_
    refine (gives_expect .closing hrest).bind fun close rest _ hrest => ?_
    refine (hbody hrest).bind fun children rest hchildren hrest => ?_
    dsimp only
    split
    · next next hnext =>
      split
      · exact .error
      · next hbranch =>
        refine (ih (hrest.drop 3)).bind fun read rest hmore hrest => ?_
        exact .ok ⟨.more rfl hbranch (branchAhead_ne_main hnext) hmore.1,
          .branch hcondition.1 hcondition.2 hchildren hmore.2⟩ hrest
    · refine (gives_readClosing .conditional hrest).bind fun last rest _ hrest => ?_
      exact .ok ⟨.last rfl, .branch hcondition.1 hcondition.2 hchildren (.nil true)⟩ hrest

theorem gives_readIf (hread : ReadsWith all source Q) (hbody : BodiesWith all Q body) (hts : Left all ts) :
    GivesElement all Q (readIf source body opened ts) := by
  refine (gives_readBranches hread hbody ts.length hts).bind fun read rest hbranches hrest => ?_
  refine .ok ⟨.cons trivial nofun (fun _ => hbranches.1) nofun nofun hbranches.2.written .nil, ?_⟩ hrest
  exact .cons nofun hbranches.2.expressions .nil

theorem gives_readList (hread : ReadsWith all source Q) (hbody : BodiesWith all Q body) (hts : Left all ts) :
    GivesElement all Q (readList source body opened ts) := by
  refine (hread hts).bind fun items rest hitems hrest => ?_
  refine (gives_expect .keywordAs hrest).bind fun _ rest _ hrest => ?_
  refine (gives_expectName hrest).bind fun item rest hitem hrest => ?_
  refine (gives_expect .closing hrest).bind fun _ rest _ hrest => ?_
  refine (hbody hrest).bind fun children rest hchildren hrest => ?_
  refine (gives_readClosing .list hrest).bind fun last rest _ hrest => ?_
  exact .ok (.plain ⟨hitems.1, hitem⟩
    (List.forall_mem_singleton.2 hitems.2) nofun nofun nofun hchildren) hrest

theorem gives_readAssignment (hread : ReadsWith all source Q) (hbody : BodiesWith all Q body)
    (hts : Left all ts) :
    GivesElement all Q (readAssignment source body opened ts) := by
  refine (gives_expectName hts).bind fun target rest htarget hrest => ?_
  dsimp only
  split
  · refine (hread (hrest.drop 1)).bind fun value rest hvalue hrest => ?_
    refine (gives_expect .closing hrest).bind fun close rest _ hrest => ?_
    exact .ok (.plain ⟨htarget, hvalue.1⟩ (List.forall_mem_singleton.2 hvalue.2)
      (fun _ => rfl) nofun nofun (.nil false)) hrest
  · refine (gives_expect .closing hrest).bind fun _ rest _ hrest => ?_
    refine (hbody hrest).bind fun children rest hchildren hrest => ?_
    refine (gives_readClosing .assign hrest).bind fun last rest _ hrest => ?_
    exact .ok (.plain htarget nofun nofun nofun nofun hchildren) hrest

theorem gives_readParameters {read : List String} (hread : (∀ p ∈ read, IsName p) ∧ read.Nodup)
    (hts : Left all ts) :
    Gives all (fun ps : List String => (∀ p ∈ ps, IsName p) ∧ ps.Nodup) (readParameters read ts) := by
  induction ts generalizing read with
  | nil => exact .ok hread hts
  | cons t rest ih =>
    rw [readParameters]
    split
    · exact .ok hread hts
    · refine (gives_expectName hts).bind fun name _ hname _ => ?_
      dsimp only
      split
      · exact .error
      · next hnew =>
        refine ih ⟨?_, ?_⟩ hts.tail
        · intro p hp
          rcases List.mem_append.1 hp with hp | hp
          · exact hread.1 p hp
          · obtain rfl := List.mem_singleton.1 hp
            exact hname
        · refine List.nodup_append.2 ⟨hread.2, by simp, ?_⟩
          rintro p hp q hq rfl
          obtain rfl := List.mem_singleton.1 hq
          exact hnew hp

theorem gives_readDefinition (hbody : BodiesWith all Q body) (hts : Left all ts) :
    GivesElement all Q (readDefinition source body opened ts) := by
  refine (gives_expectName hts).bind fun name rest hname hrest => ?_
  refine (gives_readParameters ⟨by simp, .nil⟩ hrest).bind fun parameters rest hparameters hrest => ?_
  refine (gives_expect .closing hrest).bind fun _ rest _ hrest => ?_
  refine (hbody hrest).bind fun children rest hchildren hrest => ?_
  refine (gives_readClosing .definition hrest).bind fun last rest _ hrest => ?_
  exact .ok (.plain ⟨hname, hparameters⟩ nofun nofun nofun nofun hchildren) hrest

theorem gives_readInclusion (hread : ReadsWith all source Q) (hts : Left all ts) :
    GivesElement all Q (readInclusion source opened ts) := by
  refine (hread hts).bind fun path rest hpath hrest => ?_
  refine (gives_expect .closing hrest).bind fun close rest _ hrest => ?_
  exact .ok (.plain hpath.1 (List.forall_mem_singleton.2 hpath.2)
    (fun _ => rfl) nofun nofun (.nil false)) hrest

theorem gives_readArguments (hread : ReadsWith all source Q) (bound : Nat) (hts : Left all ts) :
    Gives all (fun es : List Expr => ∀ e ∈ es, e.Written 0 ∧ Q e) (readArguments source bound ts) := by
  induction bound generalizing ts with
  | zero => exact .error
  | succ bound ih =>
    rw [readArguments]
    refine (hread hts).bind fun e rest he hrest => ?_
    dsimp only
    split
    · refine (ih (hrest.drop 1)).bind fun es rest hes hrest => ?_
      exact .ok (List.forall_mem_cons.2 ⟨he, hes⟩) hrest
    · exact .ok (List.forall_mem_cons.2 ⟨he, by simp⟩) hrest

theorem gives_readCall (hread : ReadsWith all source Q) (hts : Left all ts) :
    GivesElement all Q (readCall source opened ts) := by
  refine (gives_expectName hts).bind fun name rest hname hrest => ?_
  have hclose : ∀ {arguments : List Expr} {rest : List Token},
      (∀ e ∈ arguments, e.Written 0 ∧ Q e) → Left all rest →
      GivesElement all Q (do
        let (close, rest) ← expect .closing rest
        return (Tree.plain (.call name arguments) source opened.first close.last [], rest)) := by
    intro arguments rest harguments hrest
    refine (gives_expect .closing hrest).bind fun close rest _ hrest => ?_
    exact .ok (.plain ⟨hname, fun e he => (harguments e he).1⟩ (fun e he => (harguments e he).2)
      (fun _ => rfl) nofun nofun (.nil false)) hrest
  dsimp only
  split
  · exact hclose (by simp) hrest
  · exact (gives_readArguments hread rest.length hrest).bind fun arguments rest harguments hrest =>
      hclose harguments hrest

theorem gives_readInterpolation (hread : ReadsWith all source Q) (hts : Left all ts) :
    GivesElement all Q (readInterpolation source opened ts) := by
  refine (hread hts).bind fun value rest hvalue hrest => ?_
  refine (gives_expect .closing hrest).bind fun close rest _ hrest => ?_
  exact .ok (.plain hvalue.1 (List.forall_mem_singleton.2 hvalue.2)
    (fun _ => rfl) nofun nofun (.nil false)) hrest

theorem gives_readDirective (hread : ReadsWith all source Q) (hbody : BodiesWith all Q body)
    (hts : Left all ts) :
    GivesElement all Q (readDirective source body opened ts) := by
  cases ts with
  | nil => exact .error
  | cons name rest =>
    have hrest := hts.tail
    rw [readDirective]
    split
    · exact .error
    split
    · exact gives_readIf hread hbody hrest
    split
    · exact gives_readList hread hbody hrest
    split
    · exact gives_readAssignment hread hbody hrest
    split
    · exact gives_readDefinition hbody hrest
    split
    · exact gives_readInclusion hread hrest
    split <;> exact .error

theorem gives_readElement (hread : ReadsWith all source Q) (hbody : BodiesWith all Q body)
    (hts : Left all ts) :
    GivesElement all Q (readElement source body ts) := by
  cases ts with
  | nil => exact .error
  | cons t rest =>
    have hrest := hts.tail
    rw [readElement]
    split
    · exact .ok (.plain trivial nofun (fun _ => rfl) nofun nofun (.nil false)) hrest
    · next h => exact .ok (.plain (hts.head.comment h) nofun (fun _ => rfl) nofun nofun (.nil false)) hrest
    · split
      · exact gives_readDirective hread hbody (hrest.drop 1)
      · exact gives_readCall hread (hrest.drop 1)
      · exact gives_readInterpolation hread hrest
    · exact .error

/-- Bodies that are read can be written, and their expressions are as the reader of expressions gives them. -/
theorem gives_readBody (hread : ReadsWith all source Q) (bound : Nat) :
    BodiesWith all Q (readBody source bound) := by
  induction bound with
  | zero => exact fun ts hts => .ok (.nil false) hts
  | succ bound ih =>
    intro ts hts
    rw [readBody]
    split
    · exact .ok (.nil false) hts
    · refine (gives_readElement hread ih hts).bind fun element rest helement hrest => ?_
      refine (ih hrest).bind fun elements rest helements hrest => ?_
      exact .ok (helement.append helements) hrest

/-- A template that is read is a body up to the end of the input, with the span of all its tokens. -/
theorem exists_of_parse {source : Source} {t : Tree} (h : Tree.parse source = .ok t) :
    ∃ tokens children rest, tokenize source.text = .ok tokens ∧
      readBody (some source) tokens.length tokens = .ok (children, rest) ∧
      (∀ u ∈ rest.head?, u.kind = .eof) ∧ t = ⟨.sequence, spanOf (some source) tokens, false, children⟩ := by
  unfold Tree.parse at h
  obtain ⟨tokens, htokens, h⟩ := exists_of_bind_eq_ok h
  obtain ⟨⟨children, rest⟩, hbody, h⟩ := exists_of_bind_eq_ok h
  refine ⟨tokens, children, rest, htokens, hbody, ?_⟩
  cases rest with
  | nil => exact ⟨by simp, (Except.ok.inj h).symm⟩
  | cons u rest =>
    dsimp only at h
    split at h
    · cases h
    · next heof => exact ⟨by simpa using heof, (Except.ok.inj h).symm⟩

/-- Templates that are read can be written. -/
theorem written_of_parse {source : Source} {t : Tree} (h : Tree.parse source = .ok t) :
    t.kind = .sequence ∧ Written false t.children := by
  obtain ⟨tokens, children, rest, htokens, hbody, -, rfl⟩ := exists_of_parse h
  exact ⟨rfl, (gives_readBody readsWith_true tokens.length
    (left_self (lexed_tokensFrom htokens)) children rest hbody).1.written⟩

end Tree

end

end Stencil
