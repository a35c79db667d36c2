import Stencil.Proofs.Reading.Order
import Stencil.Proofs.Spans

/-! # The spans of what is read

Every reader takes tokens from the front. An element that it reads begins with a token that was taken and ends
with another, before the tokens that are left, and so do the elements in it. -/

namespace Stencil

open Token

/-! ### Readers take tokens from the front -/

/-- What is read, if anything is, has a property together with the tokens after it, which are the last of
those it was read from. -/
def Follows {α : Type} (ts : List Token) (P : α → List Token → Prop)
    (result : Except ParseError (α × List Token)) : Prop :=
  ∀ x rest, result = .ok (x, rest) → rest <:+ ts ∧ P x rest

section
variable {α β : Type} {P : α → List Token → Prop} {Q : β → List Token → Prop} {ts us : List Token}

theorem Follows.ok {x : α} {rest : List Token} (hrest : rest <:+ ts) (hx : P x rest) :
    Follows ts P (.ok (x, rest)) := by
  rintro _ _ ⟨⟩
  exact ⟨hrest, hx⟩

theorem Follows.error {e : ParseError} : Follows ts P (.error e) := by
  rintro _ _ ⟨⟩

theorem Follows.bind {result : Except ParseError (α × List Token)}
    {f : α × List Token → Except ParseError (β × List Token)} (h : Follows ts P result)
    (hf : ∀ x rest, rest <:+ ts → P x rest → Follows rest Q (f (x, rest))) : Follows ts Q (result >>= f) := by
  intro y rest hy
  cases hresult : result with
  | error e =>
    rw [hresult] at hy
    cases hy
  | ok pair =>
    obtain ⟨x, mid⟩ := pair
    rw [hresult] at hy
    obtain ⟨hmid, hx⟩ := h x mid hresult
    obtain ⟨hrest, hy⟩ := hf x mid hmid hx y rest hy
    exact ⟨hrest.trans hmid, hy⟩

theorem Follows.later {result : Except ParseError (α × List Token)} (h : Follows us P result)
    (hsub : us <:+ ts) : Follows ts P result :=
  fun x rest hresult => ⟨(h x rest hresult).1.trans hsub, (h x rest hresult).2⟩

theorem Follows.weaken {P' : α → List Token → Prop} {result : Except ParseError (α × List Token)}
    (h : Follows ts P result) (hP : ∀ x rest, P x rest → P' x rest) : Follows ts P' result :=
  fun x rest hresult => ⟨(h x rest hresult).1, hP x rest (h x rest hresult).2⟩

/-- Some tokens are taken, whatever for. -/
abbrev Takes (ts : List Token) (result : Except ParseError (α × List Token)) : Prop :=
  Follows ts (fun _ _ => True) result

theorem Gives.takes {P : α → Prop} {result : Except ParseError (α × List Token)} (h : Gives ts P result) :
    Takes ts result :=
  fun x rest hresult => ⟨(h x rest hresult).2.suffix, trivial⟩

/-! ### Spans among tokens -/

/-- A position stands before some tokens. -/
def Position.Ahead (p : Position) (ts : List Token) : Prop := ∀ t ∈ ts, p.Before t.first

/-- The end of one of some tokens, and before those that are left. -/
structure Position.Ends (p : Position) (ts rest : List Token) : Prop where
  token : ∃ t ∈ ts, t.kind ≠ .eof ∧ p = t.last
  ahead : p.Ahead rest

theorem Token.InOrder.tail {t : Token} (h : InOrder (t :: ts)) : InOrder ts :=
  h.sublist (List.sublist_cons_self t ts)

theorem Token.InOrder.suffix (h : InOrder ts) (hsub : us <:+ ts) : InOrder us := h.sublist hsub.sublist

/-- No token ends before the first of all begins. -/
theorem Token.InOrder.not_before {t u : Token} (h : InOrder (t :: ts)) (hu : u ∈ t :: ts) :
    ¬ u.first.Before t.first := by
  rcases List.mem_cons.1 hu with rfl | hu
  · exact Position.not_before_self _
  · intro hbefore
    exact (h.placed t List.mem_cons_self).order (((List.pairwise_cons.1 h.order).1 u hu).trans hbefore)

theorem Position.Ends.later {p : Position} {rest : List Token} (h : p.Ends us rest) (hsub : us ⊆ ts) :
    p.Ends ts rest := by
  obtain ⟨⟨t, ht, hlast⟩, hahead⟩ := h
  exact ⟨⟨t, hsub ht, hlast⟩, hahead⟩

theorem Position.Ends.sooner {p : Position} {rest : List Token} (h : p.Ends ts rest) (hsub : us <:+ rest) :
    p.Ends ts us :=
  ⟨h.token, fun t ht => h.ahead t (hsub.subset ht)⟩

/-- What is ahead of some tokens is before their ends. -/
theorem Position.Ends.before {p q : Position} {rest : List Token} (h : p.Ends ts rest) (hts : InOrder ts)
    (hq : q.Ahead ts) : q.Before p := by
  obtain ⟨⟨t, ht, -, rfl⟩, -⟩ := h
  exact (hq t ht).trans_not (hts.placed t ht).order

theorem Position.Ends.column {p : Position} {rest : List Token} (h : p.Ends ts rest) (hts : InOrder ts) :
    1 ≤ p.column := by
  obtain ⟨⟨t, ht, -, rfl⟩, -⟩ := h
  exact (hts.placed t ht).column

/-- The token that closes a tag ends before the others. -/
theorem follows_closing (hts : InOrder ts) :
    Follows ts (fun t rest => t.last.Ends ts rest) (expect .closing ts) := by
  cases ts with
  | nil => exact .error
  | cons t rest =>
    rw [expect]
    split
    · next h =>
      have hkind : t.kind ≠ .eof := by
        rw [h]
        exact TokenKind.noConfusion
      exact .ok (List.suffix_cons t rest)
        ⟨⟨t, List.mem_cons_self, hkind, rfl⟩, (List.pairwise_cons.1 hts.order).1⟩
    · exact .error

namespace Tree

/-- Trees whose spans nest, one after the other, from the beginning of one of some tokens to the end of
another, before those that are left. -/
structure Spread (ts rest : List Token) (trees : List Tree) : Prop where
  nested : Nested trees
  solid : ∀ t ∈ trees, t.kind.Solid
  order : trees.Pairwise fun t u => t.location.last.Before u.location.first
  begins : ∀ t ∈ trees, ∃ u ∈ ts, t.location.first = u.first
  ends : ∀ t ∈ trees, t.location.last.Ends ts rest

variable {source : Option Source} {rest mid : List Token} {t : Tree} {trees : List Tree} {opened : Token}

theorem spread_nil : Spread ts rest [] := ⟨.nil, nofun, .nil, nofun, nofun⟩

theorem Spread.later (h : Spread us rest trees) (hsub : us ⊆ ts) : Spread ts rest trees := by
  refine ⟨h.nested, h.solid, h.order, fun t ht => ?_, fun t ht => (h.ends t ht).later hsub⟩
  obtain ⟨u, hu, hfirst⟩ := h.begins t ht
  exact ⟨u, hsub hu, hfirst⟩

theorem Nested.fits {t : Tree} (h : Nested trees) (ht : t ∈ trees) : t.kind.Fits t.location := by
  induction h with
  | nil => cases ht
  | cons fits _ _ _ _ _ ih =>
    rcases List.mem_cons.1 ht with rfl | ht
    · exact fits
    · exact ih ht

theorem Spread.cons (h : Spread ts mid [t]) (h' : Spread mid rest trees) (hmid : mid <:+ ts)
    (hrest : rest <:+ mid) :
    Spread ts rest (t :: trees) := by
  have ht := List.mem_singleton_self t
  have hlater := h'.later hmid.subset
  have hends := h.ends t ht
  refine ⟨?_, List.forall_mem_cons.2 ⟨h.solid t ht, h'.solid⟩,
    List.pairwise_cons.2 ⟨fun u hu => ?_, h'.order⟩, List.forall_mem_cons.2 ⟨h.begins t ht, hlater.begins⟩,
    List.forall_mem_cons.2 ⟨hends.sooner hrest, hlater.ends⟩⟩
  · cases h.nested with
    | cons fits parts order body => exact .cons fits parts order body h'.nested
  · obtain ⟨token, htoken, hfirst⟩ := h'.begins u hu
    rw [hfirst]
    exact hends.ahead token htoken

/-- An element around some others. -/
theorem spread_singleton {children : List Tree} {kind : Kind} {location : Location} {inBlock : Bool}
    (hsolid : kind.Solid) (hfits : kind.Fits location) (hfirst : ∃ u ∈ ts, location.first = u.first)
    (hlast : location.last.Ends ts rest) (hchildren : Spread us mid children)
    (hinside : ∀ c ∈ children, c.location.Inside location) :
    Spread ts rest [⟨kind, location, inBlock, children⟩] :=
  ⟨.cons hfits (fun c hc => ⟨hchildren.solid c hc, hinside c hc⟩) hchildren.order hchildren.nested .nil,
    List.forall_mem_singleton.2 hsolid, List.pairwise_singleton _ _, List.forall_mem_singleton.2 hfirst,
    List.forall_mem_singleton.2 hlast⟩

/-- An element from its first token to the end of a tag after everything in it. -/
theorem spread_plain {children : List Tree} {kind : Kind} {last : Position} (hts : InOrder (opened :: ts))
    (hchildren : Spread (opened :: ts) mid children) (hmid : mid <:+ ts) (hlast : last.Ends mid rest)
    (hkind : kind.IsTag) :
    Spread (opened :: ts) rest [plain kind source opened.first last children] := by
  have hmidOrder := hts.tail.suffix hmid
  have hopened : opened.first.Before last := by
    refine hlast.before hmidOrder fun u hu => ?_
    exact ((List.pairwise_cons.1 hts.order).1 u (hmid.subset hu)).not_trans
      (hts.placed opened List.mem_cons_self).order
  refine spread_singleton hkind.solid ⟨?_, fun _ => ?_, fun text h => absurd h (hkind.ne_text text false)⟩
    ⟨opened, List.mem_cons_self, rfl⟩
      (hlast.later (hmid.trans (List.suffix_cons opened ts)).subset) hchildren fun c hc => ⟨?_, ?_⟩
  · exact Int.le_trans (by decide) (hlast.column hmidOrder)
  · exact fun h => Position.not_before_self _ (hopened.trans h)
  · obtain ⟨u, hu, hfirst⟩ := hchildren.begins c hc
    rw [hfirst]
    exact hts.not_before hu
  · exact fun h => Position.not_before_self _ (h.trans (hlast.before hmidOrder (hchildren.ends c hc).ahead))

/-- An element that is a single token. -/
theorem spread_token {kind : Kind} (hts : InOrder (opened :: ts)) (hopened : opened.kind ≠ .eof)
    (hsolid : kind.Solid)
    (hlines : ∀ text, kind = .text text false →
      opened.last.line = opened.first.line + text.toList.dropLast.count '\n') :
    Spread (opened :: ts) ts [plain kind source opened.first opened.last []] := by
  have hplaced := hts.placed opened List.mem_cons_self
  refine spread_singleton hsolid ⟨?_, fun _ => hplaced.order, fun text h => ⟨hplaced.column, hlines text h⟩⟩
    ⟨opened, List.mem_cons_self, rfl⟩
      ⟨⟨opened, List.mem_cons_self, hopened, rfl⟩, (List.pairwise_cons.1 hts.order).1⟩
    (show Spread [] [] [] from spread_nil) nofun
  exact Int.le_trans (by decide) hplaced.column

/-- A branch from its tag to the last of its elements, or to the end of the tag. -/
theorem spread_branch (source : Option Source) (branch : Branch) (condition : Option Expr)
    {children : List Tree} {header : Token} {last : Position} (hts : InOrder (header :: ts))
    (hlast : last.Ends ts us) (hchildren : Spread us mid children) (hus : us <:+ ts) (hmid : mid <:+ us) :
    Spread (header :: ts) mid [⟨.conditional branch condition,
      .enclosing source header.first last (children.getLast?.map (·.location)), true, children⟩] := by
  have hheader : ∀ u ∈ ts, header.first.Before u.first := fun u hu =>
    ((List.pairwise_cons.1 hts.order).1 u hu).not_trans (hts.placed header List.mem_cons_self).order
  have hbegins : ∀ c ∈ children, header.first.Before c.location.first := by
    intro c hc
    obtain ⟨u, hu, hfirst⟩ := hchildren.begins c hc
    rw [hfirst]
    exact hheader u (hus.subset hu)
  have hsub := List.subset_cons_self header ts
  -- The branch ends with its last element, which ends after all others, or with its tag.
  have hend : (Location.enclosing source header.first last (children.getLast?.map (·.location))).last.Ends
      (header :: ts) mid ∧
      0 ≤ (Location.enclosing source header.first last (children.getLast?.map (·.location))).last.column ∧
      header.first.Before (Location.enclosing source header.first last
        (children.getLast?.map (·.location))).last ∧
      ∀ c ∈ children, ¬ (Location.enclosing source header.first last
        (children.getLast?.map (·.location))).last.Before c.location.last := by
    rcases List.eq_nil_or_concat' children with rfl | ⟨front, c, rfl⟩
    · exact ⟨(hlast.sooner hmid).later hsub, Int.le_trans (by decide) (hlast.column hts.tail),
        hlast.before hts.tail hheader, nofun⟩
    · have hc : c ∈ front ++ [c] := List.mem_append_right front (List.mem_singleton_self c)
      have hfits := (hchildren.nested.fits hc).order (hchildren.solid c hc)
      simp only [Location.enclosing, List.getLast?_append, List.getLast?_singleton, Option.some_or,
        Option.map_some, Option.getD_some]
      refine ⟨(hchildren.ends c hc).later (List.Subset.trans hus.subset hsub),
        (hchildren.nested.fits hc).column, (hbegins c hc).trans_not hfits,
        List.forall_mem_append.2 ⟨fun d hd h => ?_, List.forall_mem_singleton.2 (Position.not_before_self _)⟩⟩
      exact hfits (h.trans ((List.pairwise_append.1 hchildren.order).2.2 d hd c (List.mem_singleton_self c)))
  obtain ⟨hends, hcolumn, hopened, hafter⟩ := hend
  have htag : (Kind.conditional branch condition).IsTag := trivial
  refine spread_singleton htag.solid
    ⟨hcolumn, fun _ h => Position.not_before_self _ (hopened.trans h), fun text h =>
      absurd h (htag.ne_text text false)⟩
    ⟨header, List.mem_cons_self, rfl⟩ hends hchildren fun c hc => ⟨fun h => ?_, hafter c hc⟩
  exact Position.not_before_self _ (h.trans (hbegins c hc))

/-! ### Bodies -/

variable {body : Reader (List Tree)}

/-- A tag is taken that ends before the others. -/
theorem follows_readClosing (block : Block) (hts : InOrder ts) :
    Follows ts (fun last rest => last.Ends ts rest) (readClosing block opened ts) := by
  unfold readClosing
  split
  · exact .error
  refine (gives_expect .opening hts.left).takes.bind fun _ rest hrest _ => ?_
  refine (gives_expect .slash (hts.suffix hrest).left).takes.bind fun _ rest' hrest' _ => ?_
  cases rest' with
  | nil => exact .error
  | cons name rest' =>
    have hname := (List.suffix_cons name rest').trans (hrest'.trans hrest)
    dsimp only
    split
    · refine .later ((follows_closing (hts.suffix hname)).bind fun close rest' _ hclose => ?_)
        (List.suffix_cons name rest')
      exact .ok List.suffix_rfl (hclose.later hname.subset)
    · exact .error

theorem branchAhead_cons {next : Branch} (h : branchAhead? ts = some next) :
    ∃ header rest, ts = header :: rest := by
  cases ts with
  | nil => cases h
  | cons header rest => exact ⟨header, rest, rfl⟩

/-- A body that is read has its elements among its tokens. -/
abbrev Spreads (body : Reader (List Tree)) : Prop :=
  ∀ ts, InOrder ts → Follows ts (fun trees rest => Spread ts rest trees) (body ts)

/-- The branches of an if block, from the tag of the first one to before the closing tag. -/
theorem follows_readBranches (hbody : Spreads body) (bound : Nat)
    {branch : Branch} {header : Token} (hts : InOrder (header :: ts)) :
    Follows ts (fun read rest => ∃ mid, mid <:+ ts ∧ Spread (header :: ts) mid read.1 ∧ read.2.Ends mid rest)
      (readBranches source body opened bound branch header ts) := by
  induction bound generalizing branch header ts with
  | zero => exact .error
  | succ bound ih =>
    rw [readBranches_succ]
    refine (gives_readCondition readsWith_true hts.tail.left).takes.bind fun condition tag htag _ => ?_
    refine (follows_closing (hts.tail.suffix htag)).bind fun close inner hinner hclose => ?_
    have hinner := hinner.trans htag
    refine (hbody inner (hts.tail.suffix hinner)).bind fun children rest hrest hchildren => ?_
    have hbranch := spread_branch source branch condition hts
      (hclose.later htag.subset) hchildren hinner hrest
    have hrest := hrest.trans hinner
    dsimp only
    split
    · next next hnext =>
      split
      · exact .error
      · obtain ⟨header', rest', rfl⟩ := branchAhead_cons hnext
        have hkept : (header' :: rest'.drop 2).Sublist (header' :: rest') :=
          (List.drop_sublist 2 rest').cons_cons header'
        have hdrop : rest'.drop 2 <:+ header' :: rest' :=
          (List.drop_suffix 2 rest').trans (List.suffix_cons header' rest')
        refine .later ((ih ((hts.tail.suffix hrest).sublist hkept)).bind fun read rest'' _ hread => ?_) hdrop
        obtain ⟨mid, hmid, hspread, hends⟩ := hread
        have hmid := hmid.trans hdrop
        have hall := hbranch.cons (hspread.later hkept.subset) (hrest.trans (List.suffix_cons header ts)) hmid
        exact .ok List.suffix_rfl ⟨mid, hmid.trans hrest, hall, hends⟩
    · refine (follows_readClosing .conditional (hts.tail.suffix hrest)).bind fun last rest' hrest' hlast => ?_
      exact .ok List.suffix_rfl ⟨rest, hrest, hbranch, hlast⟩

theorem follows_readIf (hbody : Spreads body) (hts : InOrder (opened :: ts)) :
    Follows ts (fun t rest => Spread (opened :: ts) rest [t]) (readIf source body opened ts) := by
  refine (follows_readBranches hbody ts.length hts).bind fun read rest _ hread => ?_
  obtain ⟨mid, hmid, hbranches, hlast⟩ := hread
  exact .ok List.suffix_rfl (spread_plain hts hbranches hmid hlast trivial)

/-- The end of a tag that is an element. -/
theorem follows_tag (kind : Kind) (hkind : kind.IsTag) (hts : InOrder (opened :: ts)) (hus : us <:+ ts) :
    Follows us (fun t rest => Spread (opened :: ts) rest [t]) (do
      let (close, rest) ← expect .closing us
      return (plain kind source opened.first close.last [], rest)) := by
  refine (follows_closing (hts.tail.suffix hus)).bind fun close rest _ hclose => ?_
  exact .ok List.suffix_rfl (spread_plain hts spread_nil hus hclose hkind)

/-- The end of a tag with a body after it, up to the closing tag. -/
theorem follows_block (kind : Kind) (hkind : kind.IsTag) (block : Block) (hbody : Spreads body)
    (hts : InOrder (opened :: ts)) (hus : us <:+ ts) :
    Follows us (fun t rest => Spread (opened :: ts) rest [t]) (do
      let (_, rest) ← expect .closing us
      let (children, rest) ← body rest
      let (last, rest) ← readClosing block opened rest
      return (plain kind source opened.first last children, rest)) := by
  refine (gives_expect .closing (hts.tail.suffix hus).left).takes.bind fun _ inner hinner _ => ?_
  have hinner := hinner.trans hus
  refine (hbody inner (hts.tail.suffix hinner)).bind fun children mid hmid hchildren => ?_
  have hmid := hmid.trans hinner
  refine (follows_readClosing block (hts.tail.suffix hmid)).bind fun last rest _ hlast => ?_
  have hchildren := hchildren.later (List.Subset.trans hinner.subset (List.subset_cons_self opened ts))
  exact .ok List.suffix_rfl (spread_plain hts hchildren hmid hlast hkind)

theorem follows_readList (hbody : Spreads body) (hts : InOrder (opened :: ts)) :
    Follows ts (fun t rest => Spread (opened :: ts) rest [t]) (readList source body opened ts) := by
  refine (Expr.gives_read hts.tail.left).takes.bind fun items us₁ hus₁ _ => ?_
  refine (gives_expect .keywordAs (hts.tail.suffix hus₁).left).takes.bind fun _ us₂ hus₂ _ => ?_
  have hus₂ := hus₂.trans hus₁
  refine (gives_expectName (hts.tail.suffix hus₂).left).takes.bind fun item us hus _ => ?_
  exact follows_block (.list items item) trivial .list hbody hts (hus.trans hus₂)

theorem follows_readAssignment (hbody : Spreads body) (hts : InOrder (opened :: ts)) :
    Follows ts (fun t rest => Spread (opened :: ts) rest [t]) (readAssignment source body opened ts) := by
  refine (gives_expectName hts.tail.left).takes.bind fun target us₁ hus₁ _ => ?_
  dsimp only
  split
  · have hdrop := List.drop_suffix 1 us₁
    have hvalue := hdrop.trans hus₁
    refine .later ((Expr.gives_read (hts.tail.suffix hvalue).left).takes.bind fun value us hus _ => ?_) hdrop
    exact follows_tag (.assignment target value) trivial hts (hus.trans hvalue)
  · exact follows_block (.capture target) trivial .assign hbody hts hus₁

theorem follows_readDefinition (hbody : Spreads body) (hts : InOrder (opened :: ts)) :
    Follows ts (fun t rest => Spread (opened :: ts) rest [t]) (readDefinition source body opened ts) := by
  refine (gives_expectName hts.tail.left).takes.bind fun name us₁ hus₁ _ => ?_
  refine (gives_readParameters ⟨List.forall_mem_nil _, .nil⟩ (hts.tail.suffix hus₁).left).takes.bind
    fun parameters us hus _ => ?_
  exact follows_block (.definition name parameters) trivial .definition hbody hts (hus.trans hus₁)

theorem follows_readInclusion (hts : InOrder (opened :: ts)) :
    Follows ts (fun t rest => Spread (opened :: ts) rest [t]) (readInclusion source opened ts) :=
  (Expr.gives_read hts.tail.left).takes.bind fun path _ hus _ => follows_tag (.inclusion path) trivial hts hus

theorem follows_readCall (hts : InOrder (opened :: ts)) :
    Follows ts (fun t rest => Spread (opened :: ts) rest [t]) (readCall source opened ts) := by
  refine (gives_expectName hts.tail.left).takes.bind fun name us₁ hus₁ _ => ?_
  dsimp only
  split
  · exact follows_tag (.call name []) trivial hts hus₁
  · exact (gives_readArguments readsWith_true us₁.length (hts.tail.suffix hus₁).left).takes.bind
        fun arguments us hus _ =>
      follows_tag (.call name arguments) trivial hts (hus.trans hus₁)

theorem follows_readInterpolation (hts : InOrder (opened :: ts)) :
    Follows ts (fun t rest => Spread (opened :: ts) rest [t]) (readInterpolation source opened ts) :=
  (Expr.gives_read hts.tail.left).takes.bind fun value _ hus _ =>
    follows_tag (.interpolation value) trivial hts hus

theorem follows_readDirective (hbody : Spreads body) (hts : InOrder (opened :: ts)) :
    Follows ts (fun t rest => Spread (opened :: ts) rest [t]) (readDirective source body opened ts) := by
  cases ts with
  | nil => exact .error
  | cons name ts =>
    have hsub : (opened :: ts).Sublist (opened :: name :: ts) :=
      (List.sublist_cons_self name ts).cons_cons opened
    have hread : ∀ {result}, Follows ts (fun t rest => Spread (opened :: ts) rest [t]) result →
        Follows (name :: ts) (fun t rest => Spread (opened :: name :: ts) rest [t]) result := fun h =>
      (h.later (List.suffix_cons name ts)).weaken fun t rest ht => ht.later hsub.subset
    have hts := hts.sublist hsub
    rw [readDirective]
    split
    · exact .error
    split
    · exact hread (follows_readIf hbody hts)
    split
    · exact hread (follows_readList hbody hts)
    split
    · exact hread (follows_readAssignment hbody hts)
    split
    · exact hread (follows_readDefinition hbody hts)
    split
    · exact hread (follows_readInclusion hts)
    split <;> exact .error

theorem follows_readElement (hbody : Spreads body) (hts : InOrder ts) :
    Follows ts (fun t rest => Spread ts rest [t]) (readElement source body ts) := by
  cases ts with
  | nil => exact .error
  | cons t rest =>
    have hrest := List.suffix_cons t rest
    have hmarked : ∀ {result}, Follows (rest.drop 1)
        (fun u left => Spread (t :: rest.drop 1) left [u]) result →
        Follows (t :: rest) (fun u left => Spread (t :: rest) left [u]) result := fun h =>
      (h.later ((List.drop_suffix 1 rest).trans hrest)).weaken fun u left hu =>
        hu.later ((List.drop_sublist 1 rest).cons_cons t).subset
    have hmark : InOrder (t :: rest.drop 1) := hts.sublist ((List.drop_sublist 1 rest).cons_cons t)
    rw [readElement]
    split
    · next hkind =>
      obtain ⟨hvalue, hlines⟩ := (hts.placed t List.mem_cons_self).text hkind
      have hopened : t.kind ≠ .eof := by
        rw [hkind]
        exact TokenKind.noConfusion
      refine .ok hrest (spread_token hts hopened
        ⟨Kind.noConfusion, fun trimmed h => hvalue (Kind.text.inj h).1⟩ fun text h => ?_)
      rw [← (Kind.text.inj h).1]
      exact hlines
    · next hkind =>
      have hopened : t.kind ≠ .eof := by
        rw [hkind]
        exact TokenKind.noConfusion
      have htag : (Kind.comment t.value).IsTag := trivial
      exact .ok hrest (spread_token hts hopened htag.solid fun text h => absurd h (htag.ne_text text false))
    · split
      · exact hmarked (follows_readDirective hbody hmark)
      · exact hmarked (follows_readCall hmark)
      · exact (follows_readInterpolation hts).later hrest
    · exact .error

/-- The elements of a body stand one after the other, with their spans nested. -/
theorem spreads_readBody (bound : Nat) : Spreads (readBody source bound) := by
  induction bound with
  | zero => exact fun ts _ => .ok List.suffix_rfl spread_nil
  | succ bound ih =>
    intro ts hts
    rw [readBody]
    split
    · exact .ok List.suffix_rfl spread_nil
    · refine (follows_readElement ih hts).bind fun element mid hmid helement => ?_
      refine (ih mid (hts.suffix hmid)).bind fun elements rest hrest helements => ?_
      exact .ok List.suffix_rfl (helement.cons helements hmid hrest)

/-! ### Templates -/

theorem column_spanOf (hts : InOrder ts) : 0 ≤ (spanOf source ts).last.column := by
  unfold spanOf
  split
  · next last _ hlast =>
    have hmem := List.dropLast_subset ts (List.mem_of_getLast? hlast)
    exact Int.le_trans (by decide) (hts.placed last hmem).column
  · exact Int.le_refl 0

/-- What is read lies within the span of all tokens but the end of the input. -/
theorem Spread.inside_spanOf {front : List Token} {eof : Token} (h : Spread (front ++ [eof]) rest trees)
    (hts : InOrder (front ++ [eof])) (heof : eof.kind = .eof) (ht : t ∈ trees) :
    t.location.Inside (spanOf source (front ++ [eof])) := by
  obtain ⟨u, hu, hfirst⟩ := h.begins t ht
  obtain ⟨v, hv, hkind, hlast⟩ := (h.ends t ht).token
  have hv : v ∈ front := by
    rcases List.mem_append.1 hv with hv | hv
    · exact hv
    · exact absurd ((List.mem_singleton.1 hv) ▸ heof) hkind
  obtain ⟨init, final, rfl⟩ := (List.eq_nil_or_concat' front).resolve_left (List.ne_nil_of_mem hv)
  obtain ⟨first, tail, hhead⟩ := List.exists_cons_of_ne_nil (List.ne_nil_of_mem hu)
  have hspan : spanOf source (init ++ [final] ++ [eof]) = ⟨source, first.first, final.last⟩ := by
    rw [spanOf, List.dropLast_concat, List.getLast?_concat, hhead]
    rfl
  have hfinal : ¬ final.last.Before v.last := by
    rcases List.mem_append.1 hv with hv | hv
    · intro hbefore
      have horder := (List.pairwise_append.1 (List.pairwise_append.1 hts.order).1).2.2 v hv final
        (List.mem_singleton_self final)
      exact (hts.placed final (by simp)).order (hbefore.trans horder)
    · rw [List.mem_singleton.1 hv]
      exact Position.not_before_self _
  rw [hspan]
  refine ⟨?_, hlast ▸ hfinal⟩
  rw [hfirst]
  rw [hhead] at hts hu
  exact hts.not_before hu

/-- The spans of a template that is read nest. -/
theorem nested_of_parse {source : Source} {t : Tree} (h : Tree.parse source = .ok t) : Nested [t] := by
  obtain ⟨tokens, children, rest, htokens, hbody, -, rfl⟩ := exists_of_parse h
  have horder := Lexer.inOrder_tokensFrom htokens (by decide)
  obtain ⟨-, hspread⟩ := spreads_readBody tokens.length tokens horder children rest hbody
  obtain ⟨front, htokens, -⟩ := Lexer.readAs_tokensFrom htokens (show Lexer.Mode.At false .text from rfl)
    (show source.text.toList = [] ++ source.text.toList from rfl) rfl
  refine .cons ⟨column_spanOf horder, fun hsolid => absurd rfl hsolid.1, nofun⟩ (fun c hc =>
    ⟨hspread.solid c hc, ?_⟩) hspread.order
    hspread.nested .nil
  rw [htokens] at horder hspread ⊢
  exact hspread.inside_spanOf horder rfl hc

end Tree

end

end Stencil
