import Stencil.Proofs.Reading.Fragments
import Stencil.Proofs.Reading.Spans
import Mathlib.Data.List.Chain

/-! # What is read from which tokens

The texts of a template are its tokens of text in order, none lost and none read twice, and an interpolation
is what stands between two brackets. So what lies in a template is told by the tokens alone. -/

namespace Stencil

theorem Kind.IsTag.isText {kind : Kind} (h : kind.IsTag) : kind.isText = false := by
  cases kind with
  | text text trimmed => exact absurd rfl (h.ne_text text trimmed)
  | _ => rfl

/-- The tokens of text among some tokens. -/
def Token.texts (ts : List Token) : List Token := ts.filter (·.kind = .text)

/-- A token of text as an element. -/
def Token.textNode (source : Option Source) (t : Token) : Kind × Location :=
  (.text t.value false, ⟨source, t.first, t.last⟩)

/-- No two tokens of text stand side by side. -/
abbrev Token.Apart (ts : List Token) : Prop := ts.IsChain fun t u => t.kind = .text → u.kind ≠ .text

/-- Some tokens without the first of them, none of which is a text. -/
structure Token.Past (ts us : List Token) : Prop where
  suffix : us <:+ ts
  texts : Token.texts us = Token.texts ts

section
variable {ts us vs : List Token} {t : Token}

theorem Token.texts_cons_of_eq (h : t.kind = .text) (ts : List Token) : texts (t :: ts) = t :: texts ts :=
  List.filter_cons_of_pos (decide_eq_true h)

theorem Token.texts_cons_of_ne (h : t.kind ≠ .text) (ts : List Token) : texts (t :: ts) = texts ts :=
  List.filter_cons_of_neg fun hkind => h (of_decide_eq_true hkind)

theorem Token.texts_append_of_ne {front : List Token} (h : ∀ t ∈ front, t.kind ≠ .text) (ts : List Token) :
    texts (front ++ ts) = texts ts := by
  have hfront : texts front = [] :=
    List.filter_eq_nil_iff.2 fun t ht hkind => h t ht (of_decide_eq_true hkind)
  rw [texts, List.filter_append]
  exact (congrArg (· ++ texts ts) hfront).trans (List.nil_append _)

theorem Token.Past.refl (ts : List Token) : Past ts ts := ⟨List.suffix_rfl, rfl⟩

theorem Token.Past.trans (h : Past ts us) (h' : Past us vs) : Past ts vs :=
  ⟨h'.suffix.trans h.suffix, h'.texts.trans h.texts⟩

theorem Token.Past.cons (h : t.kind ≠ .text) (ts : List Token) : Past (t :: ts) ts :=
  ⟨List.suffix_cons t ts, (texts_cons_of_ne h ts).symm⟩

theorem Token.Past.drop_one (h : nextKind ts ≠ .text) : Past ts (ts.drop 1) := by
  cases ts with
  | nil => exact .refl []
  | cons t ts => exact .cons h ts

theorem TokenKind.Inside.ne_text {kind : TokenKind} (h : kind.Inside) : kind ≠ .text := by
  rintro rfl
  exact absurd h (by decide)

end

namespace Tree

/-- What the elements of some trees are and where they stand, in the order of the document. -/
def nodes (trees : List Tree) : List (Kind × Location) := (preorders trees).map fun t => (t.kind, t.location)

/-- The texts among the elements of some trees. -/
def textNodes (trees : List Tree) : List (Kind × Location) := (nodes trees).filter (·.1.isText)

/-- Trees in which no two texts stand side by side. -/
inductive Apart : List Tree → Prop
  | nil : Apart []
  | cons {t : Tree} {ts : List Tree} (body : Apart t.children)
    (next : t.kind.isText = true → ∀ u ∈ ts.head?, u.kind.isText = false)
    (tail : Apart ts) : Apart (t :: ts)

/-- A place between the brackets around the tokens of an expression. -/
def Bracketed (source : Option Source) (ts : List Token) (e : Expr) (l : Location) : Prop :=
  ∃ opening inner closing, opening :: (inner ++ [closing]) <:+: ts ∧ opening.kind = .opening ∧
    closing.kind = .closing ∧
    Expr.Spelled source 0 inner e ∧ l = ⟨source, opening.first, closing.last⟩

/-- Trees that were read from some tokens, up to those that are left: the texts are the tokens of text, and
the interpolations stand between brackets. -/
structure Gathered (source : Option Source) (ts rest : List Token) (trees : List Tree) : Prop where
  texts : textNodes trees ++ (Token.texts rest).map (Token.textNode source) =
    (Token.texts ts).map (Token.textNode source)
  interpolations : ∀ e l, (.interpolation e, l) ∈ nodes trees → Bracketed source ts e l
  apart : Apart trees
  head : ∀ t ∈ trees.head?, t.kind.isText = true → ∃ u ∈ ts.head?, u.kind = .text

section
variable {source : Option Source} {ts us mid rest : List Token} {t : Tree} {trees trees' children : List Tree}

/-! ### Elements of trees -/

@[simp] theorem nodes_nil : nodes [] = [] := rfl

theorem nodes_cons (t : Tree) (trees : List Tree) :
    nodes (t :: trees) = (t.kind, t.location) :: (nodes t.children ++ nodes trees) := by
  have hpreorder : t.preorder = t :: preorders t.children := by cases t; rfl
  simp only [nodes, preorders, hpreorder, List.cons_append, List.map_cons, List.map_append]

theorem nodes_append (trees trees' : List Tree) : nodes (trees ++ trees') = nodes trees ++ nodes trees' := by
  induction trees with
  | nil => rfl
  | cons t trees ih => rw [List.cons_append, nodes_cons, nodes_cons, ih, List.cons_append, List.append_assoc]

theorem textNodes_append (trees trees' : List Tree) :
    textNodes (trees ++ trees') = textNodes trees ++ textNodes trees' := by
  rw [textNodes, nodes_append, List.filter_append]
  rfl

theorem textNodes_singleton (t : Tree) :
    textNodes [t] = (if t.kind.isText = true then [(t.kind, t.location)] else []) ++
    textNodes t.children := by
  rw [textNodes, nodes_cons, nodes_nil, List.append_nil, List.filter_cons]
  split <;> rfl

/-! ### Gathering -/

theorem apart_singleton (h : Apart t.children) : Apart [t] := .cons h (fun _ _ hnone => by cases hnone) .nil

theorem Bracketed.later {e : Expr} {l : Location} (h : Bracketed source us e l) (hsub : us <:+: ts) :
    Bracketed source ts e l := by
  obtain ⟨opening, inner, closing, hinfix, hrest⟩ := h
  exact ⟨opening, inner, closing, hinfix.trans hsub, hrest⟩

theorem gathered_nil (h : Token.texts rest = Token.texts ts) : Gathered source ts rest [] :=
  ⟨by rw [h]; rfl, nofun, .nil, nofun⟩

/-- An element without text of its own, around some others. -/
theorem Gathered.around (h : Gathered source us mid children) (hus : Token.Past ts us)
    (hrest : Token.texts rest = Token.texts mid) (hchildren : t.children = children) (hkind : t.kind.IsTag)
    (hown : ∀ e, t.kind = .interpolation e → Bracketed source ts e t.location) :
    Gathered source ts rest [t] := by
  have hnone := hkind.isText
  subst hchildren
  refine ⟨?_, fun e l hmem => ?_, apart_singleton h.apart, ?_⟩
  · rw [textNodes_singleton, hnone, hrest, ← hus.texts]
    exact h.texts
  · rw [nodes_cons, nodes_nil, List.append_nil] at hmem
    rcases List.mem_cons.1 hmem with hself | hmem
    · obtain ⟨hkindEq, hlocation⟩ := Prod.mk.inj hself
      exact hlocation ▸ hown e hkindEq.symm
    · exact (h.interpolations e l hmem).later hus.suffix.isInfix
  · rintro _ ⟨⟩ htext
    rw [hnone] at htext
    cases htext

/-- One element after another. -/
theorem Gathered.cons (h : Gathered source ts mid [t]) (h' : Gathered source mid rest trees)
    (hmid : mid <:+ ts) (hnext : t.kind.isText = true → ∀ u ∈ mid.head?, u.kind ≠ .text) :
    Gathered source ts rest (t :: trees) := by
  refine ⟨?_, fun e l hmem => ?_, ?_, h.head⟩
  · rw [← List.singleton_append, textNodes_append, List.append_assoc, h'.texts, h.texts]
  · rw [← List.singleton_append, nodes_append] at hmem
    rcases List.mem_append.1 hmem with hmem | hmem
    · exact h.interpolations e l hmem
    · exact (h'.interpolations e l hmem).later hmid.isInfix
  · cases h.apart with
    | cons body =>
      refine .cons body (fun htext u hu => ?_) h'.apart
      by_contra hother
      obtain ⟨v, hv, hkind⟩ := h'.head u hu (Bool.of_not_eq_false hother)
      exact hnext htext v hv hkind

end

/-! ### Readers that pass over no text -/

section
variable {α : Type} {source : Option Source} {ts us rest : List Token} {opened : Token}
  {body : Reader (List Tree)}

/-- No text is among the tokens that are taken. -/
abbrev Skips (ts : List Token) (result : Except ParseError (α × List Token)) : Prop :=
  Follows ts (fun _ rest => Token.texts rest = Token.texts ts) result

theorem Skips.past {result : Except ParseError (α × List Token)} (h : Skips us result)
    (hus : Token.Past ts us) : Skips ts result :=
  (h.later hus.suffix).weaken fun _ _ hrest => hrest.trans hus.texts

theorem skips_expect {kind : TokenKind} (hkind : kind ≠ .text) (ts : List Token) :
    Skips ts (expect kind ts) := by
  intro t rest h
  obtain ⟨rfl, ht⟩ := expect_eq_ok h
  exact ⟨List.suffix_cons t rest, (Token.texts_cons_of_ne (ht ▸ hkind) rest).symm⟩

theorem skips_expectName (ts : List Token) : Skips ts (expectName ts) := by
  cases ts with
  | nil => exact .error
  | cons t ts =>
    rw [expectName]
    split
    · next h => exact .ok (List.suffix_cons t ts) (Token.texts_cons_of_ne (by rw [h]; decide) ts).symm
    · split <;> exact .error

theorem skips_read (source : Option Source) (ts : List Token) : Skips ts (Expr.read source ts) := by
  intro e rest h
  obtain ⟨front, rfl, hfront⟩ := Expr.spelled_read h
  exact ⟨List.suffix_append front rest,
    (Token.texts_append_of_ne (fun t ht => (hfront.inside t ht).ne_text) rest).symm⟩

theorem skips_readCondition (source : Option Source) (branch : Branch) (ts : List Token) :
    Skips ts (readCondition source branch ts) := by
  cases branch with
  | otherwise => exact .ok List.suffix_rfl rfl
  | main | elseIf => exact (skips_read source ts).bind fun e rest _ hrest => .ok List.suffix_rfl hrest

theorem skips_readClosing (block : Block) (opened : Token) (ts : List Token) :
    Skips ts (readClosing block opened ts) := by
  unfold readClosing
  split
  · exact .error
  refine (skips_expect (by decide) ts).bind fun _ rest _ hrest => ?_
  refine (skips_expect (by decide) rest).bind fun _ rest' _ hrest' => ?_
  have hall := hrest'.trans hrest
  cases rest' with
  | nil => exact .error
  | cons name rest' =>
    dsimp only
    split
    · next hname =>
      have hpast : Token.Past (name :: rest') rest' := .cons (by rw [hname.1]; decide) rest'
      refine .later ((skips_expect (by decide) rest').bind fun close left _ hleft => ?_) hpast.suffix
      exact .ok List.suffix_rfl (hleft.trans (hpast.texts.trans hall))
    · exact .error

theorem skips_readParameters (read : List String) (ts : List Token) : Skips ts (readParameters read ts) := by
  induction ts generalizing read with
  | nil => exact .ok List.suffix_rfl rfl
  | cons t ts ih =>
    rw [readParameters]
    split
    · exact .ok List.suffix_rfl rfl
    · rw [expectName]
      split
      · next hname =>
        simp only [bind, Except.bind]
        split
        · exact .error
        · exact Skips.past (ih _) (.cons (by rw [hname]; decide) ts)
      · split <;> exact .error

theorem skips_readArguments (source : Option Source) (bound : Nat) (ts : List Token) :
    Skips ts (readArguments source bound ts) := by
  induction bound generalizing ts with
  | zero => exact .error
  | succ bound ih =>
    rw [readArguments]
    refine (skips_read source ts).bind fun e rest _ hrest => ?_
    dsimp only
    split
    · next hcomma =>
      have hpast : Token.Past rest (rest.drop 1) := .drop_one (by rw [hcomma]; decide)
      refine .later ((ih (rest.drop 1)).bind fun es left _ hleft => ?_) hpast.suffix
      exact .ok List.suffix_rfl (hleft.trans (hpast.texts.trans hrest))
    · exact .ok List.suffix_rfl hrest

theorem past_branch {next : Branch} (h : branchAhead? ts = some next) : Token.Past ts (ts.drop 3) := by
  unfold branchAhead? at h
  split at h
  · next a b c rest =>
    split at h
    · next hkinds =>
      obtain ⟨ha, hb, hc⟩ := hkinds
      have hpast : Token.Past (b :: c :: rest) rest :=
        .trans (.cons (by rw [hb]; decide) _) (.cons (by rw [hc]; decide) rest)
      exact .trans (.cons (by rw [ha]; decide) _) hpast
    · cases h
  · cases h

/-! ### Bodies -/

/-- What a body is read from is gathered in it. -/
abbrev Gathers (source : Option Source) (body : Reader (List Tree)) : Prop :=
  ∀ ts, Token.Apart ts → Follows ts (fun trees rest => Gathered source ts rest trees) (body ts)

/-- What is read is an element without text of its own. -/
abbrev GathersTag (source : Option Source) (ts us : List Token)
    (result : Except ParseError (Tree × List Token)) : Prop :=
  Follows us (fun t rest => Gathered source ts rest [t] ∧ t.kind.isText = false) result

theorem gathers_tag (kind : Kind) (hkind : kind.IsTag) (hinterpolation : ∀ e, kind ≠ .interpolation e)
    (hus : Token.Past ts us) :
    GathersTag source ts us (do
      let (close, rest) ← expect .closing us
      return (plain kind source opened.first close.last [], rest)) := by
  refine (skips_expect (by decide) us).bind fun close rest hrest hskipped =>
    .ok List.suffix_rfl ⟨?_, hkind.isText⟩
  exact (gathered_nil hskipped).around hus rfl rfl hkind fun e h => absurd h (hinterpolation e)

/-- The rest of a tag with a body after it, up to the closing tag. -/
theorem gathers_block (kind : Kind) (hkind : kind.IsTag) (hinterpolation : ∀ e, kind ≠ .interpolation e)
    (block : Block) (hbody : Gathers source body) (hts : Token.Apart ts) (hus : Token.Past ts us) :
    GathersTag source ts us (do
      let (_, rest) ← expect .closing us
      let (children, rest) ← body rest
      let (last, rest) ← readClosing block opened rest
      return (plain kind source opened.first last children, rest)) := by
  refine (skips_expect (by decide) us).bind fun _ inner hinner htexts => ?_
  have hinner : Token.Past ts inner := hus.trans ⟨hinner, htexts⟩
  refine (hbody inner (hts.suffix hinner.suffix)).bind fun children mid _ hchildren => ?_
  refine (skips_readClosing block opened mid).bind fun last rest _ hrest =>
    .ok List.suffix_rfl ⟨?_, hkind.isText⟩
  exact hchildren.around hinner hrest rfl hkind fun e h => absurd h (hinterpolation e)

/-- The branches of an if block, from the condition of the first one to before the closing tag. -/
theorem gathers_readBranches (hbody : Gathers source body) (bound : Nat) {branch : Branch} {header : Token}
    (hts : Token.Apart ts) :
    Follows ts (fun read rest => Gathered source ts rest read.1 ∧ ∀ t ∈ read.1, t.kind.isText = false)
      (readBranches source body opened bound branch header ts) := by
  induction bound generalizing branch header ts with
  | zero => exact .error
  | succ bound ih =>
    rw [readBranches_succ]
    refine (skips_readCondition source branch ts).bind fun condition tag htag hcondition => ?_
    refine (skips_expect (by decide) tag).bind fun close inner hinner hclose => ?_
    have hinner : Token.Past ts inner := .trans ⟨htag, hcondition⟩ ⟨hinner, hclose⟩
    refine (hbody inner (hts.suffix hinner.suffix)).bind fun children mid hmid hchildren => ?_
    have hmid := hmid.trans hinner.suffix
    have hbranch : ∀ {rest l}, Token.texts rest = Token.texts mid →
        Gathered source ts rest [⟨.conditional branch condition, l, true, children⟩] := fun hrest =>
      hchildren.around hinner hrest rfl trivial nofun
    dsimp only
    split
    · next next hnext =>
      split
      · exact .error
      · have hdrop := past_branch hnext
        have hrest := hdrop.suffix.trans hmid
        refine .later ((ih (hts.suffix hrest)).bind fun read rest _ hread => ?_) hdrop.suffix
        refine .ok List.suffix_rfl ⟨?_, List.forall_mem_cons.2 ⟨rfl, hread.2⟩⟩
        exact (hbranch hdrop.texts).cons hread.1 hrest nofun
    · refine (skips_readClosing .conditional opened mid).bind fun last rest _ hrest => ?_
      exact .ok List.suffix_rfl ⟨hbranch hrest, List.forall_mem_singleton.2 rfl⟩

theorem gathers_readIf (hbody : Gathers source body) (hts : Token.Apart ts) (hus : Token.Past ts us) :
    GathersTag source ts us (readIf source body opened us) := by
  refine (gathers_readBranches hbody us.length (hts.suffix hus.suffix)).bind fun read rest _ hread =>
    .ok List.suffix_rfl ⟨?_, rfl⟩
  exact hread.1.around hus rfl rfl trivial nofun

theorem gathers_readList (hbody : Gathers source body) (hts : Token.Apart ts) (hus : Token.Past ts us) :
    GathersTag source ts us (readList source body opened us) := by
  refine (skips_read source us).bind fun items us₁ hus₁ htexts₁ => ?_
  refine (skips_expect (by decide) us₁).bind fun _ us₂ hus₂ htexts₂ => ?_
  refine (skips_expectName us₂).bind fun item us₃ hus₃ htexts₃ => ?_
  exact gathers_block (.list items item) trivial nofun .list hbody hts
    (hus.trans (.trans ⟨hus₁, htexts₁⟩ (.trans ⟨hus₂, htexts₂⟩ ⟨hus₃, htexts₃⟩)))

theorem gathers_readAssignment (hbody : Gathers source body) (hts : Token.Apart ts) (hus : Token.Past ts us) :
    GathersTag source ts us (readAssignment source body opened us) := by
  refine (skips_expectName us).bind fun target us₁ hus₁ htexts₁ => ?_
  have hus₁ : Token.Past ts us₁ := hus.trans ⟨hus₁, htexts₁⟩
  dsimp only
  split
  · next hequal =>
    have hdrop : Token.Past us₁ (us₁.drop 1) := .drop_one (by rw [hequal]; decide)
    refine .later ((skips_read source (us₁.drop 1)).bind fun value us₂ hus₂ htexts₂ => ?_) hdrop.suffix
    exact gathers_tag (.assignment target value) trivial nofun (hus₁.trans (hdrop.trans ⟨hus₂, htexts₂⟩))
  · exact gathers_block (.capture target) trivial nofun .assign hbody hts hus₁

theorem gathers_readDefinition (hbody : Gathers source body) (hts : Token.Apart ts) (hus : Token.Past ts us) :
    GathersTag source ts us (readDefinition source body opened us) := by
  refine (skips_expectName us).bind fun name us₁ hus₁ htexts₁ => ?_
  refine (skips_readParameters [] us₁).bind fun parameters us₂ hus₂ htexts₂ => ?_
  exact gathers_block (.definition name parameters) trivial nofun .definition hbody hts
    (hus.trans (.trans ⟨hus₁, htexts₁⟩ ⟨hus₂, htexts₂⟩))

theorem gathers_readInclusion (hus : Token.Past ts us) :
    GathersTag source ts us (readInclusion source opened us) :=
  (skips_read source us).bind fun path _ hrest htexts =>
    gathers_tag (.inclusion path) trivial nofun (hus.trans ⟨hrest, htexts⟩)

theorem gathers_readCall (hus : Token.Past ts us) : GathersTag source ts us (readCall source opened us) := by
  refine (skips_expectName us).bind fun name us₁ hus₁ htexts₁ => ?_
  have hus₁ : Token.Past ts us₁ := hus.trans ⟨hus₁, htexts₁⟩
  dsimp only
  split
  · exact gathers_tag (.call name []) trivial nofun hus₁
  · exact (skips_readArguments source us₁.length us₁).bind fun arguments us₂ hus₂ htexts₂ =>
      gathers_tag (.call name arguments) trivial nofun (hus₁.trans ⟨hus₂, htexts₂⟩)

theorem gathers_readDirective (hbody : Gathers source body) (hts : Token.Apart ts) (hus : Token.Past ts us) :
    GathersTag source ts us (readDirective source body opened us) := by
  cases us with
  | nil => exact .error
  | cons name us =>
    rw [readDirective]
    split
    · exact .error
    · next hname =>
      have hname : Token.Past (name :: us) us := .cons (by rw [not_not.1 hname]; decide) us
      have hus := hus.trans hname
      have hread : ∀ {result}, GathersTag source ts us result → GathersTag source ts (name :: us) result :=
        fun h => h.later hname.suffix
      split
      · exact hread (gathers_readIf hbody hts hus)
      split
      · exact hread (gathers_readList hbody hts hus)
      split
      · exact hread (gathers_readAssignment hbody hts hus)
      split
      · exact hread (gathers_readDefinition hbody hts hus)
      split
      · exact hread (gathers_readInclusion hus)
      split <;> exact .error

/-- An interpolation stands between the brackets around its tokens. -/
theorem gathers_readInterpolation (hopened : opened.kind = .opening) :
    GathersTag source (opened :: ts) ts (readInterpolation source opened ts) := by
  intro t rest h
  obtain ⟨⟨value, us⟩, hread, hclosed⟩ := exists_of_bind_eq_ok h
  obtain ⟨⟨close, us'⟩, hclose, hend⟩ := exists_of_bind_eq_ok hclosed
  obtain ⟨front, rfl, hfront⟩ := Expr.spelled_read hread
  obtain ⟨rfl, hkind⟩ := expect_eq_ok hclose
  cases hend
  have hclosed : Token.Past (close :: rest) rest := .cons (by rw [hkind]; decide) rest
  have hinner : Token.Past (front ++ close :: rest) rest :=
    .trans ⟨List.suffix_append front _,
      (Token.texts_append_of_ne (fun t ht => (hfront.inside t ht).ne_text) _).symm⟩ hclosed
  refine ⟨hinner.suffix, ?_, rfl⟩
  refine (gathered_nil hinner.texts).around (.cons (by rw [hopened]; decide) _) rfl rfl trivial ?_
  rintro e ⟨⟩
  exact ⟨opened, front, close, ⟨[], rest, by simp⟩, hopened, hkind, hfront, rfl⟩

theorem gathers_readElement (hbody : Gathers source body) (hts : Token.Apart ts) :
    Follows ts (fun t rest => Gathered source ts rest [t] ∧
      (t.kind.isText = true → ∀ v ∈ rest.head?, v.kind ≠ .text)) (readElement source body ts) := by
  cases ts with
  | nil => exact .error
  | cons t ts =>
    have hrest := List.suffix_cons t ts
    have htag : ∀ {us result}, us <:+ t :: ts → GathersTag source (t :: ts) us result →
        Follows (t :: ts) (fun u rest => Gathered source (t :: ts) rest [u] ∧
          (u.kind.isText = true → ∀ v ∈ rest.head?, v.kind ≠ .text)) result :=
      fun hus h => (h.later hus).weaken fun u rest hu =>
        ⟨hu.1, fun htext => by rw [hu.2] at htext; cases htext⟩
    rw [readElement]
    split
    · next hkind =>
      refine .ok hrest ⟨⟨?_, ?_, apart_singleton .nil, fun _ _ _ => ⟨t, rfl, hkind⟩⟩, fun _ => ?_⟩
      · rw [Token.texts_cons_of_eq hkind]
        rfl
      · simp [nodes_cons, plain]
      · cases ts with
        | nil => simp
        | cons u ts => simpa using (List.isChain_cons_cons.1 hts).1 hkind
    · next hkind =>
      have hpast : Token.Past (t :: ts) ts := .cons (by rw [hkind]; decide) ts
      have hcomment : ∀ e, Kind.comment t.value ≠ .interpolation e := fun e => Kind.noConfusion
      exact htag hrest (.ok List.suffix_rfl
        ⟨(gathered_nil rfl).around hpast rfl rfl trivial fun e h => absurd h (hcomment e), rfl⟩)
    · next hkind =>
      have hpast : Token.Past (t :: ts) ts := .cons (by rw [hkind]; decide) ts
      have hmark : nextKind ts ≠ .text → Token.Past (t :: ts) (ts.drop 1) :=
        fun h => hpast.trans (.drop_one h)
      split
      · next hhash =>
        have hpast := hmark (by rw [hhash]; decide)
        exact htag hpast.suffix (gathers_readDirective hbody hts hpast)
      · next hat =>
        have hpast := hmark (by rw [hat]; decide)
        exact htag hpast.suffix (gathers_readCall hpast)
      · exact htag hrest (gathers_readInterpolation hkind)
    · exact .error

/-- What a body is read from is gathered in it, whatever its elements. -/
theorem gathers_readBody (bound : Nat) : Gathers source (readBody source bound) := by
  induction bound with
  | zero => exact fun ts _ => .ok List.suffix_rfl (gathered_nil rfl)
  | succ bound ih =>
    intro ts hts
    rw [readBody]
    split
    · exact .ok List.suffix_rfl (gathered_nil rfl)
    · refine (gathers_readElement ih hts).bind fun element mid hmid helement => ?_
      refine (ih mid (hts.suffix hmid)).bind fun elements rest hrest helements => ?_
      exact .ok List.suffix_rfl (helement.1.cons helements hmid helement.2)

/-- A body that begins with a text has it as its first element. -/
theorem exists_of_readBody_text {bound : Nat} {children : List Tree} (htext : t.kind = .text)
    (h : readBody source (bound + 1) (t :: ts) = .ok (children, rest)) :
    ∃ elements, children = plain (.text t.value false) source t.first t.last [] :: elements := by
  have hkind : nextKind (t :: ts) = .text := htext
  have hbranch : branchAhead? (t :: ts) = none := by
    unfold branchAhead?
    split
    · next a b c rest heq =>
      obtain ⟨rfl, -⟩ := List.cons.inj heq
      simp [htext]
    · rfl
  have hgoes : ¬ (nextKind (t :: ts) = .eof || endsBody (t :: ts)) = true := by
    simp [endsBody, hkind, hbranch]
  rw [readBody, if_neg hgoes] at h
  obtain ⟨⟨element, mid⟩, helement, hmid⟩ := exists_of_bind_eq_ok h
  obtain ⟨⟨elements, last⟩, helements, hend⟩ := exists_of_bind_eq_ok hmid
  rw [readElement, htext] at helement
  cases helement
  cases hend
  exact ⟨elements, rfl⟩

end

end Tree

end Stencil
