import Stencil.Proofs.Cleanup.Meaning
import Stencil.Proofs.Execution.Regrouping
import Stencil.Proofs.Reading.Rereading
import Stencil.Render

/-! # Canonical forms

What a finished template prints is a template again, and unless texts meet in it so that they open a tag,
that template renders like the one it was printed from. -/

namespace Stencil

open Execution Shape

/-! ### What cleanup leaves can be written -/

namespace Tree

theorem kind_written {k k' : Kind} (h : k.Like Eq k') (hwritten : k.Written) : k'.Written := by
  cases h with
  | interpolation he | list _ he | assignment _ he | inclusion he => rwa [← he]
  | conditional branch hc =>
    cases hc with
    | none => exact hwritten
    | some he => rwa [← he]
  | call name hes =>
    rw [List.forall₂_eq_eq_eq] at hes
    rwa [← hes]
  | _ => exact hwritten

theorem Branches.sameRun {branch : Branch} {ts ts' : List Tree} (h : Branches branch ts)
    (hsame : SameRun true ts ts') :
    Branches branch ts' := by
  induction h generalizing ts' with
  | last hkind =>
    cases hsame with
    | cons head _ tail =>
      cases tail
      obtain ⟨condition', hkind'⟩ := (head.kind.conditional_iff _).2 ⟨_, hkind⟩
      exact .last hkind'
  | more hkind hbranch hnext _ ih =>
    cases hsame with
    | cons head _ tail =>
      obtain ⟨condition', hkind'⟩ := (head.kind.conditional_iff _).2 ⟨_, hkind⟩
      exact .more hkind' hbranch hnext (ih tail)

theorem eq_nil_of_sameRun {branches : Bool} {ts' : List Tree} (h : SameRun branches [] ts') : ts' = [] := by
  generalize hts : ([] : List Tree) = ts at h
  cases h with
  | nil => rfl
  | cons => cases hts
  | rewrite step _ =>
    subst hts
    cases step

theorem Written.leavesOut {ts us : List Tree} (hwritten : Written false ts) (h : LeavesOut ts us) :
    Written false us := by
  cases hwritten with
  | nil => cases h
  | @cons _ t ts kind leaf block outside inside body tail =>
    cases h with
    | comment | emptyText => exact tail
    | sequence hkind =>
      rw [hkind] at kind
      exact kind.elim
    | @onlyBranch _ b hkind hchildren branch condition hbranch =>
      have hbranches := block hkind
      rw [hkind, hchildren] at body
      rw [hchildren] at hbranches
      obtain ⟨b', bs, condition', hcons, hmain⟩ := hbranches.exists_cons
      obtain ⟨rfl, rfl⟩ := List.cons.inj hcons
      cases body with
      | cons kind leaf block _ _ body _ =>
        refine .cons kind leaf block (fun _ branch' condition'' hkind' => ?_) nofun body tail
        rw [hmain] at hkind'
        cases hkind'
        rfl

theorem Written.sameRun {branches : Bool} {ts ts' : List Tree} (h : SameRun branches ts ts')
    (hwritten : Written branches ts) :
    Written branches ts' := by
  induction h with
  | nil => exact .nil
  | @cons branches t t' ts ts' head body tail ihBody ihTail =>
    cases hwritten with
    | cons kind leaf block outside inside bodyWritten tailWritten =>
      have hlike := head.kind
      have hblock := hlike.isIfBlock
      have hbody := ihBody bodyWritten
      rw [← hblock] at hbody
      refine .cons (kind_written hlike kind) (fun hnobody => ?_) (fun hkind => ?_)
        (fun hfalse branch condition hkind => ?_)
        (fun htrue => ?_) hbody (ihTail tailWritten)
      · rw [leaf (hlike.hasBody.symm.trans hnobody)] at body
        exact eq_nil_of_sameRun body
      · have hkind := hlike.ifBlock_iff.1 hkind
        rw [hkind] at body
        exact (block hkind).sameRun body
      · obtain ⟨condition', hkind'⟩ := (hlike.conditional_iff branch).1 ⟨condition, hkind⟩
        exact outside hfalse branch condition' hkind'
      · obtain ⟨branch, condition, hkind⟩ := inside htrue
        exact ⟨branch, (hlike.conditional_iff branch).2 ⟨condition, hkind⟩⟩
  | rewrite step _ ih => exact ih (hwritten.leavesOut step)

end Tree

/-! ### The trees of an arena -/

section
variable {a : Arena} {texts : ElementId → String} {ss : List Shape} {ts : List Tree}

theorem kind_written_withText {kind : Kind} (h : kind.Written) (text : String) :
    (kind.withText text).Written := by
  cases kind <;> exact h

theorem Shape.Holds.branches {branch : Branch} (h : Holds a ss ts) (hbranches : Tree.Branches branch ts)
    (inBlock : Bool) : Tree.Branches branch (trees a texts inBlock ss) := by
  induction hbranches generalizing ss with
  | last hkind =>
    cases ss with
    | nil => simp only [Holds] at h
    | cons s ss =>
      obtain ⟨id, parts⟩ := s
      cases ss with
      | nil =>
        rw [Holds] at h
        rw [trees, trees_nil]
        exact .last (Kind.withText_eq_conditional.2 (h.1.trans hkind))
      | cons s ss => obtain ⟨id', parts'⟩ := s; simp only [Holds, and_false] at h
  | more hkind hbranch hnext _ ih =>
    cases ss with
    | nil => simp only [Holds] at h
    | cons s ss =>
      obtain ⟨id, parts⟩ := s
      rw [Holds] at h
      rw [trees]
      exact .more (Kind.withText_eq_conditional.2 (h.1.trans hkind)) hbranch hnext (ih h.2.2.2)

/-- Other texts change nothing about what can be written. -/
theorem Shape.Holds.written {branches : Bool} (h : Holds a ss ts)
    (hwritten : Tree.Written branches ts) (inBlock : Bool) :
    Tree.Written branches (trees a texts inBlock ss) := by
  induction ss using forest_induction generalizing ts branches inBlock with
  | nil =>
    rw [trees_nil]
    exact .nil
  | cons id parts ss ihParts ih =>
    cases ts with
    | nil => simp only [Holds] at h
    | cons t ts =>
      rw [Holds] at h
      obtain ⟨hkind, -, hparts, hss⟩ := h
      cases hwritten with
      | cons kind leaf block outside inside body tail =>
        rw [← hkind] at kind leaf block outside inside body
        rw [trees]
        refine .cons (kind_written_withText kind _) (fun hnobody => ?_) (fun hblock => ?_)
          (fun hfalse branch condition h =>
            outside hfalse branch condition (Kind.withText_eq_conditional.1 h)) (fun htrue => ?_) ?_
          (ih hss tail inBlock)
        · rw [Kind.hasBody_withText] at hnobody
          rw [leaf hnobody] at hparts
          cases parts with
          | nil => rw [trees_nil]
          | cons s parts => simp only [Holds] at hparts
        · exact hparts.branches (block (Kind.withText_eq_ifBlock.1 hblock)) _
        · obtain ⟨branch, condition, hkind⟩ := inside htrue
          exact ⟨branch, condition, Kind.withText_eq_conditional.2 hkind⟩
        · rw [Kind.isIfBlock_withText]
          exact ihParts hparts body _

theorem placed_trees (inBlock : Bool) : Tree.Placed inBlock (trees a texts inBlock ss) := by
  induction ss using forest_induction generalizing inBlock with
  | nil =>
    rw [trees_nil, Tree.Placed]
    trivial
  | cons id parts ss ihParts ih =>
    rw [trees, Tree.Placed, Kind.isIfBlock_withText]
    exact ⟨rfl, ihParts _, ih _⟩

/-- A tree that was loaded and one read off its arena with the same texts run alike. -/
theorem Shape.Holds.sameRun {branches : Bool} (h : Holds a ss ts)
    (htexts : ∀ x ∈ ids ss, (a.get x).kind.withText (texts x) = (a.get x).kind) (inBlock : Bool) :
    SameRun branches ts (trees a texts inBlock ss) := by
  induction ss using forest_induction generalizing ts branches inBlock with
  | nil =>
    cases ts with
    | nil =>
      rw [trees_nil]
      exact .nil
    | cons t ts => simp only [Holds] at h
  | cons id parts ss ihParts ih =>
    cases ts with
    | nil => simp only [Holds] at h
    | cons t ts =>
      rw [Holds] at h
      obtain ⟨hkind, hlocation, hparts, hss⟩ := h
      obtain ⟨hself, htextsParts, htextsRest⟩ := forall_mem_ids_cons.1 htexts
      rw [trees, hself]
      refine .cons ⟨?_, fun _ => hlocation.symm⟩ (ihParts hparts htextsParts _) (ih hss htextsRest _)
      rw [hkind]
      exact Kind.Like.self (fun _ => rfl) t.kind

end

/-! ### Trees that were read back -/

namespace Tree

theorem says_of_unplaceds {before : List Char} {us vs : List Tree} (h : unplaceds us = textOf before ++ vs) :
    ∃ us₁ us₂, us = us₁ ++ us₂ ∧ Says before us₁ ∧ unplaceds us₂ = vs := by
  by_cases hnone : before = []
  · rw [textOf, if_pos hnone, List.nil_append] at h
    exact ⟨[], us, rfl, hnone ▸ .nil, h⟩
  · rw [textOf, if_neg hnone] at h
    cases us with
    | nil => cases h
    | cons u us =>
      rw [unplaceds_cons, unplaced_eq] at h
      obtain ⟨hu, hus⟩ := List.cons.inj h
      obtain ⟨hkind, -, -, hchildren⟩ := Tree.mk.inj hu
      cases hform : u.kind <;> rw [hform] at hkind <;> cases hkind
      have hone := Says.cons hform (eq_nil_of_unplaceds hchildren) .nil
      rw [String.toList_ofList, List.append_nil] at hone
      exact ⟨[u], us, rfl, hone, hus⟩

/-- An element that was read back amounts to the one that was printed, once its body does. A branch that
stood alone has come into an if block. -/
theorem regrouped_element {t u : Tree} (hin : t.inBlock = false)
    (hbody : ∀ {us : List Tree}, unplaceds us = rereadAfter [] t.children →
      Regrouped t.kind.isIfBlock us t.children)
    (hu : u.unplaced = t.reread) : Regrouped false [u] [t] := by
  obtain ⟨branch, condition, hkind⟩ | hbranch := t.kind.branch_or_ne
  · rw [reread_branch hkind, hin, if_neg Bool.false_ne_true, unplaced_eq] at hu
    obtain ⟨hblock, -, -, hchildren⟩ := Tree.mk.inj hu
    obtain ⟨v, hv, hsame⟩ := eq_singleton_of_unplaceds hchildren
    rw [unplaced_eq] at hsame
    obtain ⟨hform, -, -, hinner⟩ := Tree.mk.inj hsame
    obtain ⟨condition', hkind'⟩ := ((Kind.like_of_unplaced hform).conditional_iff branch).1 ⟨condition, hkind⟩
    have hsingle := Regrouped.single (Kind.like_of_unplaced hform) (hbody hinner)
    exact .rewrite (.leaves (.onlyBranch (Kind.eq_ifBlock_of_unplaced hblock) hv branch condition' hkind' []))
      hsingle
  · rw [reread_eq hbranch, unplaced_eq] at hu
    obtain ⟨hform, -, -, hinner⟩ := Tree.mk.inj hu
    exact .single (Kind.like_of_unplaced hform) (hbody hinner)

/-- A tree that was read back runs like the tree that was printed. -/
theorem regrouped_of_reread {branches : Bool} {ts : List Tree} (h : Written branches ts)
    (hplaced : Placed branches ts) :
    (branches = false → ∀ {before : List Char} {pre us : List Tree}, Says before pre →
      unplaceds us = rereadAfter before ts →
      Regrouped false us (pre ++ ts)) ∧
    (branches = true → ∀ {us : List Tree}, unplaceds us = rereadAfter [] ts → Regrouped true us ts) := by
  induction h with
  | nil =>
    refine ⟨fun _ before pre us hpre hus => ?_, fun _ us hus => ?_⟩
    · rw [rereadAfter, ← List.append_nil (textOf before)] at hus
      obtain ⟨us₁, us₂, rfl, hsays, hnil⟩ := says_of_unplaceds hus
      obtain rfl := eq_nil_of_unplaceds hnil
      exact .rewrite (.texts hsays hpre []) (.self SameForm.self false _)
    · rw [rereadAfter, textOf, if_pos rfl] at hus
      obtain rfl := eq_nil_of_unplaceds hus
      exact .nil
  | @cons branches t ts kind leaf block outside inside body tail ihBody ihTail =>
    obtain ⟨hin, hplacedBody, hplacedTail⟩ := placed_cons.1 hplaced
    have hbody : ∀ {us : List Tree}, unplaceds us = rereadAfter [] t.children →
        Regrouped t.kind.isIfBlock us t.children := by
      intro us hus
      cases hblock : t.kind.isIfBlock with
      | true => exact (ihBody hplacedBody).2 hblock hus
      | false => exact (ihBody hplacedBody).1 hblock .nil hus
    refine ⟨?_, ?_⟩
    · rintro rfl before pre us hpre hus
      obtain ⟨s, trimmed, hkind⟩ | htext := t.kind.text_or_ne
      · have hone := Says.cons hkind (leaf (by rw [hkind]; rfl)) .nil
        rw [List.append_nil] at hone
        rw [rereadAfter_text hkind] at hus
        have hlater := (ihTail hplacedTail).1 rfl (hpre.append hone) hus
        rwa [List.append_assoc] at hlater
      · rw [rereadAfter_element htext] at hus
        obtain ⟨us₁, us₂, rfl, hsays, hus⟩ := says_of_unplaceds hus
        cases us₂ with
        | nil => cases hus
        | cons u us₂ =>
          rw [unplaceds_cons] at hus
          obtain ⟨hu, hus⟩ := List.cons.inj hus
          have hlater : Regrouped false us₂ ts := (ihTail hplacedTail).1 rfl .nil hus
          have helement : Regrouped false [u] [t] := regrouped_element hin hbody hu
          have hself : Regrouped false pre pre := .self SameForm.self false pre
          exact .rewrite (.texts hsays hpre _) (hself.append (helement.append hlater))
    · rintro rfl us hus
      obtain ⟨branch, condition, hkind⟩ := inside rfl
      rw [rereadAfter_element (by rw [hkind]; rintro _ _ ⟨⟩), textOf, if_pos rfl, List.nil_append,
        reread_branch hkind, hin, if_pos rfl] at hus
      cases us with
      | nil => cases hus
      | cons u us =>
        rw [unplaceds_cons, unplaced_eq] at hus
        obtain ⟨hu, hus⟩ := List.cons.inj hus
        obtain ⟨hform, -, -, hinner⟩ := Tree.mk.inj hu
        have hlike := Kind.like_of_unplaced hform
        refine .cons hlike ?_ ((ihTail hplacedTail).2 rfl hus)
        rw [← hlike.isIfBlock]
        exact hbody hinner

end Tree

/-! ### Whole templates -/

namespace Tree

theorem Written.topmost {r t : Tree} (hr : r.kind = .sequence) (hwritten : Written false r.children)
    (h : SameRun false [r] [t]) :
    Written false t.topmost := by
  cases h with
  | cons head body _ =>
    have hlike := head.kind
    rw [hr] at hlike body
    generalize hkind : t.kind = kind at hlike
    cases hlike with
    | sequence =>
      rw [topmost_sequence hkind]
      exact hwritten.sameRun body
  | rewrite step rest =>
    cases step with
    | comment _ hkind | emptyText _ hkind | onlyBranch hkind =>
      rw [hr] at hkind
      cases hkind
    | sequence =>
      rw [List.append_nil] at rest
      have hself := hwritten.sameRun rest
      rwa [topmost_of_ne]
      intro hkind
      have hkindWritten := hself.kind t List.mem_cons_self
      rw [hkind] at hkindWritten
      exact hkindWritten.elim

theorem Placed.topmost {t : Tree} (h : Placed false [t]) : Placed false t.topmost := by
  by_cases hkind : t.kind = .sequence
  · rw [topmost_sequence hkind]
    have hbody := (placed_cons.1 h).2.1
    rwa [hkind] at hbody
  · rwa [topmost_of_ne hkind]

/-- A tree that was read runs like any tree that its elements are regrouped to. -/
theorem regrouped_topmost {t u : Tree} (hu : u.kind = .sequence) (h : Regrouped false u.children t.topmost) :
    Regrouped false [u] [t] := by
  by_cases hkind : t.kind = .sequence
  · rw [topmost_sequence hkind] at h
    refine .single ?_ (by rwa [hkind])
    rw [SameForm, hu, hkind]
    exact .sequence
  · rw [topmost_of_ne hkind] at h
    refine .rewrite (.leaves (.sequence hu [])) ?_
    rwa [List.append_nil]

end Tree

section
variable {strip : Bool} {raw : Tree} {t : Template} {parts us : List Shape}

theorem Finished.placed (h : Finished strip raw t parts us) : Tree.Placed false [t.tree] := by
  rw [h.tree fun x hx => t.withText_shownText hx]
  exact placed_trees false

/-- The elements of a finished template can be written. -/
theorem Finished.written (h : Finished strip raw t parts us)
    (hraw : raw.kind = .sequence ∧ Tree.Written false raw.children) :
    Tree.Written false t.tree.topmost ∧ Tree.Placed false t.tree.topmost := by
  -- The tree before cleanup is a sequence of elements that can be written.
  have hholds := h.holds
  rw [Holds] at hholds
  obtain ⟨hkind, -, hparts, -⟩ := hholds
  have huncleaned := h.uncleaned
  rw [trees_singleton, hkind, hraw.1] at huncleaned
  have hsame := h.sameRun
  rw [List.cons.inj huncleaned |>.1] at hsame
  have hwritten : Tree.Written false (trees _ t.shownText _ _) :=
    hparts.written hraw.2 (Kind.isIfBlock .sequence)
  exact ⟨.topmost rfl hwritten hsame, h.placed.topmost⟩

/-- The texts of an arena. -/
def Arena.ownTexts (a : Arena) (x : ElementId) : String :=
  match (a.get x).kind with
  | .text text _ => text
  | _ => ""

theorem Arena.withText_ownTexts (a : Arena) (x : ElementId) :
    (a.get x).kind.withText (a.ownTexts x) = (a.get x).kind := by
  rw [Arena.ownTexts]
  cases (a.get x).kind <;> rfl

theorem outcome_eq_of_withoutMacros {r r' : EStateM.Result TemplateError Environment Unit}
    (h : withoutMacros r = withoutMacros r') : outcome r = outcome r' := by
  have hforget : ∀ r, outcome (withoutMacros r) = outcome r := by
    intro r
    cases r <;> rfl
  rw [← hforget r, h, hforget r']

/-- Where no blanks are stripped, a template runs like the very tree that was read. -/
theorem Finished.outcome_eq (h : Finished false raw t parts us) (env : Environment) :
    outcome ((Environment.process raw : Action Unit) env) =
    outcome ((Environment.process t.tree : Action Unit) env) := by
  have hloaded : SameRun false [raw] (trees _ (Arena.ownTexts _) _ _) :=
    h.holds.sameRun (fun x _ => Arena.withText_ownTexts _ x) false
  have hcleans := h.cleans (Arena.ownTexts (Arena.load {} raw).1)
    (fun x _ _ => .inr ⟨rfl, fun text trimmed hkind => by rw [Arena.ownTexts, hkind]⟩) false false
  have htree : [t.tree] = trees t.arena (Arena.ownTexts (Arena.load {} raw).1) false [⟨t.root, us⟩] :=
    h.tree fun x _ => by
      rw [h.evolves.kind x rfl]
      exact Arena.withText_ownTexts _ x
  rw [← htree] at hcleans
  rw [trees_singleton] at hloaded hcleans
  have hfirst := process_eq_of_sameRun hloaded env
  have hsecond := process_eq_of_sameRun hcleans env
  exact outcome_eq_of_withoutMacros (hfirst.trans hsecond)

end

/-! ### Rendering -/

theorem Environment.sink_make {files : FileSystem} {settings : Settings} {data : Json} {sink : Sink}
    {env : Environment} (h : Environment.make files settings data sink = .ok env) : env.sink = sink := by
  obtain ⟨entries, loader, -, rfl⟩ := Environment.exists_of_make h
  rfl

theorem Template.render_eq (t : Template) (files : FileSystem) (settings : Settings) (data : Json) :
    t.render files settings data = match Environment.make files settings data {} with
      | .error e => .error e
      | .ok env => (outcome ((Environment.process t.tree : Action Unit) env)).map Sink.text := by
  simp only [Template.render, Template.renderTo]
  cases Environment.make files settings data {} with
  | error e => rfl
  | ok env =>
    dsimp only
    cases (Environment.process t.tree : Action Unit) env <;> rfl

theorem Execution.SameValue.map {α β : Type} {site : ErrorSite → ErrorSite → Prop}
    {r r' : Except TemplateError α} (h : SameValue site r r') (f : α → β) :
    SameValue site (r.map f) (r'.map f) := by
  cases h with
  | ok x => exact .ok (f x)
  | error h => exact .error h

/-- The canonical form of a template is read as a template again, and for any data and files that renders
the same or fails with an error of the same kind, if no texts meet in the template so that they open a tag. -/
theorem Template.render_canonical {name : Option String} {text : String} {strip : Bool} {t : Template}
    (h : Template.parse name text strip = .ok t) (hseam : t.tree.hasSeam = false) (name' : Option String) :
    ∃ t', Template.parse name' t.canonical false = .ok t' ∧ ∀ files settings data,
      SameValue AnySite (t'.render files settings data) (t.render files settings data) := by
  obtain ⟨raw, parts, us, hraw, hfinished⟩ := exists_finished_of_parse h
  obtain ⟨hwritten, hplaced⟩ := hfinished.written (Tree.written_of_parse hraw)
  rw [← Tree.hasSeams_topmost hwritten] at hseam
  obtain ⟨raw', hraw', hsequence, -, hsame⟩ := Tree.parse_markups hwritten hplaced hseam name'
  have hregrouped := (Tree.regrouped_of_reread hwritten hplaced).1 rfl .nil hsame
  rw [← Tree.fullCanonical_eq] at hraw'
  obtain ⟨t', parts', us', hparse', hfinished'⟩ := exists_finished hraw' false
  refine ⟨t', hparse', fun files settings data => ?_⟩
  rw [Template.render_eq, Template.render_eq]
  cases hmake : Environment.make files settings data {} with
  | error e => exact .self (fun _ => trivial) _
  | ok env =>
    have hlimit : env.sink.limit = none := by rw [Environment.sink_make hmake]
    have hsame := outcome_of_regrouped (Tree.regrouped_topmost hsequence hregrouped) hlimit
    rw [hfinished'.outcome_eq env] at hsame
    exact hsame.map Sink.text

/-- A comment between texts that do not open a tag, an escape and an interpolation. -/
theorem Template.render_canonical_escaped :
    ∃ t t', Template.parse none "[\x7b[%c]\x7d\x7b[\x7b]\x7d\x7b[ x ]\x7d" true = .ok t ∧
    t.tree.hasSeam = false ∧ Template.parse none t.canonical false = .ok t' ∧
    ∀ files settings data, SameValue AnySite (t'.render files settings data)
      (t.render files settings data) := by
  obtain ⟨t, ht, hseam⟩ := exists_of_parses none "[\x7b[%c]\x7d\x7b[\x7b]\x7d\x7b[ x ]\x7d" true
    (fun t => !t.tree.hasSeam) (by decide +kernel)
  rw [Bool.not_eq_true'] at hseam
  obtain ⟨t', ht'⟩ := render_canonical ht hseam none
  exact ⟨t, t', ht, hseam, ht'⟩

/-- A comment between an opening brace and a bracket: the template is printed as the beginning of a tag. -/
theorem Template.canonical_unreadable :
    ∃ t, Template.parse none "\x7b\x7b[%c]\x7d[" false = .ok t ∧ t.canonical = "\x7b[" ∧
    Template.parse none t.canonical false = .error ⟨.unterminated .tag, .start⟩ := by
  obtain ⟨t, ht, hcanonical⟩ := exists_of_parses none "\x7b\x7b[%c]\x7d[" false
    (·.canonical == "\x7b[") (by decide +kernel)
  rw [beq_iff_eq] at hcanonical
  have hfails : (Template.parse none "\x7b[" false).map (fun _ => ()) =
      .error ⟨.unterminated .tag, .start⟩ := by
    decide +kernel
  refine ⟨t, ht, hcanonical, ?_⟩
  rw [hcanonical]
  cases hparse : Template.parse none "\x7b[" false with
  | error e =>
    rw [hparse] at hfails
    cases hfails
    rfl
  | ok _ =>
    rw [hparse] at hfails
    cases hfails

end Stencil
