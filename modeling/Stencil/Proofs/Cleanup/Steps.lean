import Stencil.Proofs.Cleanup.Relations
import Stencil.Proofs.Cleanup.Trimming

/-! # Steps of a pass

A pass over an arena takes many small steps, and each is taken with the arena as it is then. What
one step keeps, the whole pass keeps: no element changes but texts, which are trimmed once, and
branches that are moved. -/

namespace Stencil

/-- An element stands for itself, for a sequence, or, being a branch, for an if block. -/
def Arena.StandsFor (a : Arena) (g e : ElementId) : Prop :=
  g = e ∨ (a.get e).kind = .sequence ∨
    (a.get e).kind = .ifBlock ∧ ∃ branch condition, (a.get g).kind = .conditional branch condition

/-- The arena after a text is trimmed. -/
def Arena.trimming (a : Arena) (p : ElementId) (text : String) (opening trailing : Nat) : Arena :=
  a.update p fun e =>
    { e with
      kind := .text (.ofList (trimmedText text.toList opening trailing)) true
      location := trimmedLocation e.location opening trailing }

/-- What a pass does, step by step: storage is given up, an element is linked in the place of one that it
stands for, an element that can go is taken out, a branch is moved, and a text that has not been trimmed is,
as the arena tells then. -/
inductive Steps (strip : Bool) (a : Arena) : Arena → Prop
  | start : Steps strip a a
  | stored {b c : Arena} (before : Steps strip a b) (nodes : b.SameNodes c) (links : b.SameLinks c) :
    Steps strip a c
  | placed {b c : Arena} (before : Steps strip a b) (nodes : b.SameNodes c) {p e g : ElementId}
      {pre post : List ElementId}
      (children : b.children p = pre ++ e :: post) (put : Arena.PutIn b c p pre g post)
      (stands : b.StandsFor g e) : Steps strip a c
  | dropped {b c : Arena} (before : Steps strip a b) (nodes : b.SameNodes c) {p e : ElementId}
      {pre post : List ElementId}
      (children : b.children p = pre ++ e :: post) (out : Arena.TakenOut b c p pre e post)
      (ignorable : b.isIgnorable e strip = .ok true) : Steps strip a c
  | moved {b : Arena} (before : Steps strip a b) {x : ElementId} {branch : Branch} {condition : Option Expr}
      (kind : (b.get x).kind = .conditional branch condition) (location : Location) :
      Steps strip a (b.update x fun e => { e with location })
  | trimmed {b : Arena} (before : Steps strip a b) (on : strip = true) {x : ElementId} {text : String}
      {opening trailing : Nat}
      (kind : (b.get x).kind = .text text false) (hopening : b.openingStrip x text.toList = .ok opening)
      (htrailing : b.trailingStrip x text.toList = .ok trailing) :
      Steps strip a (b.trimming x text opening trailing)

/-- In an arena that steps lead to, a text is about to be trimmed. -/
structure Trims (strip : Bool) (a b : Arena) (x : ElementId) (text : String) (opening trailing : Nat) :
    Prop where
  steps : Steps strip a b
  on : strip = true
  kind : (b.get x).kind = .text text false
  location : (b.get x).location = (a.get x).location
  opening : b.openingStrip x text.toList = .ok opening
  trailing : b.trailingStrip x text.toList = .ok trailing

/-- What has become of an element: it is as it was, unless it is a branch that was moved or a text
that was trimmed once. -/
inductive Became (strip : Bool) (a a' : Arena) (x : ElementId) : Prop
  | kept (kind : (a'.get x).kind = (a.get x).kind)
      (location : (∀ branch condition, (a.get x).kind ≠ .conditional branch condition) →
        (a'.get x).location = (a.get x).location)
  | trimmed {b : Arena} {text : String} {opening trailing : Nat} (before : (a.get x).kind = .text text false)
      (moment : Trims strip a b x text opening trailing)
      (kind : (a'.get x).kind = .text (.ofList (Arena.trimmedText text.toList opening trailing)) true)
      (location : (a'.get x).location = Arena.trimmedLocation (a.get x).location opening trailing)

section
variable {strip : Bool} {a a' b c : Arena} {x : ElementId}

theorem Arena.lt_size_of_kind (h : (a.get x).kind ≠ .sequence) : x < a.size := by
  by_contra hout
  rw [a.get_eq_default (Nat.le_of_not_lt hout)] at h
  exact h rfl

theorem Arena.sameLinks_trimming (a : Arena) (x : ElementId) (text : String) (opening trailing : Nat) :
    a.SameLinks (a.trimming x text opening trailing) := sameLinks_update a x _ ⟨rfl, rfl, rfl⟩

theorem Arena.get_trimming (a : Arena) {x : ElementId} (h : x < a.size) (text : String)
    (opening trailing : Nat) :
    (a.trimming x text opening trailing).get x =
      { a.get x with
        kind := .text (.ofList (trimmedText text.toList opening trailing)) true
        location := trimmedLocation (a.get x).location opening trailing } := get_update_self a _ h

theorem Arena.get_trimming_ne (a : Arena) {x y : ElementId} (h : y ≠ x) (text : String)
    (opening trailing : Nat) :
    (a.trimming x text opening trailing).get y = a.get y := get_update_ne a _ h

theorem Steps.trans (h : Steps strip a b) (h' : Steps strip b c) : Steps strip a c := by
  induction h' with
  | start => exact h
  | stored _ nodes links ih => exact .stored ih nodes links
  | placed _ nodes children put stands ih => exact .placed ih nodes children put stands
  | dropped _ nodes children out ignorable ih => exact .dropped ih nodes children out ignorable
  | moved _ kind location ih => exact .moved ih kind location
  | trimmed _ on kind hopening htrailing ih => exact .trimmed ih on kind hopening htrailing

theorem Steps.size (h : Steps strip a a') : a'.size = a.size := by
  induction h with
  | start => rfl
  | stored _ nodes _ ih | placed _ nodes _ _ _ ih | dropped _ nodes _ _ _ ih => exact nodes.1.trans ih
  | moved _ _ _ ih => exact (Arena.size_update _ _ _).trans ih
  | trimmed _ _ _ _ _ ih => exact (Arena.size_update _ _ _).trans ih

/-- What hangs together changes only when an element is linked in the place of another or taken out. -/
@[elab_as_elim]
theorem Steps.links_induction {motive : (b : Arena) → Steps strip a b → Prop} (start : motive a .start)
    (same : ∀ {b c : Arena} (before : Steps strip a b) (after : Steps strip a c), b.SameLinks c →
      motive b before → motive c after)
    (placed : ∀ {b c : Arena} (before : Steps strip a b) (after : Steps strip a c) {p e g : ElementId}
      {pre post : List ElementId},
      b.children p = pre ++ e :: post → Arena.PutIn b c p pre g post → b.StandsFor g e →
      motive b before → motive c after)
    (dropped : ∀ {b c : Arena} (before : Steps strip a b) (after : Steps strip a c) {p e : ElementId}
      {pre post : List ElementId},
      b.children p = pre ++ e :: post → Arena.TakenOut b c p pre e post →
        b.isIgnorable e strip = .ok true → motive b before →
        motive c after)
    {b : Arena} (h : Steps strip a b) : motive b h := by
  induction h with
  | start => exact start
  | stored before nodes links ih => exact same before (.stored before nodes links) links ih
  | placed before nodes children put stands ih =>
    exact placed before (.placed before nodes children put stands) children put stands ih
  | dropped before nodes children out ignorable ih =>
    exact dropped before (.dropped before nodes children out ignorable) children out ignorable ih
  | @moved b before y _ _ kind location ih =>
    have hlinks : b.SameLinks (b.update y fun e => { e with location }) :=
      Arena.sameLinks_update b y _ ⟨rfl, rfl, rfl⟩
    exact same before (.moved before kind location) hlinks ih
  | @trimmed b before on y text opening trailing kind hopening htrailing ih =>
    exact same before (.trimmed before on kind hopening htrailing)
      (b.sameLinks_trimming y text opening trailing) ih

/-- No step gives children to an element without any. -/
theorem Steps.childless (h : Steps strip a a') (hnone : a.children x = []) : a'.children x = [] := by
  induction h using Steps.links_induction with
  | start => exact hnone
  | same _ _ links ih => exact (links.children x).trans ih
  | @placed b c _ _ p e g pre post children put _ ih =>
    have hxp : x ≠ p := by
      rintro rfl
      rw [children] at ih
      simp at ih
    exact (put.children_of_ne hxp).trans ih
  | @dropped b c _ _ p e pre post children out _ ih =>
    have hxp : x ≠ p := by
      rintro rfl
      rw [children] at ih
      simp at ih
    exact (out.children_of_ne hxp).trans ih

theorem Became.congr (h : Became strip a b x) (hkind : (c.get x).kind = (b.get x).kind)
    (hlocation : (c.get x).location = (b.get x).location) : Became strip a c x := by
  cases h with
  | kept kind location => exact .kept (hkind.trans kind) fun hbranch => hlocation.trans (location hbranch)
  | trimmed before moment kind location =>
    exact .trimmed before moment (hkind.trans kind) (hlocation.trans location)

/-- A text that has not been trimmed is as it was. -/
theorem Became.untrimmed (h : Became strip a b x) {text : String}
    (hkind : (b.get x).kind = .text text false) :
    (a.get x).kind = .text text false ∧ (b.get x).location = (a.get x).location := by
  cases h with
  | kept kind location =>
    have hbefore := kind.symm.trans hkind
    exact ⟨hbefore, location fun branch condition h => by rw [hbefore] at h; cases h⟩
  | trimmed _ _ kind =>
    rw [kind] at hkind
    cases hkind

/-- Every text is trimmed once at most, and no other element changes but for branches that are moved. -/
theorem Steps.became (h : Steps strip a a') (x : ElementId) : Became strip a a' x := by
  induction h with
  | start => exact .kept rfl fun _ => rfl
  | stored _ nodes _ ih | placed _ nodes _ _ _ ih | dropped _ nodes _ _ _ ih =>
    exact ih.congr (nodes.2 x).1 (nodes.2 x).2
  | @moved b _ y branch condition kind location ih =>
    by_cases hx : x = y
    · subst hx
      have hin : x < b.size := Arena.lt_size_of_kind (by rw [kind]; exact Kind.noConfusion)
      have hself := Arena.get_update_self b (fun e => { e with location }) hin
      cases ih with
      | kept kept _ =>
        refine .kept (by rw [hself]; exact kept) fun hbranch =>
          absurd (kept.symm.trans kind) (hbranch branch condition)
      | trimmed _ _ trimmed =>
        rw [kind] at trimmed
        cases trimmed
    · have hother := Arena.get_update_ne b (fun e => { e with location }) hx
      exact ih.congr (by rw [hother]) (by rw [hother])
  | @trimmed b before on y text opening trailing kind hopening htrailing ih =>
    by_cases hx : x = y
    · subst hx
      have hin : x < b.size := Arena.lt_size_of_kind (by rw [kind]; exact Kind.noConfusion)
      obtain ⟨hbefore, hlocation⟩ := ih.untrimmed kind
      refine .trimmed hbefore ⟨before, on, kind, hlocation, hopening, htrailing⟩ ?_ ?_
      · rw [b.get_trimming hin text opening trailing]
      · rw [b.get_trimming hin text opening trailing, hlocation]
    · have hother := b.get_trimming_ne hx text opening trailing
      exact ih.congr (by rw [hother]) (by rw [hother])

/-- Cleanup makes no text out of anything else, nor anything else out of a text. -/
theorem Became.isText (h : Became strip a a' x) : (a'.get x).kind.isText = (a.get x).kind.isText := by
  cases h with
  | kept kind => rw [kind]
  | trimmed before _ kind =>
    rw [kind, before]
    rfl

theorem Became.sameElement (h : Became strip a a' x) : SameElement strip (a.get x) (a'.get x) := by
  cases h with
  | kept kind location =>
    refine .other kind fun hshown => location fun branch condition hbranch => ?_
    rw [hbranch] at hshown
    cases hshown
  | trimmed before moment kind => exact .text moment.on _ _ _ _ before kind

theorem Steps.evolves (h : Steps strip a a') : Evolves strip a a' :=
  ⟨h.size, fun x => (h.became x).sameElement⟩

end

end Stencil
