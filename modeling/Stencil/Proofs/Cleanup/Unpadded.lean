import Stencil.Proofs.Cleanup.Again
import Stencil.Proofs.Cleanup.Collapsed

/-! # Texts with nothing to strip -/

namespace Stencil

open Shape

namespace Arena

/-! ### Leaves on a line -/

section
variable {a : Arena} {line : Int} {y : ElementId}

theorem heededBefore_some {heeds : Bool} {found : Option ElementId} (hheeds : a.heedsOpening y = .ok heeds)
    (hfound : a.previousTerminal? y = .ok found) (steps : Nat) : a.heededBefore line (steps + 1) (some y) =
      if (a.get y).location.last.line ≠ line then .ok false else if heeds then .ok true
        else a.heededBefore line steps found := by
  rw [heededBefore, hheeds, hfound]
  rfl

theorem heededAfter_some {heeds : Bool} (hheeds : a.heedsTrailing y = .ok heeds) (steps : Nat) :
    a.heededAfter line (steps + 1) (some y) =
      if (a.get y).location.first.line ≠ line then .ok false else if heeds then .ok true
        else a.heededAfter line steps (a.nextTerminal? y) := by
  rw [heededAfter, hheeds]
  rfl

/-- A leaf on another line ends the search. -/
theorem heededBefore_of_ne {leaf : Option ElementId}
    (h : ∀ y ∈ leaf, (a.get y).location.last.line ≠ line) (steps : Nat) :
    a.heededBefore line steps leaf = .ok false := by
  cases steps with
  | zero => rw [heededBefore]
  | succ steps =>
    cases leaf with
    | none => simp only [heededBefore]
    | some y =>
      rw [heededBefore, if_pos (h y rfl)]
      rfl

theorem heededAfter_of_ne {leaf : Option ElementId}
    (h : ∀ y ∈ leaf, (a.get y).location.first.line ≠ line) (steps : Nat) :
    a.heededAfter line steps leaf = .ok false := by
  cases steps with
  | zero => rw [heededAfter]
  | succ steps =>
    cases leaf with
    | none => simp only [heededAfter]
    | some y =>
      rw [heededAfter, if_pos (h y rfl)]
      rfl

/-- Branches keep no blanks beside them. -/
theorem heeds_branch {branch : Branch} {condition : Option Expr}
    (h : (a.get y).kind = .conditional branch condition) :
    a.heedsOpening y = .ok false ∧ a.heedsTrailing y = .ok false := by
  rw [heedsOpening, heedsTrailing, goesWhenStripping_eq, h]
  exact ⟨rfl, rfl⟩

theorem Sound.heedsOpening {used : ElementId → Prop} (h : a.Sound used) (hy : used y) :
    ∃ heeds, a.heedsOpening y = .ok heeds := by
  obtain ⟨goes, hgoes⟩ := h.goesWhenStripping hy
  rw [Arena.heedsOpening, hgoes]
  exact ⟨_, rfl⟩

theorem Sound.heedsTrailing {used : ElementId → Prop} (h : a.Sound used) (hy : used y) :
    ∃ heeds, a.heedsTrailing y = .ok heeds := by
  obtain ⟨goes, hgoes⟩ := h.goesWhenStripping hy
  rw [Arena.heedsTrailing, hgoes]
  exact ⟨_, rfl⟩

end

section
variable {a b : Arena} {used : ElementId → Prop} {r x y : ElementId} {ss ss' : List Shape} {line : Int}

namespace Intact

variable (h : a.Intact b used) (hread : a.AsRead r ss) (htidy : Tidy b used r ss')
include h hread

omit h in
/-- A branch in the place of its block begins and ends on the lines where it did, or on ones
before and after them. -/
theorem lines_of_alone {e : ElementId} (halone : a.Alone e y)
    (hlocation : (b.get y).location = (a.get e).location) :
    (b.get y).location.first.line ≤ (a.get y).location.first.line ∧
      (a.get y).location.first.line ≤ (a.get y).location.last.line ∧
      (a.get y).location.last.line ≤ (b.get y).location.last.line := by
  have hy : y ∈ a.children e := halone.2 ▸ List.mem_singleton_self y
  obtain ⟨hfirst, hlast⟩ := (hread.inOrder halone.inside).inside hy
  obtain ⟨branch, condition, hbranch⟩ := halone.branch hread
  have hupright := hread.upright (x := y) (lt_size_of_kind (by rw [hbranch]; exact Kind.noConfusion))
    (by rw [hbranch]; exact Kind.noConfusion)
  rw [hlocation]
  unfold Position.Before at hfirst hlast hupright
  omega

include htidy in
/-- What the walks come to is no sequence. -/
theorem upright_of_mem (hy : y ∈ ids ss') : ¬ (b.get y).location.last.Before (b.get y).location.first := by
  have hin := h.inside (htidy.used_of_mem hy)
  refine h.upright hread hin fun hkind => ?_
  obtain rfl := hread.flat hin hkind
  exact htidy.notMem hy

include htidy

theorem heededBefore (steps : Nat) {leaf : Option ElementId}
    (hleaf : ∀ y ∈ leaf, y ∈ ids ss' ∧ (b.get y).location.last.line ≤ line) :
    b.heededBefore line steps leaf = a.heededBefore line steps leaf := by
  induction steps generalizing leaf with
  | zero => rw [Arena.heededBefore, Arena.heededBefore]
  | succ steps ih =>
    cases leaf with
    | none => simp only [Arena.heededBefore]
    | some y =>
      obtain ⟨hy, hline⟩ := hleaf y rfl
      have hwalks := h.walks hread htidy hy
      obtain ⟨found, hfound, hfound'⟩ := hwalks.previous
      obtain ⟨heeds, hheeds⟩ := h.sound.heedsOpening (htidy.used_of_mem hy)
      have hheeds' : a.heedsOpening y = .ok heeds := (h.heedsOpening hread y).symm.trans hheeds
      have hearlier : ∀ z ∈ found, z ∈ ids ss' ∧
          (b.get z).location.last.line ≤ (b.get y).location.first.line := fun z hz => by
        obtain ⟨hin, hbefore⟩ := hwalks.before (hfound.trans (congrArg _ hz))
        unfold Position.Before at hbefore
        exact ⟨hin, by omega⟩
      have hupright := h.upright_of_mem hread htidy hy
      unfold Position.Before at hupright
      have hfurther : b.heededBefore line steps found = a.heededBefore line steps found := ih fun z hz => by
        obtain ⟨hin, hle⟩ := hearlier z hz
        exact ⟨hin, by omega⟩
      rw [heededBefore_some hheeds hfound, heededBefore_some hheeds' hfound']
      obtain hsame | ⟨e, halone, hlocation⟩ := h.location y
      · rw [hsame, hfurther]
      · obtain ⟨hfirst, hown, hlast⟩ := lines_of_alone hread halone hlocation
        by_cases hends : (a.get y).location.last.line = line
        · rw [hends, show (b.get y).location.last.line = line by omega, hfurther]
        · -- What comes before the branch ends on an earlier line than the branch did.
          obtain ⟨branch, condition, hbranch⟩ := halone.branch hread
          obtain rfl : heeds = false := Except.ok.inj (hheeds'.symm.trans (heeds_branch hbranch).1)
          rw [if_pos hends, if_neg Bool.false_ne_true, heededBefore_of_ne fun z hz => ?_, ite_self]
          have hle := (hearlier z hz).2
          omega

theorem heededAfter (steps : Nat) {leaf : Option ElementId}
    (hleaf : ∀ y ∈ leaf, y ∈ ids ss' ∧ line ≤ (b.get y).location.first.line) :
    b.heededAfter line steps leaf = a.heededAfter line steps leaf := by
  induction steps generalizing leaf with
  | zero => rw [Arena.heededAfter, Arena.heededAfter]
  | succ steps ih =>
    cases leaf with
    | none => simp only [Arena.heededAfter]
    | some y =>
      obtain ⟨hy, hline⟩ := hleaf y rfl
      have hwalks := h.walks hread htidy hy
      obtain ⟨heeds, hheeds⟩ := h.sound.heedsTrailing (htidy.used_of_mem hy)
      have hheeds' : a.heedsTrailing y = .ok heeds := (h.heedsTrailing hread y).symm.trans hheeds
      have hlater : ∀ z ∈ b.nextTerminal? y, z ∈ ids ss' ∧
          (b.get y).location.last.line ≤ (b.get z).location.first.line := fun z hz => by
        obtain ⟨hin, hafter⟩ := hwalks.after hz
        unfold Position.Before at hafter
        exact ⟨hin, by omega⟩
      have hupright := h.upright_of_mem hread htidy hy
      unfold Position.Before at hupright
      have hfurther : b.heededAfter line steps (b.nextTerminal? y) =
          a.heededAfter line steps (a.nextTerminal? y) := by
        rw [← hwalks.next]
        refine ih fun z hz => ?_
        obtain ⟨hin, hle⟩ := hlater z hz
        exact ⟨hin, by omega⟩
      rw [heededAfter_some hheeds, heededAfter_some hheeds']
      obtain hsame | ⟨e, halone, hlocation⟩ := h.location y
      · rw [hsame, hfurther]
      · obtain ⟨hfirst, hown, hlast⟩ := lines_of_alone hread halone hlocation
        by_cases hbegins : (a.get y).location.first.line = line
        · rw [hbegins, show (b.get y).location.first.line = line by omega, hfurther]
        · -- What comes after the branch begins on a later line than the branch did.
          obtain ⟨branch, condition, hbranch⟩ := halone.branch hread
          obtain rfl : heeds = false := Except.ok.inj (hheeds'.symm.trans (heeds_branch hbranch).2)
          rw [if_pos hbegins, if_neg Bool.false_ne_true, heededAfter_of_ne fun z hz => ?_, ite_self]
          have hle := (hlater z hz).2
          omega

theorem openingStrip (hx : x ∈ ids ss') (hlocation : (b.get x).location = (a.get x).location)
    (text : List Char) :
    b.openingStrip x text = a.openingStrip x text := by
  have hwalks := h.walks hread htidy hx
  obtain ⟨found, hfound, hfound'⟩ := hwalks.previous
  have hheeded : b.heededBefore (a.get x).location.first.line (a.size + 1) found =
      a.heededBefore (a.get x).location.first.line (a.size + 1) found := by
    refine h.heededBefore hread htidy (a.size + 1) fun z hz => ?_
    obtain ⟨hin, hbefore⟩ := hwalks.before (hfound.trans (congrArg _ hz))
    rw [hlocation] at hbefore
    unfold Position.Before at hbefore
    exact ⟨hin, by omega⟩
  simp only [Arena.openingStrip, hfound, hfound', hlocation, h.size, bind, Except.bind, hheeded]

theorem trailingStrip (hx : x ∈ ids ss') (hlocation : (b.get x).location = (a.get x).location)
    (text : List Char) :
    b.trailingStrip x text = a.trailingStrip x text := by
  have hwalks := h.walks hread htidy hx
  have hheeded : b.heededAfter (a.get x).location.last.line (a.size + 1) (a.nextTerminal? x) =
      a.heededAfter (a.get x).location.last.line (a.size + 1) (a.nextTerminal? x) := by
    refine h.heededAfter hread htidy (a.size + 1) fun z hz => ?_
    obtain ⟨hin, hafter⟩ := hwalks.after (hwalks.next.trans hz)
    rw [hlocation] at hafter
    unfold Position.Before at hafter
    exact ⟨hin, by omega⟩
  simp only [Arena.trailingStrip, hwalks.next, hlocation, h.size, bind, Except.bind, hheeded]

end Intact

/-! ### What a pass takes away -/

theorem kind_relocated (a : Arena) (g : ElementId) (location : Location) (x : ElementId) :
    ((a.update g fun d => { d with location }).get x).kind = (a.get x).kind := by
  by_cases hg : g < a.size
  · rw [a.get_update g x _ hg]
    split
    · next hx => rw [hx]
    · rfl
  · rw [get_update_of_size_le a _ (Nat.le_of_not_lt hg)]

theorem length_trimmedText_le (cs : List Char) (opening trailing : Nat) :
    (trimmedText cs opening trailing).length ≤ cs.length := by
  rw [trimmedText, List.length_drop, List.length_take]
  omega

/-- Of a text from which something is taken less is left. -/
theorem length_trimmedText_lt {cs : List Char} {opening trailing : Nat}
    (hsome : ¬ (opening = 0 ∧ trailing = 0)) (hnonempty : cs ≠ []) :
    (trimmedText cs opening trailing).length < cs.length := by
  have hlength := List.length_pos_of_ne_nil hnonempty
  rw [trimmedText, List.length_drop, List.length_take]
  omega

/-- Nothing of a text is stripped where it stands. -/
def Unpadded (a : Arena) (x : ElementId) : Prop := ∀ text trimmed, (a.get x).kind = .text text trimmed →
  a.isIgnorable x true = .ok false ∧ a.openingStrip x text.toList = .ok 0 ∧
  a.trailingStrip x text.toList = .ok 0

/-- Less of a text is left than there was, if it still hangs anywhere. -/
def Lessened (a b : Arena) (x : ElementId) : Prop := ∃ text trimmed, (a.get x).kind = .text text trimmed ∧
  ((b.get x).parent = none ∨ ∃ text' trimmed', (b.get x).kind = .text text' trimmed' ∧
    text'.toList.length < text.toList.length)

theorem Lessened.congr {c : Arena} (h : a.Lessened b x) (hkind : (c.get x).kind = (b.get x).kind)
    (hparent : (b.get x).parent = none → (c.get x).parent = none) : a.Lessened c x := by
  obtain ⟨text, trimmed, htext, hless⟩ := h
  refine ⟨text, trimmed, htext, hless.imp hparent fun hshorter => ?_⟩
  rwa [hkind]

/-- What has been lost of a text does not come back. -/
theorem Lessened.leads {c : Arena} {mid : ElementId → Prop} (h : a.Lessened b x)
    (hleads : Leads true b c used mid) :
    a.Lessened c x := by
  induction hleads with
  | refl => exact h
  | stored _ nodes links ih => exact ih.congr (nodes.2 x).1 fun hparent => (links.place x).1.trans hparent
  | @placed b c used mid mid' before sound p e g pre post parent children placed stands only ih =>
    refine ih.congr (placed.nodes.2 x).1 fun hparent => ?_
    have hxg : x ≠ g := by
      rintro rfl
      exact sound.hangs_of_only parent children only hparent
    exact (placed.put.links hxg).1.trans hparent
  | @dropped b c used mid before sound nodes p e pre post parent children out ignorable ih =>
    refine ih.congr (nodes.2 x).1 fun hparent => ?_
    by_cases hxe : x = e
    · rw [hxe]
      exact out.removed
    · refine (out.links hxe fun hpost => ?_).1.trans hparent
      have hhangs :=
        (sound.child_mem parent (children ▸ List.mem_append_right _ (List.mem_cons_of_mem e hpost))).2
      rw [hparent] at hhangs
      cases hhangs
  | @moved b used mid before sound e g parent block only branch condition kind ih =>
    have hlinks : b.SameLinks (b.update g fun d => { d with location := (b.get e).location }) :=
      sameLinks_update b g _ ⟨rfl, rfl, rfl⟩
    exact ih.congr (b.kind_relocated g _ x) fun hparent => (hlinks.place x).1.trans hparent
  | @trimmed b used mid before sound y own on text opening trailing kind hopening htrailing ih =>
    have hlinks := b.sameLinks_trimming y text opening trailing
    by_cases hx : x = y
    · subst hx
      obtain ⟨text', trimmed', htext, hless⟩ := ih
      refine ⟨text', trimmed', htext, hless.imp
        (fun hparent => (hlinks.place x).1.trans hparent) fun ⟨shown, trimmed, hkind, hshorter⟩ => ?_⟩
      obtain ⟨rfl, -⟩ := Kind.text.inj (hkind.symm.trans kind)
      rw [b.get_trimming (sound.inside own)]
      refine ⟨_, true, rfl, ?_⟩
      rw [String.toList_ofList]
      exact Nat.lt_of_le_of_lt (length_trimmedText_le _ _ _) hshorter
    · refine ih.congr ?_ fun hparent => (hlinks.place x).1.trans hparent
      rw [b.get_trimming_ne hx]

namespace Intact

variable (h : a.Intact b used) (hread : a.AsRead r ss)
include h hread

/-- What is dropped is a text that could go at first. -/
theorem lessened_of_dropped {c : Arena} {p e : ElementId} {pre post : List ElementId}
    (hshows : ∀ x < a.size, (a.get x).kind.Shows) (hp : used p) (hchildren : b.children p = pre ++ e :: post)
    (hout : TakenOut b c p pre e post) (hignorable : b.isIgnorable e true = .ok true) :
    ¬ a.Unpadded e ∧ a.Lessened c e := by
  obtain ⟨he, hparent⟩ := h.sound.child_mem hp (hchildren ▸ List.mem_append_right _ List.mem_cons_self)
  have hin := h.inside he
  have hkind : (b.get e).kind.isText = true := by
    by_contra hnot
    have hsame := h.kind_eq (Bool.not_eq_true _ ▸ hnot)
    rcases goes_of_isIgnorable hignorable with hleaf | hsequence
    · generalize hkind : (b.get e).kind = kind at hleaf
      cases hleaf with
      | text text trimmed => exact hnot (by rw [hkind]; rfl)
      | comment comment => exact hshows e hin comment (hsame.symm.trans hkind)
    · have hroot := hread.flat hin (hsame.symm.trans hsequence)
      rw [(h.hangs e).2 (hroot ▸ hread.orphan)] at hparent
      cases hparent
  obtain ⟨text, trimmed, hb⟩ := Kind.exists_of_isText hkind
  obtain ⟨trimmed', ha⟩ := h.kind_text hb
  refine ⟨fun hunpadded => ?_, text, trimmed', ha, .inl hout.removed⟩
  rw [h.isIgnorable hread (by rw [ha]; rfl), (hunpadded text trimmed' ha).1] at hignorable
  cases hignorable

/-- A text is trimmed as it would have been at first. -/
theorem trimmed_or_lessened {text : String} {opening trailing : Nat} (hx : used x)
    (hkind : (b.get x).kind = .text text false) (hopening : b.openingStrip x text.toList = .ok opening)
    (htrailing : b.trailingStrip x text.toList = .ok trailing) :
    (opening = 0 ∧ trailing = 0 ∧ a.openingStrip x text.toList = .ok 0 ∧
      a.trailingStrip x text.toList = .ok 0) ∨
      ¬ a.Unpadded x ∧ a.Lessened (b.trimming x text opening trailing) x := by
  obtain ⟨trimmed, ha⟩ := h.kind_text hkind
  have hother : ∀ kind : Kind, kind.isText = false → (a.get x).kind ≠ kind :=
    fun _ => Kind.ne_of_isText (by rw [ha]; rfl)
  obtain ⟨ss', htidy⟩ := h.exists_tidy hread
  have hin : x ∈ ids ss' := by
    refine (h.collapsed_root hread htidy).mem_ids ?_ (hother _ rfl)
    have hall := hread.all (h.inside hx)
    rw [ids_singleton] at hall
    exact (List.mem_cons.1 hall).resolve_left fun hroot => hother _ rfl (hroot ▸ hread.root)
  have hlocation : (b.get x).location = (a.get x).location := by
    obtain hsame | ⟨e, halone, -⟩ := h.location x
    · exact hsame
    · obtain ⟨branch, condition, hbranch⟩ := halone.branch hread
      exact absurd hbranch (hother _ rfl)
  rw [h.openingStrip hread htidy hin hlocation] at hopening
  rw [h.trailingStrip hread htidy hin hlocation] at htrailing
  by_cases hnone : opening = 0 ∧ trailing = 0
  · obtain ⟨rfl, rfl⟩ := hnone
    exact .inl ⟨rfl, rfl, hopening, htrailing⟩
  · refine .inr ⟨fun hunpadded => hnone ?_, text, trimmed, ha,
      .inr ⟨_, true, by rw [b.get_trimming (h.sound.inside hx)], ?_⟩⟩
    · obtain ⟨-, hopening', htrailing'⟩ := hunpadded text trimmed ha
      exact ⟨Except.ok.inj (hopening.symm.trans hopening'), Except.ok.inj (htrailing.symm.trans htrailing')⟩
    · rw [String.toList_ofList]
      exact length_trimmedText_lt hnone (mt String.toList_eq_nil_iff.1 (hread.texts ha).1)

end Intact

/-- A pass takes nothing away, unless something can be stripped of a text as it stood at first. -/
theorem AsRead.intact_or_lessened {used' : ElementId → Prop} (hread : a.AsRead r ss)
    (hshows : ∀ x < a.size, (a.get x).kind.Shows) (hleads : Leads true a b (· < a.size) used') :
    (a.Intact b used' ∧ ∀ x text, (b.get x).kind = .text text true → a.openingStrip x text.toList = .ok 0 ∧
      a.trailingStrip x text.toList = .ok 0) ∨
      ∃ x, ¬ a.Unpadded x ∧ a.Lessened b x := by
  generalize hused : (· < a.size) = used at hleads
  induction hleads with
  | refl =>
    subst hused
    refine .inl ⟨hread.intact, fun x text hkind => ?_⟩
    cases (hread.texts hkind).2
  | @stored b c used mid before nodes links ih =>
    obtain ⟨hintact, hdone⟩ | ⟨x, hx, hlost⟩ := ih hused
    · exact .inl ⟨hintact.stored nodes links, fun x text hkind =>
        hdone x text ((nodes.2 x).1.symm.trans hkind)⟩
    · exact .inr ⟨x, hx, hlost.leads (.stored (.refl mid) nodes links)⟩
  | @placed b c used mid mid' before sound p e g pre post parent children placed stands only ih =>
    obtain ⟨hintact, hdone⟩ | ⟨x, hx, hlost⟩ := ih hused
    · exact .inl ⟨hintact.placed hread parent children placed stands only,
        fun x text hkind => hdone x text ((placed.nodes.2 x).1.symm.trans hkind)⟩
    · exact .inr ⟨x, hx, hlost.leads (.placed (.refl mid) sound parent children placed stands only)⟩
  | @dropped b c used mid before sound nodes p e pre post parent children out ignorable ih =>
    obtain ⟨hintact, -⟩ | ⟨x, hx, hlost⟩ := ih hused
    · exact .inr ⟨e, hintact.lessened_of_dropped hread hshows parent children out ignorable⟩
    · exact .inr ⟨x, hx, hlost.leads (.dropped (.refl mid) sound nodes parent children out ignorable)⟩
  | @moved b used mid before sound e g parent block only branch condition kind ih =>
    obtain ⟨hintact, hdone⟩ | ⟨x, hx, hlost⟩ := ih hused
    · exact .inl ⟨hintact.moved hread parent block only, fun x text hkind =>
        hdone x text ((b.kind_relocated g _ x).symm.trans hkind)⟩
    · exact .inr ⟨x, hx, hlost.leads (.moved (.refl mid) sound parent block only kind)⟩
  | @trimmed b used mid before sound x own on text opening trailing kind hopening htrailing ih =>
    obtain ⟨hintact, hdone⟩ | ⟨y, hy, hlost⟩ := ih hused
    · obtain ⟨rfl, rfl, hnone⟩ | hlost := hintact.trimmed_or_lessened hread own kind hopening htrailing
      · refine .inl ⟨hintact.trimmed hread own kind, fun y shown hkind => ?_⟩
        by_cases hy : y = x
        · rw [hy, b.get_trimming (sound.inside own)] at hkind
          obtain ⟨rfl, -⟩ := Kind.text.inj hkind
          rw [hy, String.toList_ofList]
          simpa [trimmedText] using hnone
        · rw [b.get_trimming_ne hy] at hkind
          exact hdone y shown hkind
      · exact .inr ⟨x, hlost⟩
    · exact .inr ⟨y, hy, hlost.leads (.trimmed (.refl mid) sound own on kind hopening htrailing)⟩

end

end Arena

/-! ### Finished templates -/

section
variable {strip : Bool} {source : Source} {raw : Tree} {t : Template} {parts us : List Shape} {x : ElementId}

/-- The pass that finishes a template, and what hangs together at its end. -/
theorem Finished.exists_leads (h : Finished strip raw t parts us) : ∃ c used ss,
    Edit.clean strip (Arena.load {} raw).2 (Arena.load {} raw).1 = .ok t.root c ∧ t.arena = c.detach t.root ∧
      Leads strip (Arena.load {} raw).1 c (· < (Arena.load {} raw).1.size) used ∧
        Tidy c used (Arena.load {} raw).2 ss ∧
        ∀ x, x ≠ (Arena.load {} raw).2 → (x ∈ t.elements ↔ x ∈ ids ss) := by
  have hloaded := h.loaded
  obtain ⟨c, hclean, harena⟩ := h.exists_clean
  obtain ⟨c', used, r, vs, hclean', hcleaned⟩ := Stencil.exists_clean strip hloaded.tidy hloaded.formed
  obtain ⟨rfl, rfl⟩ := EStateM.Result.ok.inj (hclean'.symm.trans hclean)
  have helements : t.elements = ids [⟨t.root, vs⟩] := by
    rw [Template.elements, harena]
    exact preorder_eq_ids (hcleaned.tidy_detach hloaded.tidy hloaded.orphan)
  obtain ⟨ss, htidy⟩ := hcleaned.tidy.sound.exists_tidy
    (hcleaned.touches.still hloaded.tidy.root hloaded.tidy.notMem)
    (hcleaned.touches.place.1.trans hloaded.orphan)
  refine ⟨c', used, ss, hclean, harena, hcleaned.touches.leads, htidy, fun x hx => ?_⟩
  have hids := preorder_eq_ids htidy
  rw [helements, ← preorder_eq_ids hcleaned.tidy]
  rcases hcleaned.place with hsame | ⟨-, honly⟩
  · rw [hsame, hids, ids_singleton, List.mem_cons, or_iff_right hx]
  · obtain ⟨⟨g, below⟩, rest, rfl, hg, hrest⟩ := List.map_eq_cons_iff.1 (htidy.children.symm.trans honly)
    obtain rfl := List.map_eq_nil_iff.1 hrest
    obtain rfl : g = t.root := hg
    rw [preorder_eq_ids htidy.only]

/-- A text is shown if it is left. -/
theorem Template.shownText_eq_iff {text : String} (htext : (t.arena.get x).kind.isText = true)
    (hnonempty : text ≠ "") :
    t.shownText x = text ↔ x ∈ t.elements ∧ ∃ trimmed, (t.arena.get x).kind = .text text trimmed := by
  rw [shownText]
  by_cases hx : x ∈ t.elements
  · rw [if_pos hx, and_iff_right hx]
    obtain ⟨shown, trimmed, hkind⟩ := Kind.exists_of_isText htext
    simp [hkind]
  · rw [if_neg hx]
    exact ⟨fun hnone => absurd hnone.symm hnonempty, fun hboth => absurd hboth.1 hx⟩

/-- No text that is left can go as they stand at first. -/
theorem Finished.not_isIgnorable (h : Finished true raw t parts us) (hraw : Tree.parse source = .ok raw)
    (hshows : Tree.Each Kind.Shows [raw]) (hx : x ∈ t.elements)
    (htext : ((Arena.load {} raw).1.get x).kind.isText = true) :
    (Arena.load {} raw).1.isIgnorable x true = .ok false := by
  have hread := h.loaded.asRead hraw
  have hin : x < (Arena.load {} raw).1.size := Arena.lt_size_of_kind (Kind.ne_of_isText htext rfl)
  obtain ⟨ignorable, hignorable⟩ := hread.tidy.sound.isIgnorable hin true
  cases ignorable with
  | false => exact hignorable
  | true =>
    refine absurd hx (h.notMem_of_goes hraw .self ?_ fun e comment hprevious => ?_)
    · rw [Arena.goesWhenStripping_eq, if_pos htext, hignorable]
    · obtain ⟨found, hfound, hused⟩ := hread.tidy.sound.previousSibling hin
      have he := hused e (Except.ok.inj (hfound.symm.trans hprevious))
      exact Tree.Each.of_holds h.holds hshows e (h.loaded.all he) comment

/-- Where blanks are stripped, every text is left as it was just if nothing can be stripped of any
as they stand at first. -/
theorem Finished.unpadded_iff (h : Finished true raw t parts us) (hraw : Tree.parse source = .ok raw)
    (hshows : Tree.Each Kind.Shows [raw]) : (∀ x ∈ ids [⟨(Arena.load {} raw).2, parts⟩], ∀ text trimmed,
      ((Arena.load {} raw).1.get x).kind = .text text trimmed → t.shownText x = text) ↔
      ∀ x, (Arena.load {} raw).1.Unpadded x := by
  have hread := h.loaded.asRead hraw
  obtain ⟨c, used, ss, hclean, harena, hleads, htidy, hmem⟩ := h.exists_leads
  have hcases := hread.intact_or_lessened
    (fun x hx => Tree.Each.of_holds h.holds hshows x (h.loaded.all hx)) hleads
  have hkinds : ∀ x, (t.arena.get x).kind = (c.get x).kind :=
    fun x => by rw [harena, ((Arena.sameNodes_detach c t.root).2 x).1]
  have hleft : ∀ {x text trimmed}, ((Arena.load {} raw).1.get x).kind = .text text trimmed → x ∈ ids parts ∧
      (t.shownText x = text ↔ x ∈ ids ss ∧ ∃ trimmed, (c.get x).kind = .text text trimmed) := by
    intro x text trimmed hkind
    have hin := h.loaded.all (Arena.lt_size_of_kind (x := x) (by rw [hkind]; exact Kind.noConfusion))
    have hroot : x ≠ (Arena.load {} raw).2 := by
      rintro rfl
      rw [hread.root] at hkind
      cases hkind
    rw [ids_singleton] at hin
    refine ⟨(List.mem_cons.1 hin).resolve_left hroot, ?_⟩
    rw [← hmem x hroot, ← hkinds]
    refine Template.shownText_eq_iff ?_ (hread.texts hkind).1
    rw [(h.became x).isText, hkind]
    rfl
  constructor
  · intro hsame
    have hall : ∀ {x text trimmed}, ((Arena.load {} raw).1.get x).kind = .text text trimmed →
        x ∈ ids ss ∧ ∃ trimmed, (c.get x).kind = .text text trimmed := fun {x text trimmed} hkind =>
      (hleft hkind).2.1
        (hsame x (by rw [ids_singleton]; exact List.mem_cons_of_mem _ (hleft hkind).1) text trimmed hkind)
    rcases hcases with ⟨-, hdone⟩ | ⟨x, -, text, trimmed, hkind, hless⟩
    · intro x text trimmed hkind
      obtain ⟨hin, trimmed', hkind'⟩ := hall hkind
      have helement : x ∈ t.elements := (hmem x fun hroot => htidy.notMem (hroot ▸ hin)).2 hin
      refine ⟨h.not_isIgnorable hraw hshows helement (by rw [hkind]; rfl), hdone x text ?_⟩
      -- The pass has come to the text, since it is at rest now.
      obtain ⟨c', _, _, hclean', -, -, hrest⟩ := h.exists_atRest hraw
      obtain ⟨-, rfl⟩ := EStateM.Result.ok.inj (hclean.symm.trans hclean')
      have htrimmed := (hrest x helement).trimmed rfl text
      rw [hkind', ne_eq, Kind.text.injEq, not_and, Bool.not_eq_false] at htrimmed
      rw [hkind', htrimmed rfl]
    · obtain ⟨hin, trimmed', hkind'⟩ := hall hkind
      rcases hless with hparent | ⟨text', trimmed'', hkind'', hlength⟩
      · obtain ⟨q, hq, hmem⟩ := htidy.exists_parent hin
        rw [(htidy.sound.child_mem hq hmem).2] at hparent
        cases hparent
      · obtain ⟨rfl, -⟩ := Kind.text.inj (hkind'.symm.trans hkind'')
        exact absurd hlength (Nat.lt_irrefl _)
  · intro hunpadded x _ text trimmed hkind
    obtain ⟨hintact, -⟩ := hcases.resolve_right fun ⟨x, hx, _⟩ => hx (hunpadded x)
    obtain ⟨hin, hshown⟩ := hleft hkind
    refine hshown.2 ⟨(hintact.collapsed_root hread htidy).mem_ids hin
      (by rw [hkind]; exact Kind.noConfusion), ?_⟩
    obtain hsame | ⟨text', hbefore, hafter⟩ := hintact.kind x
    · exact ⟨trimmed, hsame.trans hkind⟩
    · obtain ⟨rfl, -⟩ := Kind.text.inj (hbefore.symm.trans hkind)
      exact ⟨true, hafter⟩

end

end Stencil
