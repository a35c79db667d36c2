import Stencil.Proofs.Arena.Loading
import Stencil.Proofs.Cleanup.Finish
import Stencil.Proofs.Reading.Readers

/-! # Cleanup preserves meaning

A template runs like the tree that was read, if that has the texts that cleanup left: what is dropped and
what gives way to its only child is never noticed, neither in the output nor in an error. -/

namespace Stencil

open Execution Shape

/-! ### The tree before cleanup -/

/-- An arena where every text is what `texts` says. -/
def Arena.withTexts (a : Arena) (texts : ElementId → String) : Arena :=
  ⟨a.elements.mapIdx fun x e => { e with kind := e.kind.withText (texts x) }⟩

/-- The text that an element shows in a finished template, where it may have been dropped. -/
def Template.shownText (t : Template) (x : ElementId) : String :=
  if x ∈ t.elements then
    match (t.arena.get x).kind with
    | .text text _ => text
    | _ => ""
  else ""

/-- The tree of a template before cleanup, with the texts that cleanup left. -/
def Template.uncleaned (t : Template) (raw : Tree) : Tree :=
  ((Arena.load {} raw).1.withTexts t.shownText).tree (Arena.load {} raw).2

section
variable {a : Arena} {used : ElementId → Prop} {p : ElementId} {ss : List Shape}

theorem Arena.get_withTexts (a : Arena) (texts : ElementId → String) {x : ElementId} (hx : x < a.size) :
    (a.withTexts texts).get x = { a.get x with kind := (a.get x).kind.withText (texts x) } := by
  have hin : x < a.elements.size := hx
  simp [Arena.get, Arena.withTexts, Array.getD_eq_getD_getElem?, hin]

theorem Arena.size_withTexts (a : Arena) (texts : ElementId → String) :
    (a.withTexts texts).size = a.size := by
  simp [Arena.size, Arena.withTexts]

theorem Arena.sameLinks_withTexts (a : Arena) (texts : ElementId → String) :
    a.SameLinks (a.withTexts texts) := by
  have hget : ∀ x, ((a.withTexts texts).get x).children = (a.get x).children ∧
      ((a.withTexts texts).get x).parent = (a.get x).parent ∧
      ((a.withTexts texts).get x).index = (a.get x).index := by
    intro x
    by_cases hx : x < a.size
    · rw [a.get_withTexts texts hx]
      exact ⟨rfl, rfl, rfl⟩
    · have hout : ¬ x < a.elements.size := hx
      simp [Arena.get, Arena.withTexts, Array.getD_eq_getD_getElem?, hout]
  exact ⟨a.size_withTexts texts, fun x => (hget x).1, fun x => (hget x).2⟩

theorem Kind.withText_withText (text text' : String) (kind : Kind) :
    (kind.withText text).withText text' = kind.withText text' := by
  cases kind <;> rfl

theorem trees_withTexts (texts : ElementId → String) {ss : List Shape}
    (hinside : ∀ x ∈ ids ss, x < a.size) (inBlock : Bool) :
    trees (a.withTexts texts) texts inBlock ss = trees a texts inBlock ss := by
  induction ss using forest_induction generalizing inBlock with
  | nil => rw [trees_nil, trees_nil]
  | cons id parts ss ihParts ih =>
    obtain ⟨hself, hparts, hrest⟩ := forall_mem_ids_cons.1 hinside
    rw [trees, trees, a.get_withTexts texts hself, Kind.withText_withText, Kind.isIfBlock_withText,
      ihParts hparts, ih hrest]

/-- The tree of an arena with other texts. -/
theorem Tidy.tree_withTexts (h : Tidy a used p ss) (hroot : (a.get p).parent = none)
    (texts : ElementId → String) :
    [(a.withTexts texts).tree p] = trees a texts false [⟨p, ss⟩] := by
  have hinside : ∀ x ∈ ids [⟨p, ss⟩], x < a.size := by
    intro x hx
    rw [ids_singleton] at hx
    rcases List.mem_cons.1 hx with rfl | hx
    · exact h.sound.inside h.root
    · exact h.inside hx
  have hlinks := a.sameLinks_withTexts texts
  rw [← trees_withTexts texts hinside]
  refine tree_eq_trees (h.sameLinks hlinks) ((hlinks.place p).1.trans hroot) fun x hx => ?_
  rw [a.get_withTexts texts (hinside x hx), Kind.withText_withText]

/-! ### What is loaded can be cleaned up -/

theorem Shape.Holds.exists_kind {ts : List Tree} (h : Holds a ss ts) {s : Shape} (hs : s ∈ ss) :
    ∃ t ∈ ts, (a.get s.root).kind = t.kind := by
  have hnode := List.mem_map_of_mem (f := fun s => ((a.get s.root).kind, (a.get s.root).location)) hs
  rw [h.roots] at hnode
  obtain ⟨t, ht, hsame⟩ := List.mem_map.1 hnode
  exact ⟨t, ht, (Prod.mk.inj hsame).1.symm⟩

theorem hasBody_of_isLeaf {kind : Kind} (h : Execution.Kind.IsLeaf kind) : kind.hasBody = false := by
  cases h <;> rfl

/-- What can be written is formed as cleanup needs it. -/
theorem Shape.Holds.formed {ts : List Tree} {branches : Bool} (h : Holds a ss ts)
    (hwritten : Tree.Written branches ts) :
    Formed a ss := by
  induction ss using forest_induction generalizing ts branches with
  | nil => simp only [Formed]
  | cons id parts ss ihParts ih =>
    cases ts with
    | nil => simp only [Holds] at h
    | cons t ts =>
      rw [Holds] at h
      obtain ⟨hkind, -, hparts, hss⟩ := h
      cases hwritten with
      | cons _ leaf block _ _ body tail =>
        rw [Formed, hkind]
        refine ⟨fun hleaf => ?_, fun hblock s hs => ?_, ihParts hparts body, ih hss tail⟩
        · rw [leaf (hasBody_of_isLeaf hleaf)] at hparts
          cases parts with
          | nil => rfl
          | cons s parts => simp only [Holds] at hparts
        · obtain ⟨u, hu, hsame⟩ := hparts.exists_kind hs
          obtain ⟨branch, condition, hconditional⟩ := (block hblock).conditional u hu
          exact ⟨branch, condition, hsame.trans hconditional⟩

theorem Shape.Holds.formed_root {t : Tree} {parts : List Shape} (h : Holds a [⟨p, parts⟩] [t])
    (hwritten : t.kind = .sequence ∧ Tree.Written false t.children) : Formed a [⟨p, parts⟩] := by
  rw [Holds] at h
  rw [Formed, h.1, hwritten.1]
  exact ⟨by rintro ⟨⟩, by rintro ⟨⟩, h.2.2.1.formed hwritten.2, by rw [Formed]; trivial⟩

/-- A tree in an arena of its own. -/
structure JustLoaded (raw : Tree) (parts : List Shape) : Prop where
  tidy : Tidy (Arena.load {} raw).1 (· < (Arena.load {} raw).1.size) (Arena.load {} raw).2 parts
  orphan : ((Arena.load {} raw).1.get (Arena.load {} raw).2).parent = none
  formed : Formed (Arena.load {} raw).1 [⟨(Arena.load {} raw).2, parts⟩]
  holds : Holds (Arena.load {} raw).1 [⟨(Arena.load {} raw).2, parts⟩] [raw]
  all {x : ElementId} : x < (Arena.load {} raw).1.size → x ∈ ids [⟨(Arena.load {} raw).2, parts⟩]

theorem JustLoaded.root_kind {raw : Tree} {parts : List Shape} (h : JustLoaded raw parts) :
    ((Arena.load {} raw).1.get (Arena.load {} raw).2).kind = raw.kind := by
  have hholds := h.holds
  rw [Holds] at hholds
  exact hholds.1

theorem exists_justLoaded {source : Source} {raw : Tree} (h : Tree.parse source = .ok raw) :
    ∃ parts, JustLoaded raw parts := by
  obtain ⟨parts, hloaded⟩ := exists_load raw Arena.sound_empty
  have hroot := List.mem_singleton_self (⟨(Arena.load {} raw).2, parts⟩ : Shape)
  exact ⟨parts, ⟨hloaded.sound, (hloaded.new (root_mem_ids hroot)).2, hloaded.spans, hloaded.nodup⟩,
    hloaded.roots hroot, hloaded.holds.formed_root (Tree.written_of_parse h), hloaded.holds,
    hloaded.all (Nat.zero_le _)⟩

end

/-! ### Cleanup preserves meaning -/

/-- A template and the shapes of the tree it was made from and of its own. -/
structure Finished (strip : Bool) (raw : Tree) (t : Template) (parts us : List Shape) : Prop where
  loaded : JustLoaded raw parts
  edit : Edit.finish strip (Arena.load {} raw).2 (Arena.load {} raw).1 = .ok t.root t.arena
  steps : ∃ b, Steps strip (Arena.load {} raw).1 b ∧ b.SameNodes t.arena
  elements : t.elements = ids [⟨t.root, us⟩]
  uncleaned : [t.uncleaned raw] =
    trees (Arena.load {} raw).1 t.shownText false [⟨(Arena.load {} raw).2, parts⟩]
  tree {texts : ElementId → String} :
    (∀ x ∈ t.elements, (t.arena.get x).kind.withText (texts x) = (t.arena.get x).kind) →
    [t.tree] = trees t.arena texts false [⟨t.root, us⟩]
  cleans : Cleans strip (Arena.load {} raw).1 t.arena false [⟨(Arena.load {} raw).2, parts⟩] [⟨t.root, us⟩]
  settles : Settles (Arena.load {} raw).1 t.arena [⟨(Arena.load {} raw).2, parts⟩] [⟨t.root, us⟩]
  weeds : Weeds strip t.arena [⟨(Arena.load {} raw).2, parts⟩] [⟨t.root, us⟩]
  tidy : ∃ used, Tidy t.arena used t.root us
  fewer : (ids [⟨t.root, us⟩]).Sublist (ids [⟨(Arena.load {} raw).2, parts⟩])

theorem Finished.holds {strip : Bool} {raw : Tree} {t : Template} {parts us : List Shape}
    (h : Finished strip raw t parts us) :
    Holds (Arena.load {} raw).1 [⟨(Arena.load {} raw).2, parts⟩] [raw] := h.loaded.holds

/-- What has become of the elements. -/
theorem Finished.became {strip : Bool} {raw : Tree} {t : Template} {parts us : List Shape}
    (h : Finished strip raw t parts us) (x : ElementId) : Became strip (Arena.load {} raw).1 t.arena x := by
  obtain ⟨b, hsteps, hnodes⟩ := h.steps
  exact (hsteps.became x).congr (hnodes.2 x).1 (hnodes.2 x).2

theorem Finished.evolves {strip : Bool} {raw : Tree} {t : Template} {parts us : List Shape}
    (h : Finished strip raw t parts us) :
    Evolves strip (Arena.load {} raw).1 t.arena := by
  obtain ⟨b, hsteps, hnodes⟩ := h.steps
  exact hsteps.evolves.trans (.of_sameNodes hnodes)

theorem exists_finished {name : Option String} {text : String} {raw : Tree}
    (h : Tree.parse ⟨name, text⟩ = .ok raw) (strip : Bool) :
    ∃ t parts us, Template.parse name text strip = .ok t ∧ Finished strip raw t parts us := by
  obtain ⟨parts, hloaded⟩ := exists_justLoaded h
  obtain ⟨b, used, r, us, hedit, htidy', hroot', hsteps, hfewer, hcleans, hsettles, hweeds⟩ :=
    exists_finish strip hloaded.tidy hloaded.formed hloaded.orphan
  have hids : (⟨⟨name, text⟩, b, r⟩ : Template).elements = ids [⟨r, us⟩] := preorder_eq_ids htidy'
  refine ⟨⟨⟨name, text⟩, b, r⟩, parts, us, ?_, hloaded, hedit, hsteps, hids,
    hloaded.tidy.tree_withTexts hloaded.orphan _, fun {texts} htexts => ?_, hcleans,
    hsettles, hweeds, ⟨used, htidy'⟩, hfewer⟩
  · simp only [Template.parse, h, Template.ofTree, bind, Except.bind, hedit]
    rfl
  · exact tree_eq_trees htidy' hroot' fun x hx => htexts x (hids ▸ hx)

theorem exists_finished_of_parse {name : Option String} {text : String} {strip : Bool} {t : Template}
    (h : Template.parse name text strip = .ok t) :
    ∃ raw parts us, Tree.parse ⟨name, text⟩ = .ok raw ∧ Finished strip raw t parts us := by
  cases hraw : Tree.parse ⟨name, text⟩ with
  | error e =>
    simp only [Template.parse, hraw, bind, Except.bind] at h
    cases h
  | ok raw =>
    obtain ⟨t', parts, us, hparse, hfinished⟩ := exists_finished hraw strip
    rw [h] at hparse
    obtain rfl := Except.ok.inj hparse
    exact ⟨raw, parts, us, rfl, hfinished⟩

theorem Template.exists_of_parses (name : Option String) (text : String) (strip : Bool) (p : Template → Bool)
    (h : (Template.parse name text strip).toOption.any p = true) :
    ∃ t, Template.parse name text strip = .ok t ∧ p t = true := by
  cases hparse : Template.parse name text strip with
  | error e => rw [hparse] at h; cases h
  | ok t => rw [hparse] at h; exact ⟨t, rfl, h⟩

/-- The texts of a template are those it shows. -/
theorem Template.withText_shownText {t : Template} {x : ElementId} (hx : x ∈ t.elements) :
    (t.arena.get x).kind.withText (t.shownText x) = (t.arena.get x).kind := by
  rw [Template.shownText, if_pos hx]
  cases (t.arena.get x).kind <;> rfl

/-- What is left runs like what there was with the texts that are left. -/
theorem Finished.sameRun {strip : Bool} {raw : Tree} {t : Template} {parts us : List Shape}
    (h : Finished strip raw t parts us) :
    SameRun false [t.uncleaned raw] [t.tree] := by
  rw [h.uncleaned, h.tree fun x hx => t.withText_shownText hx]
  refine h.cleans t.shownText (fun x _ hx => .inl ?_) false false
  rw [← h.elements] at hx
  rw [Template.shownText, if_neg hx]

/-- Finishing a tree that was read succeeds, and the template is processed like that tree, up to the
bodies of the macros that can be called afterwards. -/
theorem process_uncleaned {name : Option String} {text : String} {raw : Tree}
    (h : Tree.parse ⟨name, text⟩ = .ok raw) (strip : Bool) : ∃ t, Template.parse name text strip = .ok t ∧
      Edit.finish strip (Arena.load {} raw).2 (Arena.load {} raw).1 = .ok t.root t.arena ∧
      ∀ env, withoutMacros ((Environment.process (t.uncleaned raw) : Action Unit) env) =
        withoutMacros ((Environment.process t.tree : Action Unit) env) := by
  obtain ⟨t, parts, us, hparse, hfinished⟩ := exists_finished h strip
  exact ⟨t, hparse, hfinished.edit, process_eq_of_sameRun hfinished.sameRun⟩

/-- A directive on a line of its own, a comment and an if block with one branch. -/
theorem process_uncleaned_branch :
    ∃ raw t, Tree.parse ⟨none, "\x7b[#if x]\x7d\n\x7b[%c]\x7dy\x7b[/if]\x7d\n"⟩ = .ok raw ∧
    Template.parse none "\x7b[#if x]\x7d\n\x7b[%c]\x7dy\x7b[/if]\x7d\n" true = .ok t ∧
    Edit.finish true (Arena.load {} raw).2 (Arena.load {} raw).1 = .ok t.root t.arena ∧
    ∀ env, withoutMacros ((Environment.process (t.uncleaned raw) : Action Unit) env) =
      withoutMacros ((Environment.process t.tree : Action Unit) env) := by
  have hparses : (Tree.parse ⟨none, "\x7b[#if x]\x7d\n\x7b[%c]\x7dy\x7b[/if]\x7d\n"⟩).toOption.isSome =
      true := by
    decide +kernel
  obtain ⟨raw, hraw⟩ := Option.isSome_iff_exists.1 hparses
  have hraw : Tree.parse ⟨none, "\x7b[#if x]\x7d\n\x7b[%c]\x7dy\x7b[/if]\x7d\n"⟩ = .ok raw := by
    cases hparse : Tree.parse ⟨none, "\x7b[#if x]\x7d\n\x7b[%c]\x7dy\x7b[/if]\x7d\n"⟩ with
    | error e => rw [hparse] at hraw; cases hraw
    | ok raw' => rw [hparse] at hraw; rw [Option.some.inj hraw]
  obtain ⟨t, ht⟩ := process_uncleaned hraw true
  exact ⟨raw, t, hraw, ht⟩

end Stencil
