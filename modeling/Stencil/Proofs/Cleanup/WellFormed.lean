import Stencil.Proofs.Cleanup.Again
import Stencil.Proofs.Reading.Canonical

/-! # Finished templates are well formed

Reading puts the branches of an if block in order, gives bodies to those elements only that have one, and
checks the names. Cleaning up leaves comments and empty texts out, and lets no sequence and no if block
stand around a single element. Neither undoes what the other has done. -/

namespace Stencil

open Shape

/-! ### Names -/

/-- The names in an expression. -/
def Expr.names : Expr → List String
  | string _ _ | integer _ _ | boolean _ _ | null _ => []
  | var _ name => [name]
  | dot _ target key => target.names ++ [key]
  | binary _ _ left right => left.names ++ right.names
  | not _ inner | group _ inner | eval _ inner => inner.names

/-- The names that an element is written with, first those it has itself and then those in its expressions. -/
def Kind.names (kind : Kind) : List String :=
  own ++ kind.expressions.flatMap Expr.names
where
  own : List String :=
    match kind with
    | list _ item => [item]
    | assignment target _ | capture target => [target]
    | definition name parameters => name :: parameters
    | call name _ => [name]
    | _ => []

theorem Expr.Written.isName {n : Nat} {e : Expr} (h : e.Written n) : ∀ name ∈ e.names, IsName name := by
  induction h with
  | string | integer | boolean | null => exact List.forall_mem_nil _
  | var _ h => exact List.forall_mem_singleton.2 h
  | dot _ _ hkey ih => exact List.forall_mem_append.2 ⟨ih, List.forall_mem_singleton.2 hkey⟩
  | binary _ _ _ _ ihLeft ihRight => exact List.forall_mem_append.2 ⟨ihLeft, ihRight⟩
  | group _ _ ih | eval _ _ ih | not _ _ _ ih => exact ih

theorem Kind.Written.expressions {kind : Kind} (h : kind.Written) : ∀ e ∈ kind.expressions, e.Written 0 := by
  cases kind with
  | sequence => exact h.elim
  | text | ifBlock | capture | definition | comment => exact List.forall_mem_nil _
  | interpolation | inclusion => exact List.forall_mem_singleton.2 h
  | conditional branch condition => exact fun e he => h.2 e (Option.mem_toList.1 he)
  | list => exact List.forall_mem_singleton.2 h.1
  | assignment => exact List.forall_mem_singleton.2 h.2
  | call => exact h.2

theorem Kind.Written.isName {kind : Kind} (h : kind.Written) : ∀ name ∈ kind.names, IsName name := by
  refine List.forall_mem_append.2 ⟨?_, fun name hname => ?_⟩
  · cases kind with
    | list => exact List.forall_mem_singleton.2 h.2
    | assignment => exact List.forall_mem_singleton.2 h.1
    | capture => exact List.forall_mem_singleton.2 h
    | definition => exact List.forall_mem_cons.2 ⟨h.1, h.2.1⟩
    | call => exact List.forall_mem_singleton.2 h.1
    | _ => exact List.forall_mem_nil _
  · obtain ⟨e, he, hin⟩ := List.mem_flatMap.1 hname
    exact (h.expressions e he).isName name hin

/-! ### Branches -/

/-- What follows the first branch of an if block: branches for other conditions, of which the
last may be one for none. -/
inductive Kind.Alternatives : List Kind → Prop
  | elseIf (condition : Expr) : Alternatives [.conditional .elseIf (some condition)]
  | otherwise : Alternatives [.conditional .otherwise none]
  | more (condition : Expr) {kinds : List Kind} (rest : Alternatives kinds) :
    Alternatives (.conditional .elseIf (some condition) :: kinds)

/-- The branches of an if block, two or more of them. -/
inductive Kind.Branching : List Kind → Prop
  | main (condition : Expr) {kinds : List Kind} (rest : Alternatives kinds) :
    Branching (.conditional .main (some condition) :: kinds)

theorem Kind.Written.exists_condition {kind : Kind} {branch : Branch} {condition : Option Expr}
    (h : kind.Written) (hkind : kind = .conditional branch condition) (hbranch : branch ≠ .otherwise) :
    ∃ c, kind = .conditional branch (some c) := by
  rw [hkind] at h
  obtain ⟨c, rfl⟩ := Option.ne_none_iff_exists'.1 fun hnone => hbranch (h.1.2 hnone)
  exact ⟨c, hkind⟩

theorem Tree.Branches.alternatives {branch : Branch} {ts : List Tree} (h : Branches branch ts)
    (hbranch : branch ≠ .main) (hwritten : ∀ t ∈ ts, t.kind.Written) :
    Kind.Alternatives (ts.map Tree.kind) := by
  induction h with
  | @last branch condition t hkind =>
    have hself := hwritten t List.mem_cons_self
    cases branch with
    | main => exact absurd rfl hbranch
    | elseIf =>
      obtain ⟨c, hc⟩ := hself.exists_condition hkind (by rintro ⟨⟩)
      rw [List.map_singleton, hc]
      exact .elseIf c
    | otherwise =>
      rw [hkind] at hself
      rw [List.map_singleton, hkind, hself.1.1 rfl]
      exact .otherwise
  | @more branch next condition t ts hkind hmore hnext _ ih =>
    obtain ⟨hself, hrest⟩ := List.forall_mem_cons.1 hwritten
    obtain ⟨c, hc⟩ := hself.exists_condition hkind hmore
    cases branch with
    | main => exact absurd rfl hbranch
    | elseIf =>
      rw [List.map_cons, hc]
      exact .more c (ih hnext hrest)
    | otherwise => exact absurd rfl hmore

/-- The branches of an if block are in order when there are several. -/
theorem Tree.Branches.branching {ts : List Tree} (h : Branches .main ts) (hwritten : ∀ t ∈ ts, t.kind.Written)
    (hseveral : ts.length ≠ 1) :
    Kind.Branching (ts.map Tree.kind) := by
  cases h with
  | last => exact absurd rfl hseveral
  | more hkind hmore hnext rest =>
    obtain ⟨hself, hrest⟩ := List.forall_mem_cons.1 hwritten
    obtain ⟨c, hc⟩ := hself.exists_condition hkind hmore
    rw [List.map_cons, hc]
    exact .main c (rest.alternatives hnext hrest)

/-! ### Elements as they are read -/

namespace Arena

/-- An element is none of the later branches of an if block. -/
def IsMain (a : Arena) (x : ElementId) : Prop :=
  ∀ branch condition, (a.get x).kind = .conditional branch condition → branch = .main

/-- The children of an element are as they can be written below it. -/
structure Bears (a : Arena) (x : ElementId) : Prop where
  leaf : (a.get x).kind.hasBody = false → a.children x = []
  block : (a.get x).kind = .ifBlock → a.childCount x ≠ 1 →
    Kind.Branching ((a.children x).map fun y => (a.get y).kind)
  outside : (a.get x).kind ≠ .ifBlock → ∀ y ∈ a.children x, a.IsMain y

/-- An element of a finished template whose root is `r`. -/
structure WellFormed (a : Arena) (r x : ElementId) : Prop where
  lasting : (a.get x).kind.Lasting
  sequence : (a.get x).kind = .sequence → x = r ∧ a.childCount x ≠ 1
  ifBlock : (a.get x).kind = .ifBlock → Kind.Branching ((a.children x).map fun y => (a.get y).kind)
  alone {branch : Branch} {condition : Option Expr} : (a.get x).kind = .conditional branch condition →
    a.parentKind? x ≠ some .ifBlock → branch = .main ∧ condition ≠ none
  leaf : (a.get x).kind.hasBody = false → a.children x = []
  parameters {name : String} {parameters : List String} :
    (a.get x).kind = .definition name parameters → parameters.Nodup
  names : ∀ name ∈ (a.get x).kind.names, IsName name

end Arena

section
variable {a : Arena} {ss : List Shape}

theorem Shape.kinds_trees (a : Arena) (ss : List Shape) (inBlock : Bool) :
    (trees a a.ownTexts inBlock ss).map Tree.kind = (ss.map root).map fun x => (a.get x).kind := by
  induction ss with
  | nil => rw [trees_nil]; rfl
  | cons s ss ih =>
    obtain ⟨id, parts⟩ := s
    rw [trees, List.map_cons, List.map_cons, List.map_cons, ih, a.withText_ownTexts]
    rfl

theorem Shape.Spans.bears {branches inBlock : Bool} (hspans : Spans a ss)
    (h : Tree.Written branches (trees a a.ownTexts inBlock ss)) :
    (∀ x ∈ ids ss, a.Bears x ∧ (a.get x).kind.Written) ∧
    (branches = false → ∀ x ∈ ss.map root, a.IsMain x) := by
  induction ss using forest_induction generalizing branches inBlock with
  | nil => simp
  | cons id parts ss ihParts ih =>
    rw [trees, a.withText_ownTexts] at h
    rw [Spans] at hspans
    obtain ⟨hchildren, hparts, hss⟩ := hspans
    cases h with
    | cons kind leaf block outside inside body tail =>
      obtain ⟨hbelow, hmain⟩ := ihParts hparts body
      obtain ⟨hlater, hmain'⟩ := ih hss tail
      have hkinds := kinds_trees a parts (a.get id).kind.isIfBlock
      rw [← hchildren] at hmain hkinds
      refine ⟨?_, fun hfalse => List.forall_mem_cons.2 ⟨outside hfalse, hmain' hfalse⟩⟩
      rw [ids]
      refine List.forall_mem_cons.2
        ⟨⟨⟨fun hleaf => ?_, fun hblock hseveral => ?_, fun hblock => hmain ?_⟩, kind⟩,
        List.forall_mem_append.2 ⟨hbelow, hlater⟩⟩
      · have hnone := congrArg (List.map Tree.kind) (leaf hleaf)
        rw [hkinds] at hnone
        exact List.map_eq_nil_iff.1 hnone
      · rw [← hkinds]
        refine (block hblock).branching body.kind ?_
        rwa [← List.length_map, hkinds, List.length_map]
      · show (a.get id).kind.isIfBlock = false
        cases hkind : (a.get id).kind with
        | ifBlock => exact absurd hkind hblock
        | _ => rfl

end

/-! ### Finished templates -/

section
variable {strip : Bool} {source : Source} {raw : Tree} {t : Template} {parts us : List Shape} {x : ElementId}

/-- The elements of a finished template are as they can be written, and only the root is a sequence. -/
theorem Finished.bears (h : Finished strip raw t parts us)
    (hraw : raw.kind = .sequence ∧ Tree.Written false raw.children) :
    (∀ x ∈ t.elements, t.arena.Bears x ∧
      ((t.arena.get x).kind = .sequence ∧ x = t.root ∨ (t.arena.get x).kind.Written)) ∧
      t.arena.IsMain t.root := by
  obtain ⟨hwritten, -⟩ := h.written hraw
  obtain ⟨used, htidy⟩ := h.tidy
  have htree := h.tree fun x _ => t.arena.withText_ownTexts x
  rw [trees_singleton, t.arena.withText_ownTexts] at htree
  obtain ⟨htree, -⟩ := List.cons.inj htree
  rw [h.elements]
  by_cases hkind : (t.arena.get t.root).kind = .sequence
  · rw [Tree.topmost_sequence (by rw [htree]; exact hkind), htree] at hwritten
    obtain ⟨hbelow, hmain⟩ := htidy.parts.bears hwritten
    refine ⟨?_, fun branch condition hbranch => by rw [hkind] at hbranch; cases hbranch⟩
    rw [ids_singleton]
    refine List.forall_mem_cons.2 ⟨⟨⟨fun hleaf => ?_, fun hblock => ?_, fun _ => ?_⟩, .inl ⟨hkind, rfl⟩⟩,
      fun x hx => ⟨(hbelow x hx).1, .inr (hbelow x hx).2⟩⟩
    · rw [hkind] at hleaf
      cases hleaf
    · rw [hkind] at hblock
      cases hblock
    · rw [htidy.children]
      exact hmain rfl
  · rw [Tree.topmost_of_ne (by rw [htree]; exact hkind), htree] at hwritten
    have hwhole : Tree.Written false (trees t.arena t.arena.ownTexts false [⟨t.root, us⟩]) := by
      rwa [trees_singleton, t.arena.withText_ownTexts]
    obtain ⟨hbelow, hmain⟩ := htidy.spans.bears hwhole
    exact ⟨fun x hx => ⟨(hbelow x hx).1, .inr (hbelow x hx).2⟩, hmain rfl t.root (List.mem_singleton_self _)⟩

/-- Outside if blocks there are no branches but the first. -/
theorem Finished.isMain (h : Finished strip raw t parts us)
    (hraw : raw.kind = .sequence ∧ Tree.Written false raw.children) (hx : x ∈ t.elements)
    (hparent : t.arena.parentKind? x ≠ some .ifBlock) : t.arena.IsMain x := by
  obtain ⟨hbears, hroot⟩ := h.bears hraw
  obtain ⟨used, htidy⟩ := h.tidy
  rw [h.elements] at hx hbears
  rcases htidy.spans.exists_parent hx with hsame | ⟨q, hq, hmem⟩
  · obtain rfl := List.mem_singleton.1 hsame
    exact hroot
  · have hused : used q := by
      rw [ids_singleton] at hq
      exact (List.mem_cons.1 hq).elim (fun hq => hq ▸ htidy.root) htidy.used_of_mem
    refine (hbears q hq).1.outside (fun hblock => hparent ?_) x hmem
    rw [Arena.parentKind?, (htidy.sound.child_mem hused hmem).2, Option.map_some, hblock]

/-- The root of a finished template stands alone, and no sequence and no if block is left
around a single element. -/
theorem Finished.settled (h : Finished strip raw t parts us) (hraw : Tree.parse source = .ok raw) :
    (t.arena.get t.root).parent = none ∧ ∀ x ∈ t.elements,
      (t.arena.get x).kind = .sequence ∨ (t.arena.get x).kind = .ifBlock → t.arena.childCount x ≠ 1 := by
  obtain ⟨c, used, vs, -, harena, htidy, hrest⟩ := h.exists_atRest hraw
  refine ⟨?_, fun x hx => ?_⟩
  · rw [harena, c.get_detach (htidy.sound.inside htidy.root), if_pos rfl]
  · rw [harena, ((Arena.sameNodes_detach c t.root).2 x).1, Arena.childCount, c.children_detach]
    exact (hrest x hx).several

end

section
variable {name : Option String} {text : String} {strip : Bool} {t : Template}

/-- The root of a finished template has no parent, and all its elements are well formed. -/
theorem Template.wellFormed_of_parse (h : Template.parse name text strip = .ok t) :
    (t.arena.get t.root).parent = none ∧ ∀ x ∈ t.elements, t.arena.WellFormed t.root x := by
  obtain ⟨raw, parts, us, hraw, hfinished⟩ := exists_finished_of_parse h
  have hwritten := Tree.written_of_parse hraw
  obtain ⟨horphan, hseveral⟩ := hfinished.settled hraw
  obtain ⟨hbears, -⟩ := hfinished.bears hwritten
  refine ⟨horphan, fun x hx => ?_⟩
  obtain ⟨hx', hkind⟩ := hbears x hx
  refine ⟨hfinished.lasting hx hwritten.1, fun hsequence => ⟨?_, hseveral x hx (.inl hsequence)⟩,
    fun hblock => hx'.block hblock (hseveral x hx (.inr hblock)),
    fun {branch condition} hbranch hparent => ?_, hx'.leaf, ?_, ?_⟩
  · refine hkind.elim And.right fun hwritten => ?_
    rw [hsequence] at hwritten
    exact hwritten.elim
  · obtain rfl := hfinished.isMain hwritten hx hparent branch condition hbranch
    refine ⟨rfl, fun hnone => ?_⟩
    rw [hbranch] at hkind
    cases hkind.resolve_left (by rintro ⟨⟨⟩, -⟩) |>.1.2 hnone
  · rintro name parameters hdefinition
    rw [hdefinition] at hkind
    exact (hkind.resolve_left (by rintro ⟨⟨⟩, -⟩)).2.2
  · rcases hkind with ⟨hsequence, -⟩ | hwritten
    · rw [hsequence]
      exact List.forall_mem_nil _
    · exact hwritten.isName

/-- A macro with parameters and an if block with three branches, one of them empty
once its comment is gone. -/
theorem Template.wellFormed_of_parse_branches : ∃ t,
    Template.parse none
      "\x7b[#macro m p q]\x7d \x7b[ p.k ]\x7d\x7b[/macro]\x7d\n\x7b[#if x]\x7d\x7b[%c]\x7d\x7b[#elseif y]\x7da\x7b[#else]\x7db\x7b[/if]\x7d" true = .ok t ∧
    t.elements.map (fun x => ((t.arena.get x).kind.descriptor, (t.arena.get x).kind.names,
      t.arena.childCount x)) =
      [("#mixed_content", [], 2), ("#macro", ["m", "p", "q"], 2), ("#text", [], 0),
        ("\x7b[...]\x7d", ["p", "k"], 0), ("#if-#elseif-#else-container", [], 3), ("#if", ["x"], 0),
        ("#elseif", ["y"], 1), ("#text", [], 0), ("#else", [], 1), ("#text", [], 0)] ∧
    (t.arena.get t.root).parent = none ∧ ∀ x ∈ t.elements, t.arena.WellFormed t.root x := by
  obtain ⟨t, ht, helements⟩ := exists_of_parses none
    "\x7b[#macro m p q]\x7d \x7b[ p.k ]\x7d\x7b[/macro]\x7d\n\x7b[#if x]\x7d\x7b[%c]\x7d\x7b[#elseif y]\x7da\x7b[#else]\x7db\x7b[/if]\x7d" true
    (fun t => t.elements.map (fun x =>
      ((t.arena.get x).kind.descriptor, (t.arena.get x).kind.names, t.arena.childCount x)) ==
      [("#mixed_content", [], 2), ("#macro", ["m", "p", "q"], 2), ("#text", [], 0),
        ("\x7b[...]\x7d", ["p", "k"], 0), ("#if-#elseif-#else-container", [], 3), ("#if", ["x"], 0),
        ("#elseif", ["y"], 1), ("#text", [], 0), ("#else", [], 1), ("#text", [], 0)])
    (by decide +kernel)
  exact ⟨t, ht, beq_iff_eq.1 helements, wellFormed_of_parse ht⟩

end

end Stencil
