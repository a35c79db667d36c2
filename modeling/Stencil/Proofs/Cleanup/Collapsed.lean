import Stencil.Proofs.Cleanup.Intact
import Stencil.Proofs.Cleanup.Terminals

/-! # Walks past branches in the places of their blocks

Where branches have taken the places of the if blocks they are alone in, the leaves are those there were, in
the order they had. So the walks lead where they led, and what they come to still lies before or after where
they start, although branches have grown to the spans of their blocks. -/

namespace Stencil

open Shape

/-! ### Order on the lines -/

/-- The children of an element lie within it, one after the other. -/
structure Arena.InOrder (a : Arena) (q : ElementId) : Prop where
  inside {c : ElementId} : c ∈ a.children q → (a.get c).location.Inside (a.get q).location
  pairwise : (a.children q).Pairwise fun c d => (a.get c).location.last.Before (a.get d).location.first

section
variable {a : Arena} {used : ElementId → Prop} {p : ElementId} {ss before after : List Shape}
  {up : List ElementId} {s : Shape}

/-- What is in some shapes lies within one of the topmost elements. -/
theorem Shape.Spans.exists_inside (h : Spans a ss) (horder : ∀ q ∈ ids ss, a.InOrder q)
    {x : ElementId} (hx : x ∈ ids ss) :
    ∃ s ∈ ss, (a.get x).location.Inside (a.get s.root).location := by
  induction ss using forest_induction with
  | nil =>
    rw [ids_nil] at hx
    cases hx
  | cons id parts ss ihParts ih =>
    rw [Spans] at h
    obtain ⟨hid, hparts, hss⟩ := forall_mem_ids_cons.1 horder
    rcases mem_ids_cons.1 hx with rfl | hx | hx
    · exact ⟨_, List.mem_cons_self, .self _⟩
    · obtain ⟨s, hs, hinside⟩ := ihParts h.2.1 hparts hx
      exact ⟨_, List.mem_cons_self, hinside.trans (hid.inside (h.1 ▸ List.mem_map_of_mem hs))⟩
    · obtain ⟨s, hs, hinside⟩ := ih h.2.2 hss hx
      exact ⟨s, List.mem_cons_of_mem _ hs, hinside⟩

/-- What is in the children before another ends before that begins, and what is in those after
it begins after its end. -/
theorem Tidy.precedes (h : Tidy a used p (before ++ s :: after))
    (horder : ∀ q ∈ ids [⟨p, before ++ s :: after⟩], a.InOrder q) :
    (∀ x ∈ ids before, (a.get x).location.last.Before (a.get s.root).location.first) ∧
      ∀ x ∈ ids after, (a.get s.root).location.last.Before (a.get x).location.first := by
  rw [ids_singleton] at horder
  obtain ⟨hp, hbelow⟩ := List.forall_mem_cons.1 horder
  rw [ids_append, ids_cons] at hbelow
  obtain ⟨hbefore, hrest⟩ := List.forall_mem_append.1 hbelow
  have hpairwise := hp.pairwise
  rw [h.children, List.map_append, List.map_cons] at hpairwise
  obtain ⟨-, hlater, hcross⟩ := List.pairwise_append.1 hpairwise
  obtain ⟨hspans, hspans'⟩ := spans_append.1 h.parts
  refine ⟨fun x hx => ?_, fun x hx => ?_⟩
  · obtain ⟨t, ht, hinside⟩ := hspans.exists_inside hbefore hx
    exact hinside.before (.self _) (hcross t.root (List.mem_map_of_mem ht) s.root List.mem_cons_self)
  · obtain ⟨t, ht, hinside⟩ := (spans_cons.1 hspans').2.exists_inside (List.forall_mem_append.1 hrest).2 hx
    exact Location.Inside.before (.self _) hinside
      ((List.pairwise_cons.1 hlater).1 t.root (List.mem_map_of_mem ht))

/-- What comes before an element and is not above it ends before the element begins, and what comes after
it begins after its end. -/
theorem Shape.Around.precedes (h : Around ss up before s after) (htidy : Tidy a used p ss)
    (horder : ∀ q ∈ ids [⟨p, ss⟩], a.InOrder q) :
    (∀ x ∈ ids before, (a.get x).location.last.Before (a.get s.root).location.first) ∧
      ∀ x ∈ ids after, (a.get s.root).location.last.Before (a.get x).location.first := by
  induction h generalizing p with
  | here before s after => exact htidy.precedes horder
  | @inside before id after parts inner outer up s within ih =>
    obtain ⟨hbefore, hafter⟩ := htidy.precedes horder
    have hpart : ∀ q ∈ ids [⟨id, parts⟩], a.InOrder q := fun q hq => horder q (by
      rw [ids_singleton, ids_append, ids_cons]
      exact List.mem_cons_of_mem p (List.mem_append_right _ (List.mem_append_left _ hq)))
    obtain ⟨hinner, houter⟩ := ih htidy.part hpart
    have hinside : (a.get s.root).location.Inside (a.get id).location := by
      rw [ids_singleton] at hpart
      obtain ⟨hid, hparts⟩ := List.forall_mem_cons.1 hpart
      obtain ⟨pre, hids, -⟩ := within.ids_eq
      have hs : s.root ∈ ids parts := by
        rw [hids]
        exact List.mem_append_left _ (List.mem_append_right _ (root_mem_ids (List.mem_singleton_self s)))
      obtain ⟨t, ht, hinside⟩ := htidy.part.parts.exists_inside hparts hs
      exact hinside.trans (hid.inside (htidy.part.children ▸ List.mem_map_of_mem ht))
    rw [ids_append, ids_append]
    exact ⟨List.forall_mem_append.2
      ⟨fun x hx => Location.Inside.before (.self _) hinside (hbefore x hx), hinner⟩,
      List.forall_mem_append.2 ⟨houter, fun x hx => hinside.before (.self _) (hafter x hx)⟩⟩

end

/-! ### Branches in the places of their blocks -/

/-- Some shapes where branches have taken the places of the if blocks they are alone in. -/
inductive Shape.Collapsed (a : Arena) : List Shape → List Shape → Prop
  | nil : Collapsed a [] []
  | same (id : ElementId) {parts parts' ss ss' : List Shape} (body : Collapsed a parts parts')
    (tail : Collapsed a ss ss') :
    Collapsed a (⟨id, parts⟩ :: ss) (⟨id, parts'⟩ :: ss')
  | branch {e : ElementId} {s s' : Shape} {ss ss' : List Shape} (block : (a.get e).kind = .ifBlock)
    (body : Collapsed a [s] [s'])
    (tail : Collapsed a ss ss') : Collapsed a (⟨e, [s]⟩ :: ss) (s' :: ss')

section
variable {a b : Arena} {used : ElementId → Prop} {r x : ElementId} {ss ss' us us' : List Shape}

namespace Shape

theorem Collapsed.append (h : Collapsed a ss ss') (h' : Collapsed a us us') :
    Collapsed a (ss ++ us) (ss' ++ us') := by
  induction h with
  | nil => exact h'
  | same id body _ _ ih => exact .same id body ih
  | branch block body _ _ ih => exact .branch block body ih

/-- Nothing but if blocks is gone. -/
theorem Collapsed.mem_ids (h : Collapsed a ss ss') (hx : x ∈ ids ss) (hkind : (a.get x).kind ≠ .ifBlock) :
    x ∈ ids ss' := by
  induction h with
  | nil => exact hx
  | same id _ _ ihBody ihTail =>
    exact mem_ids_cons.2 ((mem_ids_cons.1 hx).imp_right (Or.imp ihBody ihTail))
  | branch block _ _ ihBody ihTail =>
    rw [ids_cons, List.mem_append]
    rcases mem_ids_cons.1 hx with rfl | hx
    · exact absurd block hkind
    · exact hx.imp ihBody ihTail

/-- An element that is left stands among the others as it did. -/
theorem Collapsed.exists_around (h : Collapsed a ss ss') (hx : x ∈ ids ss') :
    ∃ up before below after up' before' below' after',
    Around ss up before ⟨x, below⟩ after ∧ Around ss' up' before' ⟨x, below'⟩ after' ∧
      Collapsed a before before' ∧
      Collapsed a after after' := by
  induction h with
  | nil =>
    rw [ids_nil] at hx
    cases hx
  | @same id parts parts' ss ss' body tail ihBody ihTail =>
    rcases mem_ids_cons.1 hx with rfl | hx | hx
    · exact ⟨_, _, _, _, _, _, _, _, .here [] ⟨x, parts⟩ ss, .here [] ⟨x, parts'⟩ ss', .nil, tail⟩
    · obtain ⟨up, before, below, after, up', before', below', after', haround, haround', hbefore, hafter⟩ :=
        ihBody hx
      exact ⟨_, _, _, _, _, _, _, _, .inside [] id ss haround, .inside [] id ss' haround',
        hbefore, hafter.append tail⟩
    · obtain ⟨up, before, below, after, up', before', below', after', haround, haround', hbefore, hafter⟩ :=
        ihTail hx
      exact ⟨_, _, _, _, _, _, _, _, haround.cons _, haround'.cons _, .same id body hbefore, hafter⟩
  | @branch e s s' ss ss' block body tail ihBody ihTail =>
    rw [ids_cons] at hx
    rcases List.mem_append.1 hx with hx | hx
    · obtain ⟨up, before, below, after, up', before', below', after', haround, haround', hbefore, hafter⟩ :=
        ihBody hx
      exact ⟨_, _, _, _, _, _, _, _, .inside [] e ss haround, haround'.append ss',
        hbefore, hafter.append tail⟩
    · obtain ⟨up, before, below, after, up', before', below', after', haround, haround', hbefore, hafter⟩ :=
        ihTail hx
      exact ⟨_, _, _, _, _, _, _, _, haround.cons _, haround'.cons _, .branch block body hbefore, hafter⟩

end Shape

namespace Arena.Intact

variable (h : a.Intact b used)
include h

/-- The leaves of some shapes are those they had. -/
theorem leaves_eq (hcollapsed : Collapsed a ss ss') (hspans : Spans a ss) (hspans' : Spans b ss') :
    leaves b ss' = leaves a ss := by
  induction hcollapsed with
  | nil => rw [leaves_nil, leaves_nil]
  | @same id parts parts' ss ss' body tail ihBody ihTail =>
    rw [Spans] at hspans hspans'
    have hterminal : b.isTerminal id = a.isTerminal id := by
      rw [isTerminal, isTerminal, hspans.1, hspans'.1, h.kind_congr Kind.isUnit fun _ => rfl]
      cases body <;> rfl
    rw [leaves, leaves, hterminal, ihBody hspans.2.1 hspans'.2.1, ihTail hspans.2.2 hspans'.2.2]
  | @branch e s s' ss ss' block body tail ihBody ihTail =>
    rw [Spans] at hspans
    obtain ⟨hself, hrest⟩ := spans_cons.1 hspans'
    have hterminal : a.isTerminal e = false := by
      rw [isTerminal, hspans.1, block]
      rfl
    rw [leaves, leaves_cons, hterminal, if_neg Bool.false_ne_true, ihBody hspans.2.1 hself,
      ihTail hspans.2.2 hrest]

/-- Where one list of elements replaces another, the shapes below have collapsed. -/
theorem collapsed (hspans : Spans a ss) (hspans' : Spans b ss') (hused : ∀ x ∈ ids ss', used x)
    (hroots : List.Forall₂ a.Replaces (ss.map root) (ss'.map root)) : Collapsed a ss ss' := by
  induction ss using forest_induction generalizing ss' with
  | nil =>
    rw [List.map_nil, List.forall₂_nil_left_iff, List.map_eq_nil_iff] at hroots
    rw [hroots]
    exact .nil
  | cons id parts ss ihParts ih =>
    cases ss' with
    | nil => cases hroots
    | cons s' ss' =>
      obtain ⟨id', parts'⟩ := s'
      rw [Spans] at hspans
      obtain ⟨hchildren, hparts, hss⟩ := hspans
      obtain ⟨hself, hss'⟩ := spans_cons.1 hspans'
      rw [ids_cons] at hused
      obtain ⟨husedSelf, husedRest⟩ := List.forall_mem_append.1 hused
      rw [List.map_cons, List.map_cons, List.forall₂_cons] at hroots
      obtain ⟨hreplaces, hroots⟩ := hroots
      have htail := ih hss hss' husedRest hroots
      obtain hsame | halone := hreplaces
      · obtain rfl : id' = id := hsame
        obtain ⟨hchildren', hparts'⟩ := spans_singleton.1 hself
        rw [ids_singleton] at husedSelf
        obtain ⟨hid, hbelow⟩ := List.forall_mem_cons.1 husedSelf
        have hreplaces := h.children hid
        rw [hchildren, hchildren'] at hreplaces
        exact .same id' (ihParts hparts hparts' hbelow hreplaces) htail
      · obtain ⟨⟨g, below⟩, rest, rfl, hg, hrest⟩ := List.map_eq_cons_iff.1 (hchildren.symm.trans halone.2)
        obtain rfl := List.map_eq_nil_iff.1 hrest
        exact .branch halone.1 (ihParts hparts hself husedSelf (.cons (.inl hg.symm) .nil)) htail

theorem exists_tidy (hread : a.AsRead r ss) : ∃ ss', Tidy b used r ss' :=
  h.sound.exists_tidy (h.stays hread.tidy.root (by rw [hread.root]; exact Kind.noConfusion))
    ((h.hangs r).2 hread.orphan)

/-- What was read has collapsed. -/
theorem collapsed_root (hread : a.AsRead r ss) (htidy : Tidy b used r ss') : Collapsed a ss ss' := by
  have hreplaces := h.children htidy.root
  rw [hread.tidy.children, htidy.children] at hreplaces
  exact h.collapsed hread.tidy.parts htidy.parts (fun _ hx => htidy.used_of_mem hx) hreplaces

end Arena.Intact

theorem leaves_sublist_ids (a : Arena) (ss : List Shape) : (leaves a ss).Sublist (ids ss) := by
  induction ss using forest_induction with
  | nil => rw [leaves_nil]; exact List.nil_sublist _
  | cons id parts ss ihParts ih =>
    rw [leaves, ids, ← List.cons_append]
    refine List.Sublist.append ?_ ih
    split
    · exact (List.nil_sublist _).cons_cons id
    · exact ihParts.cons id

end

/-! ### Spans -/

namespace Arena

section
variable {a b : Arena} {used : ElementId → Prop} {r q x e g : ElementId} {ss : List Shape}

theorem pairwise_of_forall₂ {R S S' : ElementId → ElementId → Prop} {xs ys : List ElementId}
    (hall : List.Forall₂ R xs ys) (h : xs.Pairwise S)
    (himp : ∀ {x y x' y'}, R x x' → R y y' → S x y → S' x' y') : ys.Pairwise S' := by
  induction hall with
  | nil => exact .nil
  | cons hx hrest ih =>
    obtain ⟨hfirst, hlater⟩ := List.pairwise_cons.1 h
    refine List.pairwise_cons.2 ⟨fun y' hy' => ?_, ih hlater⟩
    obtain ⟨pre, post, rfl⟩ := List.append_of_mem hy'
    obtain ⟨pre', y, post', rfl, -, hy, -⟩ := exists_of_forall₂_middle hrest
    exact himp hx hy (hfirst y (List.mem_append_right _ List.mem_cons_self))

theorem AsRead.inOrder (h : a.AsRead r ss) (hq : q < a.size) : a.InOrder q := by
  obtain ⟨hinside, hpairwise⟩ := h.nested.children h.tidy.spans (h.all hq)
  exact ⟨fun hc => (hinside _ hc).2, hpairwise⟩

/-- No element ends before it begins, the one above all others apart. -/
theorem AsRead.upright (h : a.AsRead r ss) (hx : x < a.size) (hkind : (a.get x).kind ≠ .sequence) :
    ¬ (a.get x).location.last.Before (a.get x).location.first := by
  obtain ⟨q, hparent⟩ := Option.ne_none_iff_exists'.1 (h.parent_ne_none hx hkind)
  obtain ⟨hq, hplace⟩ := h.tidy.sound.parent hx hparent
  exact ((h.nested.children h.tidy.spans (h.all hq)).1 x (List.mem_of_getElem? hplace)).1

theorem Alone.eq (h : a.Alone e g) (hread : a.AsRead r ss) (hq : q < a.size) (hg : g ∈ a.children q) :
    e = q := by
  have hparent := (hread.tidy.sound.child_mem h.inside (h.2 ▸ List.mem_singleton_self g)).2
  exact Option.some.inj (hparent.symm.trans (hread.tidy.sound.child_mem hq hg).2)

namespace Intact

variable (h : a.Intact b used) (hread : a.AsRead r ss)
include h hread

/-- What stands in the place of a child lies within it, unless it is an only child with
the span of its parent. -/
theorem inside_of_replaces (hq : q < a.size) (he : e ∈ a.children q) (hreplaces : a.Replaces e g) :
    (b.get g).location.Inside (a.get e).location ∨ a.children q = [e] ∧
    (b.get g).location = (a.get q).location := by
  obtain rfl | halone := hreplaces
  · obtain hsame | ⟨f, hf, hlocation⟩ := h.location g
    · exact .inl (hsame ▸ .self _)
    · obtain rfl := hf.eq hread hq he
      exact .inr ⟨hf.2, hlocation⟩
  · have hg : g ∈ a.children e := halone.2 ▸ List.mem_singleton_self g
    left
    obtain hsame | ⟨f, hf, hlocation⟩ := h.location g
    · rw [hsame]
      exact (hread.inOrder halone.inside).inside hg
    · obtain rfl := hf.eq hread halone.inside hg
      exact hlocation ▸ .self _

/-- Spans only grow. -/
theorem inside_grown (q : ElementId) : (a.get q).location.Inside (b.get q).location := by
  obtain hsame | ⟨f, hf, hlocation⟩ := h.location q
  · exact hsame ▸ .self _
  · rw [hlocation]
    exact (hread.inOrder hf.inside).inside (hf.2 ▸ List.mem_singleton_self q)

/-- The spans of children are in order still. -/
theorem inOrder (hq : used q) : b.InOrder q := by
  have hin := h.inside hq
  have hchildren := h.children hq
  refine ⟨fun {c} hc => ?_, ?_⟩
  · obtain ⟨pre, post, hsplit⟩ := List.append_of_mem hc
    obtain ⟨pre', e, post', hbefore, -, hreplaces, -⟩ := exists_of_forall₂_middle (hsplit ▸ hchildren)
    have he : e ∈ a.children q := hbefore ▸ List.mem_append_right _ List.mem_cons_self
    rcases h.inside_of_replaces hread hin he hreplaces with hinside | ⟨-, hlocation⟩
    · exact (hinside.trans ((hread.inOrder hin).inside he)).trans (h.inside_grown hread q)
    · exact hlocation ▸ h.inside_grown hread q
  · by_cases hlone : ∃ e, a.children q = [e]
    · obtain ⟨e, he⟩ := hlone
      rw [he] at hchildren
      obtain ⟨g, ys, -, hys, hafter⟩ := List.forall₂_cons_left_iff.1 hchildren
      obtain rfl := List.forall₂_nil_left_iff.1 hys
      rw [hafter]
      exact List.pairwise_singleton _ _
    · have hinside : List.Forall₂ (fun e g => (b.get g).location.Inside (a.get e).location) (a.children q)
          (b.children q) := by
        refine ((List.forall₂_and_left _ _).2 ⟨fun _ he => he, hchildren⟩).imp fun e g hboth => ?_
        exact (h.inside_of_replaces hread hin hboth.1 hboth.2).resolve_right fun honly => hlone ⟨e, honly.1⟩
      exact pairwise_of_forall₂ hinside (hread.inOrder hin).pairwise fun hx hy hxy => hx.before hy hxy

/-- No element ends before it begins. -/
theorem upright (hx : x < a.size) (hkind : (a.get x).kind ≠ .sequence) :
    ¬ (b.get x).location.last.Before (b.get x).location.first := by
  obtain hsame | ⟨f, hf, hlocation⟩ := h.location x
  · rw [hsame]
    exact hread.upright hx hkind
  · rw [hlocation]
    exact hread.upright hf.inside (by rw [hf.1]; exact Kind.noConfusion)

end Intact

end

/-! ### Walks -/

/-- From an element the walks lead where they led at first, and to elements of a list on either side. -/
structure Walks (a b : Arena) (xs : List ElementId) (x : ElementId) : Prop where
  next : b.nextTerminal? x = a.nextTerminal? x
  previous : ∃ found, b.previousTerminal? x = .ok found ∧ a.previousTerminal? x = .ok found
  after {y : ElementId} : b.nextTerminal? x = some y → y ∈ xs ∧
    (b.get x).location.last.Before (b.get y).location.first
  before {y : ElementId} : b.previousTerminal? x = .ok (some y) → y ∈ xs ∧
    (b.get y).location.last.Before (b.get x).location.first

section
variable {a b : Arena} {used : ElementId → Prop} {r x : ElementId} {ss ss' : List Shape}

/-- Where branches have given way to their blocks, the walks lead where they led at first. -/
theorem Intact.walks (h : a.Intact b used) (hread : a.AsRead r ss) (htidy : Tidy b used r ss')
    (hx : x ∈ ids ss') :
    Walks a b (ids ss') x := by
  have hcollapsed := h.collapsed_root hread htidy
  obtain ⟨up, before, below, after, up', before', below', after', haround, haround', hbefore, hafter⟩ :=
    hcollapsed.exists_around hx
  obtain ⟨hnext, hprevious⟩ := haround.terminals hread.tidy hread.orphan
  obtain ⟨hnext', hprevious'⟩ := haround'.terminals htidy ((h.hangs r).2 hread.orphan)
  obtain ⟨hspans, hspans'⟩ := spans_append.1 (haround.tidy hread.tidy).1
  obtain ⟨hspansB, hspansB'⟩ := spans_append.1 (haround'.tidy htidy).1
  obtain ⟨hfirst, hlast⟩ := haround'.precedes htidy fun q hq => h.inOrder hread (by
    rw [ids_singleton] at hq
    exact (List.mem_cons.1 hq).elim (fun hq => hq ▸ htidy.root) htidy.used_of_mem)
  obtain ⟨pre, hids, hperm, -⟩ := haround'.ids_eq
  simp only [Shape.root] at hnext hprevious hnext' hprevious'
  refine ⟨?_, ⟨_, hprevious', ?_⟩, fun {y} hy => ?_, fun {y} hy => ?_⟩
  · rw [hnext, hnext', h.leaves_eq hafter hspans' hspansB']
  · rw [hprevious, h.leaves_eq hbefore hspans hspansB]
  · have hin : y ∈ ids after' :=
      (leaves_sublist_ids b after').subset (List.mem_of_mem_head? (hnext'.symm.trans hy))
    exact ⟨by rw [hids]; exact List.mem_append_right _ hin, hlast y hin⟩
  · have hin : y ∈ ids before' :=
      (leaves_sublist_ids b before').subset (List.mem_of_getLast? (Except.ok.inj (hprevious'.symm.trans hy)))
    refine ⟨?_, hfirst y hin⟩
    rw [hids]
    exact List.mem_append_left _ (List.mem_append_left _ (hperm.mem_iff.2 (List.mem_append_right _ hin)))

end

end Arena

end Stencil
