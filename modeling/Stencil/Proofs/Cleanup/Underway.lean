import Stencil.Proofs.Cleanup.Weeding

/-! # A pass under way

The state of an arena while the children of one element are cleaned up, what dropping one of them does to
it, and what the element itself then turns into. -/

namespace Stencil

open Execution Shape

/-! ### Edits that succeed -/

namespace Edit

variable {α β : Type} {a a' : Arena}

theorem bind_ok {edit : Edit α} {x : α} (h : edit a = .ok x a') (f : α → Edit β) :
    (edit >>= f) a = f x a' := by
  simp only [bind, EStateM.bind, h]

theorem observe_ok (f : Arena → Except OutOfRange α) {x : α} (h : f a = .ok x) : observe f a = .ok x a := by
  rw [observe, h]

theorem get_ok (a : Arena) : (get : Edit Arena) a = .ok a a := rfl

end Edit

/-! ### The part below an element -/

/-- The part of an arena below an element in use, as some shapes say. -/
structure Tidy (a : Arena) (used : ElementId → Prop) (p : ElementId) (ss : List Shape) : Prop where
  sound : a.Sound used
  root : used p
  spans : Spans a [⟨p, ss⟩]
  nodup : (ids [⟨p, ss⟩]).Nodup

section
variable {strip : Bool} {a a' a'' : Arena} {used used' : ElementId → Prop} {p : ElementId}
  {ss pre post : List Shape} {s : Shape}

namespace Shape

theorem Spans.used_of_mem (hsound : a.Sound used) {ss : List Shape} (h : Spans a ss)
    (hroots : ∀ s ∈ ss, used s.root) :
    ∀ x ∈ ids ss, used x := by
  induction ss using forest_induction with
  | nil => simp
  | cons id parts ss ihParts ih =>
    rw [Spans] at h
    obtain ⟨hchildren, hparts, hss⟩ := h
    have hid : used id := hroots _ List.mem_cons_self
    intro x hx
    rcases mem_ids_cons.1 hx with rfl | hx | hx
    · exact hid
    · refine ihParts hparts (fun s hs => ?_) x hx
      exact (hsound.child_mem hid (hchildren ▸ List.mem_map_of_mem hs)).1
    · exact ih hss (fun s hs => hroots s (List.mem_cons_of_mem _ hs)) x hx

end Shape

namespace Tidy

theorem children (h : Tidy a used p ss) : a.children p = ss.map Shape.root := (spans_singleton.1 h.spans).1

theorem children_split (h : Tidy a used p (pre ++ s :: post)) :
    a.children p = pre.map Shape.root ++ s.root :: post.map Shape.root := by simpa using h.children

theorem parts (h : Tidy a used p ss) : Spans a ss := (spans_singleton.1 h.spans).2

theorem notMem (h : Tidy a used p ss) : p ∉ ids ss := by
  have hnodup := h.nodup
  rw [ids_singleton] at hnodup
  exact (List.nodup_cons.1 hnodup).1

theorem nodup_parts (h : Tidy a used p ss) : (ids ss).Nodup := by
  have hnodup := h.nodup
  rw [ids_singleton] at hnodup
  exact (List.nodup_cons.1 hnodup).2

theorem used_of_mem (h : Tidy a used p ss) {x : ElementId} (hx : x ∈ ids ss) : used x := by
  refine h.parts.used_of_mem h.sound (fun s hs => ?_) x hx
  exact (h.sound.child_mem h.root (h.children ▸ List.mem_map_of_mem hs)).1

theorem inside (h : Tidy a used p ss) {x : ElementId} (hx : x ∈ ids ss) : x < a.size :=
  h.sound.inside (h.used_of_mem hx)

/-- A child has no element in common with its parent or with the other children. -/
theorem apart (h : Tidy a used p (pre ++ s :: post)) :
    p ∉ ids [s] ∧ (∀ x ∈ ids pre, x ∉ ids [s]) ∧ ∀ x ∈ ids post, x ∉ ids [s] := by
  have hp := h.notMem
  have hnodup := h.nodup_parts
  rw [ids_append, ids_cons] at hp hnodup
  obtain ⟨-, hnodupPost, hpre⟩ := List.nodup_append.1 hnodup
  obtain ⟨-, -, hpost⟩ := List.nodup_append.1 hnodupPost
  exact ⟨fun hin => hp (List.mem_append_right _ (List.mem_append_left _ hin)),
    fun x hx hin => hpre x hx x (List.mem_append_left _ hin) rfl, fun x hx hin => hpost x hin x hx rfl⟩

theorem part {q : ElementId} {parts : List Shape} (h : Tidy a used p (pre ++ ⟨q, parts⟩ :: post)) :
    Tidy a used q parts := by
  have hq : q ∈ ids (pre ++ ⟨q, parts⟩ :: post) := root_mem_ids (s := ⟨q, parts⟩) (by simp)
  have hnodup := h.nodup_parts
  rw [ids_append, ids_cons] at hnodup
  exact ⟨h.sound, h.used_of_mem hq, (spans_cons.1 (spans_append.1 h.parts).2).1,
    (List.nodup_append.1 (List.nodup_append.1 hnodup).2.1).1⟩

theorem only {q : ElementId} {parts : List Shape} (h : Tidy a used p [⟨q, parts⟩]) : Tidy a used q parts := by
  have hpart : Tidy a used p ([] ++ ⟨q, parts⟩ :: []) := h
  exact hpart.part

/-- The child at the first place that has not been looked at. -/
theorem child (h : Tidy a used p (pre ++ s :: post)) : a.child p pre.length = .ok s.root := by
  have hchildren := h.children_split
  have hplace := Arena.children_getElem?_length hchildren
  rw [List.length_map] at hplace
  rw [Arena.child, hplace]

theorem child_only (h : Tidy a used p [s]) : a.child p 0 = .ok s.root := by
  have hchild : Tidy a used p ([] ++ s :: []) := h
  exact hchild.child

theorem childCount (h : Tidy a used p ss) : a.childCount p = ss.length := by
  rw [Arena.childCount, h.children, List.length_map]

theorem sameLinks (h : Tidy a used p ss) (hsame : a.SameLinks a') : Tidy a' used p ss :=
  ⟨h.sound.sameLinks hsame, h.root, h.spans.of_children fun x _ => hsame.children x, h.nodup⟩

end Tidy

/-! ### What a pass leaves alone -/

/-- Linking what takes a child's place touches nothing but the element and its new child; the old child
goes out of use. -/
structure Placed (a b : Arena) (used used' : ElementId → Prop) (p : ElementId) (pre : List ElementId)
    (e g : ElementId) (post : List ElementId) : Prop where
  nodes : a.SameNodes b
  sound : b.Sound used'
  put : Arena.PutIn a b p pre g post
  fewer {x : ElementId} : used' x → used x
  still {x : ElementId} : used x → (x = e → g = e) → used' x

/-- A pass gets from one arena to another. It edits elements in use, whose links fit, and
none comes back into use. -/
inductive Leads (strip : Bool) (a : Arena) : Arena → (used used' : ElementId → Prop) → Prop
  | refl (used : ElementId → Prop) : Leads strip a a used used
  | stored {b c : Arena} {used mid : ElementId → Prop} (before : Leads strip a b used mid)
      (nodes : b.SameNodes c)
      (links : b.SameLinks c) : Leads strip a c used mid
  | placed {b c : Arena} {used mid mid' : ElementId → Prop} (before : Leads strip a b used mid)
      (sound : b.Sound mid)
      {p e g : ElementId} {pre post : List ElementId} (parent : mid p)
      (children : b.children p = pre ++ e :: post)
      (placed : Placed b c mid mid' p pre e g post) (stands : b.StandsFor g e)
      (only : g = e ∨ g ≠ e ∧ b.children e = [g]) :
      Leads strip a c used mid'
  | dropped {b c : Arena} {used mid : ElementId → Prop} (before : Leads strip a b used mid)
      (sound : b.Sound mid)
      (nodes : b.SameNodes c) {p e : ElementId} {pre post : List ElementId} (parent : mid p)
      (children : b.children p = pre ++ e :: post) (out : Arena.TakenOut b c p pre e post)
      (ignorable : b.isIgnorable e strip = .ok true) : Leads strip a c used mid
  | moved {b : Arena} {used mid : ElementId → Prop} (before : Leads strip a b used mid)
      (sound : b.Sound mid) {e g : ElementId}
      (parent : mid e) (block : (b.get e).kind = .ifBlock) (only : b.children e = [g]) {branch : Branch}
      {condition : Option Expr}
      (kind : (b.get g).kind = .conditional branch condition) :
      Leads strip a (b.update g fun d => { d with location := (b.get e).location }) used mid
  | trimmed {b : Arena} {used mid : ElementId → Prop} (before : Leads strip a b used mid)
      (sound : b.Sound mid) {x : ElementId}
      (own : mid x) (on : strip = true) {text : String} {opening trailing : Nat}
      (kind : (b.get x).kind = .text text false)
      (hopening : b.openingStrip x text.toList = .ok opening)
      (htrailing : b.trailingStrip x text.toList = .ok trailing) :
      Leads strip a (b.trimming x text opening trailing) used mid

theorem Leads.trans {used'' : ElementId → Prop} (h : Leads strip a a' used used')
    (h' : Leads strip a' a'' used' used'') :
    Leads strip a a'' used used'' := by
  induction h' with
  | refl => exact h
  | stored _ nodes links ih => exact .stored (ih h) nodes links
  | placed _ sound parent children placed stands only ih =>
    exact .placed (ih h) sound parent children placed stands only
  | dropped _ sound nodes parent children out ignorable ih =>
    exact .dropped (ih h) sound nodes parent children out ignorable
  | moved _ sound parent block only kind ih => exact .moved (ih h) sound parent block only kind
  | trimmed _ sound own on kind hopening htrailing ih =>
    exact .trimmed (ih h) sound own on kind hopening htrailing

theorem Leads.steps (h : Leads strip a a' used used') : Steps strip a a' := by
  induction h with
  | refl => exact .start
  | stored _ nodes links ih => exact .stored ih nodes links
  | placed _ _ _ children placed stands _ ih => exact .placed ih placed.nodes children placed.put stands
  | dropped _ _ nodes _ children out ignorable ih => exact .dropped ih nodes children out ignorable
  | moved _ _ _ _ _ kind ih => exact .moved ih kind _
  | trimmed _ _ _ on kind hopening htrailing ih => exact .trimmed ih on kind hopening htrailing

theorem Leads.fewer (h : Leads strip a a' used used') {x : ElementId} (hx : used' x) : used x := by
  induction h with
  | refl => exact hx
  | placed _ _ _ _ placed _ _ ih => exact ih (placed.fewer hx)
  | stored _ _ _ ih | dropped _ _ _ _ _ _ _ ih | moved _ _ _ _ _ _ ih | trimmed _ _ _ _ _ _ _ ih =>
    exact ih hx

/-- Below an element only the elements `xs` change or go out of use, and the element stays where it is. -/
structure Touches (strip : Bool) (a a' : Arena) (used used' : ElementId → Prop) (p : ElementId)
    (xs : List ElementId) : Prop where
  leads : Leads strip a a' used used'
  still {x : ElementId} : used x → x ∉ xs → used' x
  outside {x : ElementId} : x ≠ p → x ∉ xs → a'.get x = a.get x
  place : (a'.get p).parent = (a.get p).parent ∧ (a'.get p).index = (a.get p).index

theorem Touches.steps {xs : List ElementId} (h : Touches strip a a' used used' p xs) :
    Steps strip a a' := h.leads.steps

theorem Touches.evolves {xs : List ElementId} (h : Touches strip a a' used used' p xs) : Evolves strip a a' :=
  h.steps.evolves

theorem Touches.refl (strip : Bool) (a : Arena) (used : ElementId → Prop) (p : ElementId)
    (xs : List ElementId) :
    Touches strip a a used used p xs :=
  ⟨.refl used, fun h _ => h, fun _ _ => rfl, ⟨rfl, rfl⟩⟩

theorem Touches.trans {used'' : ElementId → Prop} {xs ys : List ElementId}
    (h : Touches strip a a' used used' p xs) (h' : Touches strip a' a'' used' used'' p ys)
    (hsub : ∀ y ∈ ys, y ∈ xs) : Touches strip a a'' used used'' p xs :=
  ⟨h.leads.trans h'.leads, fun hx hnot => h'.still (h.still hx hnot) fun hy => hnot (hsub _ hy),
    fun hx hnot => (h'.outside hx fun hy => hnot (hsub _ hy)).trans (h.outside hx hnot),
    h'.place.1.trans h.place.1, h'.place.2.trans h.place.2⟩

theorem Touches.mono {xs ys : List ElementId} (h : Touches strip a a' used used' p xs) (hsub : xs ⊆ ys) :
    Touches strip a a' used used' p ys :=
  ⟨h.leads, fun hx hnot => h.still hx fun hin => hnot (hsub hin),
    fun hxp hnot => h.outside hxp fun hin => hnot (hsub hin),
    h.place⟩

/-! ### Children being cleaned up -/

/-- Of the children of an element those in `done` have given way to those in `done'`, and those in `todo`
are as they were. -/
structure Underway (strip : Bool) (a a' : Arena) (used used' : ElementId → Prop) (branches : Bool)
    (p : ElementId) (done done' todo : List Shape) : Prop where
  tidy : Tidy a' used' p (done' ++ todo)
  touches : Touches strip a a' used used' p (ids done)
  fewer : (ids done').Sublist (ids done)
  own : (a'.get p).kind = (a.get p).kind ∧ (a'.get p).location = (a.get p).location
  run : Cleans strip a a' branches done done'
  settles : Settles a a' done done'
  weeds : Weeds strip a' done done'
  rests : Rests strip a a' done done'

theorem Underway.start (strip : Bool) (h : Tidy a used p ss) (branches : Bool) :
    Underway strip a a used used branches p [] [] ss :=
  ⟨h, .refl strip a used p _, .refl _, ⟨rfl, rfl⟩,
    fun _ _ _ _ => by rw [trees_nil, trees_nil]; exact .nil, settles_nil, weeds_nil, rests_nil⟩

/-- Branches are cleaned up one by one. -/
theorem Shape.Cleans.branches {ss ss' : List Shape} (h : Cleans strip a a' true ss ss') :
    List.Forall₂ (fun s s' => ∀ branch condition, (a.get s.root).kind = .conditional branch condition →
      (a'.get s'.root).kind = .conditional branch condition) ss ss' := by
  have hrun := h (fun _ => "") (fun _ _ _ => .inl rfl) true true
  clear h
  induction ss generalizing ss' with
  | nil =>
    cases ss' with
    | nil => exact .nil
    | cons s' ss' =>
      obtain ⟨id', parts'⟩ := s'
      rw [trees_nil, trees] at hrun
      cases hrun
  | cons s ss ih =>
    obtain ⟨id, parts⟩ := s
    cases ss' with
    | nil =>
      rw [trees_nil, trees] at hrun
      cases hrun
    | cons s' ss' =>
      obtain ⟨id', parts'⟩ := s'
      rw [trees, trees] at hrun
      cases hrun with
      | cons head _ tail =>
        refine .cons (fun branch condition hkind => ?_) (ih tail)
        have hlike := head.kind
        simp only [root] at hkind ⊢
        rw [hkind] at hlike
        generalize (a'.get id').kind = kind at hlike ⊢
        cases kind with
        | conditional branch' condition' =>
          simp only [Kind.withText] at hlike
          cases hlike with
          | conditional _ hc =>
            cases hc with
            | none => rfl
            | some hc => rw [hc]
        | _ => cases hlike

theorem Shape.Cleans.conditional {ss ss' : List Shape} (h : Cleans strip a a' true ss ss')
    (hbranches : ∀ s ∈ ss, ∃ branch condition, (a.get s.root).kind = .conditional branch condition) :
    ∀ s ∈ ss', ∃ branch condition, (a'.get s.root).kind = .conditional branch condition := by
  have hroots := h.branches
  clear h
  induction hroots with
  | nil => simp
  | cons hs _ ih =>
    obtain ⟨⟨branch, condition, hkind⟩, hrest⟩ := List.forall_mem_cons.1 hbranches
    exact List.forall_mem_cons.2 ⟨⟨branch, condition, hs branch condition hkind⟩, ih hrest⟩

/-! ### Dropping a child -/

/-- Elements that can go run as nothing. -/
theorem Tidy.void (h : Tidy a used p (pre ++ s :: post)) (hignorable : a.isIgnorable s.root strip = .ok true)
    {texts : ElementId → String} (hlost : Lost a strip texts s.root) (inBlock : Bool) :
    ∃ v, trees a texts inBlock [s] = [v] ∧ Void v := by
  obtain ⟨c, parts⟩ := s
  have hparts : a.children c = parts.map Shape.root := h.part.children
  refine ⟨_, by rw [trees, trees_nil], ?_⟩
  simp only [Shape.root, Arena.isIgnorable] at hignorable hlost
  cases hkind : (a.get c).kind with
  | text text trimmed =>
    have htext : texts c = "" := by
      rcases hlost with h | ⟨rfl, h⟩
      · exact h
      · rw [h text trimmed hkind]
        by_contra hne
        simp [hkind, Arena.isDroppedText, hne, pure, Except.pure] at hignorable
    exact .emptyText trimmed (by simp only [htext, Kind.withText])
  | comment text => exact .comment text rfl
  | sequence =>
    simp only [hkind, Except.ok.injEq, hparts, List.isEmpty_iff, List.map_eq_nil_iff] at hignorable
    exact .sequence rfl (by simp only [hignorable, trees_nil])
  | _ => simp [hkind] at hignorable

/-- Branches never go. -/
theorem not_isIgnorable_conditional {x : ElementId} {branch : Branch} {condition : Option Expr}
    (h : (a.get x).kind = .conditional branch condition) : a.isIgnorable x strip = .ok false := by
  rw [Arena.isIgnorable, h]

theorem Tidy.root_notMem (h : Tidy a used p (pre ++ s :: post)) : s.root ∉ ids (pre ++ post) := by
  obtain ⟨-, hpre, hpost⟩ := h.apart
  have hself : s.root ∈ ids [s] := root_mem_ids (List.mem_singleton_self s)
  rw [ids_append]
  intro hin
  rcases List.mem_append.1 hin with hin | hin
  · exact hpre _ hin hself
  · exact hpost _ hin hself

theorem Tidy.takenOut (h : Tidy a used p (pre ++ s :: post)) :
    Arena.TakenOut a (a.without p (pre.map Shape.root) s.root) p (pre.map Shape.root) s.root
      (post.map Shape.root) := by
  have hchildren := h.children_split
  have hroots : (p :: (pre.map Shape.root ++ s.root :: post.map Shape.root)).Sublist
      (ids [⟨p, pre ++ s :: post⟩]) := by
    rw [ids_singleton]
    simpa using roots_sublist_ids (pre ++ s :: post)
  refine Arena.takenOut_without hchildren (hroots.nodup h.nodup) fun x hx => ?_
  have hx := hroots.subset hx
  rw [ids_singleton] at hx
  rcases List.mem_cons.1 hx with rfl | hx
  · exact h.sound.inside h.root
  · exact h.inside hx

theorem Shape.ids_sublist_of_drop (pre post : List Shape) (s : Shape) :
    (ids (pre ++ post)).Sublist (ids (pre ++ s :: post)) := by
  rw [ids_append, ids_append, ids_cons s post]
  exact (List.Sublist.refl _).append (List.sublist_append_right _ _)

/-- Without one of its children an element is as tidy as before. -/
theorem Tidy.without (h : Tidy a used p (pre ++ s :: post)) :
    Tidy (a.without p (pre.map Shape.root) s.root) used p (pre ++ post) := by
  have hout := h.takenOut
  have hkept := ids_sublist_of_drop pre post s
  have hchildren := h.children_split
  have hsound : (a.without p (pre.map Shape.root) s.root).Sound used :=
    h.sound.takenOut h.root hchildren (Arena.sameNodes_without a p (pre.map Shape.root) s.root).1 hout
  have hspans : Spans (a.without p (pre.map Shape.root) s.root) (pre ++ post) := by
    obtain ⟨hpre, hpost⟩ := spans_append.1 h.parts
    refine (spans_append.2 ⟨hpre, (spans_cons.1 hpost).2⟩).of_children fun x hx => hout.children_of_ne ?_
    rintro rfl
    exact h.notMem (hkept.subset hx)
  refine ⟨hsound, h.root, spans_singleton.2 ⟨by simpa using hout.children, hspans⟩, ?_⟩
  have hnodup := h.nodup
  rw [ids_singleton] at hnodup ⊢
  exact (hkept.cons_cons p).nodup hnodup

/-- Dropping a child changes nothing but the element and its children. -/
theorem Tidy.touches_without (h : Tidy a used p (pre ++ s :: post))
    (hignorable : a.isIgnorable s.root strip = .ok true) :
    Touches strip a (a.without p (pre.map Shape.root) s.root) used used p (ids (pre ++ s :: post)) := by
  have hout := h.takenOut
  have hchildren := h.children_split
  refine ⟨.dropped (.refl used) h.sound (Arena.sameNodes_without a p (pre.map Shape.root) s.root) h.root
    hchildren hout hignorable, fun hx _ => hx,
    fun hxp hx => ?_, hout.self⟩
  refine hout.other hxp (fun hxs => hx (hxs ▸ root_mem_ids (by simp))) fun hpost => hx ?_
  obtain ⟨u, hu, rfl⟩ := List.mem_map.1 hpost
  exact root_mem_ids (by simp [hu])

/-- What is left runs as before if the child that is dropped can go. -/
theorem Underway.cleans_drop (h : Underway strip a a' used used' false p ss (pre ++ s :: post) [])
    (hformed : Formed a ss) (hignorable : a'.isIgnorable s.root strip = .ok true)
    (hnodes : a'.SameNodes a'') :
    Cleans strip a a'' false ss (pre ++ post) := by
  have htidy : Tidy a' used' p (pre ++ s :: post) := by simpa using h.tidy
  have hkept := ids_sublist_of_drop pre post s
  intro texts htexts inBlock inBlock'
  have hrun := h.run texts (fun x hx hnot => htexts x hx fun hin => hnot (hkept.subset hin)) inBlock inBlock'
  have hlost : Lost a' strip texts s.root :=
    (htexts s.root (h.fewer.subset (root_mem_ids (by simp))) htidy.root_notMem).of_kind
      (h.touches.evolves.kind s.root)
  obtain ⟨v, hv, hvoid⟩ := htidy.void hignorable hlost inBlock'
  rw [trees_append, trees_cons, hv] at hrun
  rw [trees_congr fun x _ => hnodes.2 x, trees_append]
  exact hrun.drop hvoid (hformed.leaves texts inBlock)

/-- Comments and texts have no children. -/
def Bare (a : Arena) (ss : List Shape) : Prop := ∀ x ∈ ids ss, Kind.IsLeaf (a.get x).kind → a.children x = []

theorem Shape.Formed.bare (h : Formed a ss) (hspans : Spans a ss) : Bare a ss := by
  induction ss using forest_induction with
  | nil => simp [Bare]
  | cons id parts ss ihParts ih =>
    rw [Formed] at h
    rw [Spans] at hspans
    intro x hx hleaf
    rcases mem_ids_cons.1 hx with rfl | hx | hx
    · rw [hspans.1, h.1 hleaf, List.map_nil]
    · exact ihParts h.2.2.1 hspans.2.1 x hx hleaf
    · exact ih h.2.2.2 hspans.2.2 x hx hleaf

/-- A child that can go has no children. -/
theorem Underway.alone (h : Underway strip a a' used used' branches p ss (pre ++ s :: post) [])
    (hbare : Bare a ss) (hignorable : a'.isIgnorable s.root strip = .ok true) : ids [s] = [s.root] := by
  have htidy : Tidy a' used' p (pre ++ s :: post) := by simpa using h.tidy
  have hnone : a'.children s.root = [] := by
    have hleaf : Kind.IsLeaf (a'.get s.root).kind → a'.children s.root = [] := fun hleaf =>
      h.touches.steps.childless (hbare s.root (h.fewer.subset (root_mem_ids (by simp)))
        ((h.touches.evolves.element s.root).isLeaf hleaf))
    cases hkind : (a'.get s.root).kind with
    | text text trimmed => exact hleaf (hkind ▸ .text text trimmed)
    | comment text => exact hleaf (hkind ▸ .comment text)
    | sequence =>
      simp only [Arena.isIgnorable, hkind, Except.ok.injEq, List.isEmpty_iff] at hignorable
      exact hignorable
    | _ => simp [Arena.isIgnorable, hkind] at hignorable
  obtain ⟨c, parts⟩ := s
  have hparts : a'.children c = parts.map root := htidy.part.children
  have hempty : parts = [] := List.map_eq_nil_iff.1 (hparts.symm.trans hnone)
  rw [hempty, ids_singleton, ids_nil]
  rfl

theorem Underway.drop (h : Underway strip a a' used used' false p ss (pre ++ s :: post) [])
    (hformed : Formed a ss) (hbare : Bare a ss) (hignorable : a'.isIgnorable s.root strip = .ok true) :
    Underway strip a (a'.without p (pre.map root) s.root) used used' false p ss (pre ++ post) [] := by
  have htidy : Tidy a' used' p (pre ++ s :: post) := by simpa using h.tidy
  have hnodes := Arena.sameNodes_without a' p (pre.map root) s.root
  have hkept := ids_sublist_of_drop pre post s
  have hfewer := hkept.trans h.fewer
  have hrests : Rests strip a (a'.without p (pre.map root) s.root) ss (pre ++ post) := by
    refine (h.rests.fewer (by simpa using hkept.subset)).later ?_ fun x hx => htidy.takenOut.undisturbed ?_ ?_
    · obtain ⟨hpre, hpost⟩ := spans_append.1 htidy.parts
      exact spans_append.2 ⟨hpre, (spans_cons.1 hpost).2⟩
    · rintro rfl
      exact htidy.notMem (hkept.subset hx)
    · rintro rfl
      exact htidy.root_notMem hx
  exact ⟨by simpa using htidy.without,
    h.touches.trans (htidy.touches_without hignorable) fun y hy => h.fewer.subset hy,
    hfewer, ⟨(hnodes.2 p).1.trans h.own.1, (hnodes.2 p).2.trans h.own.2⟩,
    h.cleans_drop hformed hignorable hnodes, h.settles.drop.sameNodes hnodes,
    (h.weeds.drop (h.alone hbare hignorable) htidy.root_notMem hignorable).congr hfewer.subset
      fun x _ => (hnodes.2 x).1, hrests⟩

/-- Dropping what can go, one child after the other, from the children after `pre` on: what each child
keeps, whether it can go or stays, is kept to the end. -/
theorem Tidy.exists_dropIgnorable {P : Arena → List Shape → List Shape → Prop} (steps : Nat)
    (h : Tidy a used p (pre ++ post))
    (hP : P a pre post)
    (hgoes : ∀ b pre s post, Tidy b used p (pre ++ s :: post) → b.isIgnorable s.root strip = .ok true →
      P b pre (s :: post) →
      P (b.without p (pre.map Shape.root) s.root) pre post)
    (hstays : ∀ b pre s post, Tidy b used p (pre ++ s :: post) → b.isIgnorable s.root strip = .ok false →
      P b pre (s :: post) →
      P b (pre ++ [s]) post) (hsteps : post.length ≤ steps) :
    ∃ b ss', Edit.dropIgnorable strip p steps pre.length a = .ok () b ∧ Leads strip a b used used ∧
    Tidy b used p ss' ∧ P b ss' [] := by
  induction steps generalizing a pre post with
  | zero =>
    obtain rfl : post = [] := List.length_eq_zero_iff.1 (by omega)
    exact ⟨a, pre, rfl, .refl used, by rwa [List.append_nil] at h, hP⟩
  | succ steps ih =>
    cases post with
    | nil =>
      refine ⟨a, pre, ?_, .refl used, by rwa [List.append_nil] at h, hP⟩
      have hend : ¬ pre.length < a.childCount p := by rw [h.childCount]; simp
      simp only [Edit.dropIgnorable, Edit.bind_ok (Edit.get_ok a), if_neg hend]
      rfl
    | cons s post =>
      have hmore : pre.length < a.childCount p := by rw [h.childCount]; simp
      obtain ⟨ignorable, hignorable⟩ :=
        h.sound.isIgnorable (h.used_of_mem (x := s.root) (root_mem_ids (by simp))) strip
      simp only [Edit.dropIgnorable, Edit.bind_ok (Edit.get_ok a), if_pos hmore,
        Edit.bind_ok (Edit.observe_ok (·.child p pre.length) h.child),
        Edit.bind_ok (Edit.observe_ok (·.isIgnorable s.root strip) hignorable)]
      cases ignorable with
      | true =>
        have hchildren := h.children_split
        have hremove := Arena.removeChild_eq hchildren
        rw [List.length_map] at hremove
        simp only [if_true, Edit.bind_ok hremove]
        obtain ⟨b, ss', hedit, hleads, hdone⟩ :=
          ih h.without (hgoes _ _ _ _ h hignorable hP) (by simpa using hsteps)
        exact ⟨b, ss', hedit, (h.touches_without hignorable).leads.trans hleads, hdone⟩
      | false =>
        have hpast : Tidy a used p (pre ++ [s] ++ post) := by rwa [List.append_assoc]
        have hnext := ih hpast (hstays _ _ _ _ h hignorable hP) (by simpa using hsteps)
        simpa using hnext

/-- The children that are left run like those before, and none of them is a comment or an empty text. -/
theorem Underway.dropIgnorable {done : List Shape} (h : Underway strip a a' used used' branches p ss done [])
    (hformed : Formed a ss)
    (hbare : Bare a ss) (hbranches : branches = true → ∀ s ∈ ss, ∃ branch condition, (a.get s.root).kind =
      .conditional branch condition) :
    ∃ b ss', Edit.dropIgnorable strip p done.length 0 a' = .ok () b ∧ Leads strip a' b used' used' ∧
      Underway strip a b used used' branches p ss ss' [] ∧ Shown b ss' := by
  have htidy : Tidy a' used' p ([] ++ done) := by simpa using h.tidy
  obtain ⟨b, ss', hedit, hleads, -, hunder, hshown⟩ :
      ∃ b ss', Edit.dropIgnorable strip p done.length 0 a' = .ok () b ∧
      Leads strip a' b used' used' ∧ Tidy b used' p ss' ∧
      Underway strip a b used used' branches p ss (ss' ++ []) [] ∧ Shown b ss' := by
    refine htidy.exists_dropIgnorable
      (P := fun b pre post => Underway strip a b used used' branches p ss (pre ++ post) [] ∧ Shown b pre)
      done.length ⟨h, List.forall_mem_nil _⟩ (fun b pre s post _ hignorable hP => ?_)
        (fun b pre s post _ hignorable hP => ?_) (Nat.le_refl _)
    · obtain ⟨hunder, hshown⟩ := hP
      have hmode : branches = false := by
        cases branches with
        | false => rfl
        | true =>
          obtain ⟨branch, condition, hkind⟩ := hunder.run.conditional (hbranches rfl) s (by simp)
          rw [not_isIgnorable_conditional hkind] at hignorable
          cases hignorable
      subst hmode
      refine ⟨hunder.drop hformed hbare hignorable, fun u hu => ?_⟩
      rw [((Arena.sameNodes_without b p (pre.map root) s.root).2 u.root).1]
      exact hshown u hu
    · obtain ⟨hunder, hshown⟩ := hP
      exact ⟨by simpa using hunder, List.forall_mem_append.2
        ⟨hshown, List.forall_mem_singleton.2 (Arena.lasting_of_not_isIgnorable hignorable)⟩⟩
  exact ⟨b, ss', hedit, hleads, by simpa using hunder, hshown⟩

/-- If the children stand as they were read, none of those that are left can go any more. -/
theorem Tidy.exists_firm (h : Tidy a used p ss) (hloose : a.Loose (a.children p)) :
    ∃ b, Edit.dropIgnorable strip p ss.length 0 a = .ok () b ∧
    ∀ {pre : List ElementId} {x : ElementId} {post : List ElementId}, b.children p = pre ++ x :: post →
    b.Firm strip p pre x post := by
  have htidy : Tidy a used p ([] ++ ss) := h
  rw [h.children] at hloose
  obtain ⟨b, ss', hedit, -, htidy', -, hfirm⟩ : ∃ b ss', Edit.dropIgnorable strip p ss.length 0 a = .ok () b ∧
      Leads strip a b used used ∧
      Tidy b used p ss' ∧ b.Loose (([] : List Shape).map Shape.root) ∧
        ∀ {front : List ElementId} {x : ElementId} {back : List ElementId},
        ss'.map Shape.root = front ++ x :: back →
        b.Firm strip p front x (back ++ ([] : List Shape).map Shape.root) := by
    refine htidy.exists_dropIgnorable (P := fun b pre post => b.Loose (post.map Shape.root) ∧
      ∀ {front : List ElementId} {x : ElementId} {back : List ElementId}, pre.map Shape.root =
        front ++ x :: back →
        b.Firm strip p front x (back ++ post.map Shape.root)) ss.length ⟨hloose, fun hnil => by simp at hnil⟩
      (fun b pre s post htidy hgoes hP => ?_) (fun b pre s post htidy hstays hP => ?_) (Nat.le_refl _)
    · obtain ⟨hloose, hfirm⟩ := hP
      have hnodes := Arena.sameNodes_without b p (pre.map Shape.root) s.root
      refine ⟨hloose.tail.sameNodes hnodes, fun hpre => ?_⟩
      refine ((hfirm hpre).goes (goes_of_isIgnorable hgoes)).congr
        (fun y _ => (hnodes.2 y).1) fun hbelow => ?_
      rwa [htidy.takenOut.self.1]
    · obtain ⟨hloose, hfirm⟩ := hP
      refine ⟨hloose.tail, fun {front x back} hpre => ?_⟩
      rw [List.map_append, List.map_singleton] at hpre
      rcases List.eq_nil_or_concat' back with rfl | ⟨back, y, rfl⟩
      · obtain ⟨rfl, hx⟩ := List.append_inj' hpre rfl
        obtain rfl := (List.cons.inj hx).1
        exact htidy.sound.firm htidy.root htidy.children_split hloose hstays
      · rw [← List.cons_append, ← List.append_assoc] at hpre
        obtain ⟨hfront, hy⟩ := List.append_inj' hpre rfl
        obtain rfl := (List.cons.inj hy).1
        rw [List.append_assoc]
        exact hfirm hfront
  refine ⟨b, hedit, fun hchildren => ?_⟩
  rw [htidy'.children] at hchildren
  simpa using hfirm hchildren

end

end Stencil
