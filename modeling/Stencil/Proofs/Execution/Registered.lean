import Stencil.Proofs.Cleanup.Foretold
import Stencil.Proofs.Cleanup.Terminals
import Stencil.Proofs.Reading.Canonical
import Stencil.Proofs.Execution.Raised

/-! # Registered macros

A macro is called by its name, and found by the number of its element in the template that defines it. The
elements of a template are visited from its root on with a stack of those that are still to be visited;
each definition among them takes the place of what its name stood for. A table of such references says
which trees can be called. -/

namespace Stencil

open Shape

/-! ### Visiting the elements of a template -/

namespace Arena

/-- The elements that are visited, in order, while a stack is worked off: the topmost element is taken away,
and its children are put in its place. -/
inductive Visits (a : Arena) : (stack visited : List ElementId) → Prop
  | done : Visits a [] []
  | next {x : ElementId} {stack visited : List ElementId} (rest : Visits a (a.children x ++ stack) visited) :
    Visits a (x :: stack) (x :: visited)

/-- An element can be reached from another through child lists. -/
def Reaches (a : Arena) : ElementId → ElementId → Prop := Relation.ReflTransGen fun p c => c ∈ a.children p

end Arena

section
variable {strip : Bool} {a b : Arena} {used : ElementId → Prop} {p x : ElementId} {ss us parts : List Shape}
  {stack visited : List ElementId}

/-- All elements of a shape are visited before what was below it on the stack. -/
theorem Shape.Spans.visits (h : Spans a ss) (hrest : a.Visits stack visited) :
    a.Visits (ss.map root ++ stack) (ids ss ++ visited) := by
  induction ss using forest_induction generalizing stack visited with
  | nil => simpa only [List.map_nil, ids_nil, List.nil_append] using hrest
  | cons id parts ss ihParts ih =>
    rw [Spans] at h
    obtain ⟨hchildren, hparts, hss⟩ := h
    have hvisits := ihParts hparts (ih hss hrest)
    rw [← hchildren] at hvisits
    rw [ids, List.cons_append, List.append_assoc]
    exact .next hvisits

theorem Shape.Spans.exists_reaches (h : Spans a ss) (hx : x ∈ ids ss) : ∃ s ∈ ss, a.Reaches s.root x := by
  induction ss using forest_induction with
  | nil =>
    rw [ids_nil] at hx
    cases hx
  | cons id parts ss ihParts ih =>
    rw [Spans] at h
    obtain ⟨hchildren, hparts, hss⟩ := h
    rcases mem_ids_cons.1 hx with rfl | hx | hx
    · exact ⟨_, List.mem_cons_self, .refl⟩
    · obtain ⟨s, hs, hreaches⟩ := ihParts hparts hx
      have hchild : s.root ∈ a.children id := hchildren ▸ List.mem_map_of_mem hs
      exact ⟨_, List.mem_cons_self, .head hchild hreaches⟩
    · obtain ⟨s, hs, hreaches⟩ := ih hss hx
      exact ⟨s, List.mem_cons_of_mem _ hs, hreaches⟩

/-- The elements of a shape are those that can be reached from its root. -/
theorem Shape.Spans.mem_ids_iff (h : Spans a [⟨p, ss⟩]) : x ∈ ids [⟨p, ss⟩] ↔ a.Reaches p x := by
  refine ⟨fun hx => ?_, fun hx => ?_⟩
  · obtain ⟨s, hs, hreaches⟩ := h.exists_reaches hx
    rwa [List.mem_singleton.1 hs] at hreaches
  · induction hx with
    | refl => exact root_mem_ids (List.mem_singleton_self ⟨p, ss⟩)
    | tail _ hchild ih => exact h.mem_ids_of_mem ih hchild

/-! ### Trees in an arena -/

/-- To read a tree off an arena it is enough to go as deep as there are elements. -/
theorem Tidy.treeWithin_eq {depth : Nat} (h : Tidy a used p ss)
    (hdepth : (ids [⟨p, ss⟩]).length ≤ depth + 1) :
    a.treeWithin depth p = a.tree p := by
  have hown : ∀ x ∈ ids [⟨p, ss⟩], (a.get x).kind.withText (a.ownTexts x) = (a.get x).kind :=
    fun x _ => a.withText_ownTexts x
  have hwhole : (ids [⟨p, ss⟩]).length ≤ a.size + 1 := Nat.le_succ_of_le h.length_ids_le
  exact List.singleton_inj.1 ((treeWithin_eq_trees depth h hdepth hown).trans
    (treeWithin_eq_trees a.size h hwhole hown).symm)

@[simp] theorem Arena.kind_tree (a : Arena) (x : ElementId) : (a.tree x).kind = (a.get x).kind := by
  rw [Arena.tree]
  cases a.size <;> rfl

theorem Tidy.children_tree (h : Tidy a used p ss) : (a.tree p).children = (a.children p).map a.tree := by
  obtain ⟨n, hn⟩ := Nat.exists_eq_add_of_lt (h.sound.inside h.root)
  have hlength := h.length_ids_le
  rw [ids_singleton, List.length_cons] at hlength
  have hsize : a.size = p + n + 1 := by omega
  rw [Arena.tree, hsize, Arena.treeWithin, h.children, List.map_map, List.map_map]
  refine List.map_congr_left fun s hs => ?_
  obtain ⟨q, parts⟩ := s
  obtain ⟨hpart, hsub⟩ := h.of_mem hs
  have hle := hsub.length_le
  exact hpart.treeWithin_eq (by omega)

theorem Tree.preorder_eq (t : Tree) : t.preorder = t :: Tree.preorders t.children := by
  cases t
  rw [Tree.preorder]

/-- The elements of the tree of an arena are the trees of its elements. -/
theorem Tidy.preorder_tree (h : Tidy a used p ss) : (a.tree p).preorder = (ids [⟨p, ss⟩]).map a.tree := by
  induction hn : (ids [⟨p, ss⟩]).length using Nat.strong_induction_on generalizing p ss with
  | _ n ih =>
    have hlength := ids_singleton p ss ▸ hn
    have hparts : ∀ us : List Shape, us ⊆ ss → Tree.preorders ((us.map Shape.root).map a.tree) =
        (ids us).map a.tree := by
      intro us hus
      induction us with
      | nil => rw [ids_nil]; rfl
      | cons s us ihRest =>
        obtain ⟨q, parts⟩ := s
        obtain ⟨hpart, hsub⟩ := h.of_mem (hus List.mem_cons_self)
        have hle := hsub.length_le
        have hfirst := ih _ (by rw [List.length_cons] at hlength; omega) hpart rfl
        rw [ids_cons, List.map_append, ← hfirst, ← ihRest fun u hu => hus (List.mem_cons_of_mem _ hu)]
        rfl
    rw [Tree.preorder_eq, h.children_tree, h.children, hparts ss (List.Subset.refl ss),
      ids_singleton, List.map_cons]

end

/-! ### Sound templates -/

namespace Template

/-- The elements of a template hang together as a tree, whose root has no parent. -/
structure Sound (t : Template) : Prop where
  orphan : (t.arena.get t.root).parent = none
  tidy : ∃ used ss, Tidy t.arena used t.root ss

/-- The definitions of a name in a template, in the order of the document. -/
def definitions (t : Template) (name : String) : List ElementId :=
  t.elements.filter fun id => match (t.arena.get id).kind with
    | .definition defined _ => defined == name
    | _ => false

variable {t : Template} {x : ElementId}

theorem Sound.of_mem (h : t.Sound) (hx : x ∈ t.elements) : ∃ used ss, Tidy t.arena used x ss := by
  obtain ⟨used, ss, htidy⟩ := h.tidy
  rw [elements, preorder_eq_ids htidy] at hx
  exact ⟨used, (htidy.of_mem_ids h.orphan hx).2⟩

theorem Sound.visits (h : t.Sound) : t.arena.Visits [t.root] t.elements := by
  obtain ⟨used, ss, htidy⟩ := h.tidy
  have hvisits := htidy.spans.visits .done
  rwa [List.append_nil, List.append_nil, ← preorder_eq_ids htidy] at hvisits

theorem Sound.nodup (h : t.Sound) : t.elements.Nodup := by
  obtain ⟨used, ss, htidy⟩ := h.tidy
  rw [elements, preorder_eq_ids htidy]
  exact htidy.nodup

theorem Sound.mem_elements_iff (h : t.Sound) : x ∈ t.elements ↔ t.arena.Reaches t.root x := by
  obtain ⟨used, ss, htidy⟩ := h.tidy
  rw [elements, preorder_eq_ids htidy]
  exact htidy.spans.mem_ids_iff

/-- An element comes right before the elements of its children, one child after the other. -/
theorem Sound.preorder_eq (h : t.Sound) (hx : x ∈ t.elements) :
    t.arena.preorder x = x :: (t.arena.children x).flatMap t.arena.preorder := by
  obtain ⟨used, ss, htidy⟩ := h.of_mem hx
  rw [preorder_eq_ids htidy, ids_singleton, htidy.children, flatMap_roots_eq_ids]
  intro s hs
  obtain ⟨q, parts⟩ := s
  exact preorder_eq_ids (htidy.of_mem hs).1

/-- The elements of a template are those that are reached from its root, each visited once, and each
before what is below it. -/
structure Visited (t : Template) : Prop where
  visits : t.arena.Visits [t.root] t.elements
  once : t.elements.Nodup
  reached (x : ElementId) : x ∈ t.elements ↔ t.arena.Reaches t.root x
  preorder {x : ElementId} : x ∈ t.elements →
    t.arena.preorder x = x :: (t.arena.children x).flatMap t.arena.preorder

theorem Sound.visited (h : t.Sound) : t.Visited where
  visits := h.visits
  once := h.nodup
  reached _ := h.mem_elements_iff
  preorder := h.preorder_eq

theorem Sound.preorder_tree (h : t.Sound) : t.tree.preorder = t.elements.map t.arena.tree := by
  obtain ⟨used, ss, htidy⟩ := h.tidy
  rw [tree, htidy.preorder_tree, elements, preorder_eq_ids htidy]

end Template

theorem Finished.isSound {strip : Bool} {raw : Tree} {t : Template} {parts us : List Shape}
    (h : Finished strip raw t parts us) :
    t.Sound := by
  obtain ⟨used, htidy⟩ := h.tidy
  refine ⟨?_, used, us, htidy⟩
  obtain ⟨c, -, harena⟩ := h.exists_clean
  have hinside := htidy.sound.inside htidy.root
  rw [harena, Arena.detach, Arena.size_update] at hinside
  rw [harena, c.get_detach hinside, if_pos rfl]

/-- What is read is sound. -/
theorem Template.sound_of_parse {name : Option String} {text : String} {strip : Bool} {t : Template}
    (h : Template.parse name text strip = .ok t) : t.Sound := by
  obtain ⟨raw, parts, us, -, hfinished⟩ := exists_finished_of_parse h
  exact hfinished.isSound

theorem Loader.sound_of_load {l : Loader} {name : String} {t : Template} (h : l.load name = .ok t) :
    t.Sound := by
  obtain ⟨-, -, -, text, hparse⟩ := Loader.exists_of_load h
  exact Template.sound_of_parse hparse

/-! ### References to macros -/

/-- A reference to an element of a template. -/
structure MacroRef where
  template : Template
  id : ElementId

namespace MacroRef

def element (r : MacroRef) : Element := r.template.arena.get r.id

/-- The tree that is called. -/
def definition (r : MacroRef) : Tree := r.template.arena.tree r.id

def parameters (r : MacroRef) : List String :=
  match r.element.kind with
  | .definition _ parameters => parameters
  | _ => []

def body (r : MacroRef) : List Tree := (r.template.arena.children r.id).map r.template.arena.tree

/-- The element is a macro of a name, in a template whose elements can all be found. -/
structure Defines (r : MacroRef) (name : String) : Prop where
  sound : r.template.Sound
  member : r.id ∈ r.template.elements
  kind : r.element.kind = .definition name r.parameters

variable {r : MacroRef} {name : String}

theorem Defines.kind_definition (h : r.Defines name) : r.definition.kind = .definition name r.parameters :=
  (r.template.arena.kind_tree r.id).trans h.kind

theorem Defines.children_definition (h : r.Defines name) : r.definition.children = r.body := by
  obtain ⟨used, ss, htidy⟩ := h.sound.of_mem h.member
  exact htidy.children_tree

end MacroRef

/-- Registers the macros of a template under their names; of two definitions of a
name the later one counts. -/
def Template.register (t : Template) (table : Bindings MacroRef) : Bindings MacroRef :=
  t.elements.foldl (fun table id =>
    match (t.arena.get id).kind with
    | .definition name _ => table.insert name ⟨t, id⟩
    | _ => table) table

/-- A table of references, each to a macro of the name that it is registered under, and the
trees that it refers to. -/
structure Refers (table : Bindings MacroRef) (macros : Bindings Tree) : Prop where
  defines {name : String} {r : MacroRef} : table.get? name = some r → r.Defines name
  macros (name : String) : macros.get? name = (table.get? name).map MacroRef.definition

theorem refers_empty : Refers {} {} where
  defines h := by
    rw [Bindings.get?_empty] at h
    cases h
  macros _ := rfl

section
variable {table : Bindings MacroRef} {macros : Bindings Tree} {t : Template} {name : String} {r : MacroRef}

/-- A name stands for its last definition in the template, or for what it stood for if it has none there. -/
theorem Template.get?_register (t : Template) (table : Bindings MacroRef) (name : String) :
    (t.register table).get? name = ((t.definitions name).getLast?.map (⟨t, ·⟩)).or (table.get? name) := by
  rw [Template.register, Template.definitions]
  induction t.elements using List.reverseRecOn with
  | nil => rfl
  | append_singleton ids id ih =>
    rw [List.foldl_concat, List.filter_append, List.getLast?_append, List.filter_cons, List.filter_nil]
    cases (t.arena.get id).kind with
    | definition defined parameters =>
      dsimp only
      rw [Bindings.get?_insert, ih]
      by_cases hname : name = defined
      · rw [if_pos hname, if_pos (beq_iff_eq.2 hname.symm)]
        rfl
      · rw [if_neg hname, if_neg (beq_iff_eq.not.2 (Ne.symm hname))]
        rfl
    | _ =>
      dsimp only
      rw [ih]
      rfl

theorem Refers.insert (h : Refers table macros) (hr : r.Defines name) :
    Refers (table.insert name r) (macros.insert name r.definition) where
  defines {other} {found} hfound := by
    rw [Bindings.get?_insert] at hfound
    split at hfound
    · next hsame =>
      cases hfound
      exact hsame ▸ hr
    · exact h.defines hfound
  macros other := by
    rw [Bindings.get?_insert, Bindings.get?_insert]
    split
    · rfl
    · exact h.macros other

/-- Registering the macros of a template makes the trees of its definitions callable. -/
theorem Refers.register (h : Refers table macros) (ht : t.Sound) :
    Refers (t.register table) (Action.withMacrosOf t.tree macros) := by
  rw [Template.register, Action.withMacrosOf, ht.preorder_tree, List.foldl_map]
  suffices hall : ∀ ids, ids ⊆ t.elements → Refers (ids.foldl _ table) (ids.foldl _ macros) from
    hall _ (List.Subset.refl _)
  intro ids
  induction ids generalizing table macros with
  | nil => exact fun _ => h
  | cons id ids ih =>
    intro hids
    refine ih ?_ fun _ hx => hids (List.mem_cons_of_mem id hx)
    dsimp only
    rw [Arena.kind_tree]
    cases hkind : (t.arena.get id).kind with
    | definition name parameters =>
      have hdefines : (⟨t, id⟩ : MacroRef).Defines name := by
        refine ⟨ht, hids List.mem_cons_self, ?_⟩
        simp only [MacroRef.element, MacroRef.parameters, hkind]
      exact h.insert hdefines
    | _ => exact h

end

/-! ### Calls -/

namespace Execution

open Stencil.Action Recorder

variable {σ : Type} [Recorder σ]

/-- Calls what a table has under a name. -/
def callThrough (table : Bindings MacroRef) (callee : Tree → List Tree → Run σ Unit) (t : Tree)
    (name : String) (arguments : List Expr) : Run σ Unit :=
  match table.get? name with
  | none => throw (.undefinedMacro name (.ofTree t))
  | some r =>
    if arguments.length > r.parameters.length then
      throw (.type (.tooManyArguments name r.parameters.length arguments.length) (.ofTree t))
    else do
      let bindings ← bindParameters r.parameters arguments {}
      enter t
      closing .level do
        pushScope bindings true
        closing .scope (callee t r.body)

theorem current_bind {α : Type} (f : Environment → Run σ α) (s : σ) :
    (current >>= f) s = f (environment s) s := rfl

/-- Where a table refers to what can be called, a call is one through the table: there is
nothing else to be found. -/
theorem callMacro_eq {table : Bindings MacroRef} {s : σ} (h : Refers table (environment s).macros)
    (callee : Tree → List Tree → Run σ Unit) (t : Tree) (name : String) (arguments : List Expr) :
    callMacro callee t name arguments s = callThrough table callee t name arguments s := by
  rw [callMacro, callThrough, current_bind, h.macros name]
  cases hr : table.get? name with
  | none => rfl
  | some r =>
    have hdefines := h.defines hr
    simp only [Option.map_some, hdefines.kind_definition, hdefines.children_definition]

end Execution

end Stencil
