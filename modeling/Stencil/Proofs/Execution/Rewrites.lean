import Stencil.Proofs.Execution.History

/-! # Elements that can be left out

Comments, empty texts, sequences and if blocks with one branch add nothing to a run: an environment, which
keeps no history, goes through them as if only their children were there. Trees that differ by such
elements are processed alike, down to the site and the trace of an error. -/

namespace Stencil

theorem Kind.Like.eq_of_shown {k k' : Kind} (h : k.Like Eq k') (hshown : (k.isSite || k.isTraced) = true) :
    k = k' := by
  cases h with
  | text => cases hshown
  | conditional => cases hshown
  | interpolation h | list _ h | assignment _ h | inclusion h => rw [h]
  | call name h =>
    rw [List.forall₂_eq_eq_eq] at h
    rw [h]
  | sequence | ifBlock | capture | definition | comment => rfl

theorem Tree.canonical_of_isSite {t : Tree} (h : t.kind.isSite = true) : t.canonical = t.kind.openTag := by
  obtain ⟨kind, location, inBlock, children⟩ := t
  cases kind with
  | interpolation | call | inclusion => simp [canonical, markup, showsChildren, closeTag]
  | _ => cases h

theorem Sink.write_empty (s : Sink) : s.write "" = (.ok (), s) := by
  rw [write, if_pos (by simp)]

namespace Execution

open Stencil.Action Recorder

/-! ### Elements that are alike -/

/-- Elements that differ at most in children and in what no run shows. -/
structure SameNode (t t' : Tree) : Prop where
  kind : t.kind.Like Eq t'.kind
  location : (t.kind.isSite || t.kind.isTraced) = true → t.location = t'.location

theorem SameNode.self (t : Tree) : SameNode t t := ⟨Kind.Like.self (fun _ => rfl) _, fun _ => rfl⟩

theorem SameNode.site {t t' : Tree} (h : SameNode t t') (hsite : t.kind.isSite = true) :
    ErrorSite.ofTree t = ErrorSite.ofTree t' := by
  have hshown : (t.kind.isSite || t.kind.isTraced) = true := by rw [hsite]; rfl
  have hkind := h.kind.eq_of_shown hshown
  have hlocation := h.location hshown
  have hcanonical : t.canonical = t'.canonical := by
    rw [Tree.canonical_of_isSite hsite, Tree.canonical_of_isSite (hkind ▸ hsite), hkind]
  simp only [ErrorSite.ofTree, Tree.source, hcanonical, hkind, hlocation]

theorem SameNode.traceLine {t t' : Tree} (h : SameNode t t') (htraced : t.kind.isTraced = true) :
    traceLine t = traceLine t' := by
  have hshown : (t.kind.isSite || t.kind.isTraced) = true := by rw [htraced, Bool.or_true]
  rw [Execution.traceLine, Execution.traceLine, h.kind.eq_of_shown hshown, h.location hshown]

/-! ### Elements that add nothing -/

/-- The first of some elements gives way to what it amounts to. -/
inductive LeavesOut : List Tree → List Tree → Prop
  | comment {t : Tree} (text : String) (hkind : t.kind = .comment text)
    (hchildren : t.children = []) (ts : List Tree) :
    LeavesOut (t :: ts) ts
  | emptyText {t : Tree} (trimmed : Bool) (hkind : t.kind = .text "" trimmed) (hchildren : t.children = [])
    (ts : List Tree) : LeavesOut (t :: ts) ts
  | sequence {t : Tree} (hkind : t.kind = .sequence) (ts : List Tree) : LeavesOut (t :: ts) (t.children ++ ts)
  | onlyBranch {t b : Tree} (hkind : t.kind = .ifBlock) (hchildren : t.children = [b]) (branch : Branch)
    (condition : Option Expr) (hbranch : b.kind = .conditional branch condition) (ts : List Tree) :
    LeavesOut (t :: ts) (b :: ts)

section
variable {callee : Tree → List Tree → Action Unit} {t b : Tree}

/-- Nothing is kept of an element that is not listed. -/
theorem execute_of_untraced (htraced : t.kind.isTraced = false) (body : Action Unit) :
    execute callee body t = perform callee body t := by
  funext env
  have hlisting (env : Environment) : listing t env = env := by
    rw [listing, htraced]
    rfl
  have hunlisting (env : Environment) : unlisting t env = env := by
    rw [unlisting, htraced]
    rfl
  simp only [execute, Bind.bind, EStateM.bind, beginElement_listing, endElement_unlisting, hlisting,
    hunlisting, telling]
  cases perform callee body t env <;> rfl

theorem recurse_comment {text : String} (hkind : t.kind = .comment text) : recurse callee t = pure () := by
  rw [recurse_eq, execute_of_untraced (by rw [hkind]; rfl)]
  simp only [perform, hkind]
  rfl

theorem write_empty : (write "" : Action Unit) = pure () := by
  funext env
  unfold write
  cases hcaptures : env.captures with
  | cons captured outer =>
    simp only [environment, id_eq, hcaptures, String.append_empty]
    rw [← hcaptures]
    rfl
  | nil =>
    simp only [environment, id_eq, hcaptures, Sink.write_empty]
    rw [← hcaptures]
    rfl

theorem recurse_text {text : String} {trimmed : Bool} (hkind : t.kind = .text text trimmed) :
    recurse callee t = write text := by
  rw [recurse_eq, execute_of_untraced (by rw [hkind]; rfl)]
  simp only [perform, hkind]
  funext env
  simp only [Bind.bind, EStateM.bind]
  cases (write text : Action Unit) env <;> rfl

theorem recurse_sequence (hkind : t.kind = .sequence) : recurse callee t = recurseAll callee t.children := by
  rw [recurse_eq, execute_of_untraced (by rw [hkind]; rfl)]
  simp only [perform, hkind]
  rfl

theorem takenBranch_singleton {branch : Branch} {condition : Option Expr}
    (hbranch : b.kind = .conditional branch condition) : (takenBranch [b] : Action _) = do
      if ← isTaken condition then return some ⟨b, List.mem_cons_self⟩ else return none := by
  simp only [takenBranch, hbranch]
  funext env
  simp only [Bind.bind, EStateM.bind]
  cases (isTaken condition : Action Bool) env with
  | ok taken env' => cases taken <;> rfl
  | error e env' => rfl

theorem recurse_onlyBranch (hkind : t.kind = .ifBlock) (hchildren : t.children = [b]) {branch : Branch}
    {condition : Option Expr} (hbranch : b.kind = .conditional branch condition) :
    recurse callee t = recurse callee b := by
  rw [recurse_eq, recurse_eq, execute_of_untraced (by rw [hkind]; rfl),
    execute_of_untraced (by rw [hbranch]; rfl)]
  obtain ⟨kind, location, inBlock, children⟩ := t
  obtain rfl : children = [b] := hchildren
  obtain rfl : kind = .ifBlock := hkind
  simp only [perform, hbranch, takenBranch_singleton hbranch]
  funext env
  simp only [Bind.bind, EStateM.bind]
  cases (isTaken condition : Action Bool) env with
  | ok taken env' => cases taken <;> rfl
  | error e env' => rfl

/-- Leaving elements out does not show in an environment. -/
theorem LeavesOut.recurseAll_eq {ts us : List Tree} (h : LeavesOut ts us) :
    recurseAll callee ts = recurseAll callee us := by
  cases h with
  | comment text hkind => rw [recurseAll_cons, recurse_comment hkind]; exact pure_bind _ _
  | emptyText trimmed hkind => rw [recurseAll_cons, recurse_text hkind, write_empty]; exact pure_bind _ _
  | sequence hkind => rw [recurseAll_cons, recurse_sequence hkind, recurseAll_append]
  | onlyBranch hkind hchildren branch condition hbranch =>
    rw [recurseAll_cons, recurseAll_cons, recurse_onlyBranch hkind hchildren hbranch]

end

theorem LeavesOut.append {ts us : List Tree} (h : LeavesOut ts us) (vs : List Tree) :
    LeavesOut (ts ++ vs) (us ++ vs) := by
  cases h with
  | comment text hkind hchildren => exact .comment text hkind hchildren _
  | emptyText trimmed hkind hchildren => exact .emptyText trimmed hkind hchildren _
  | @sequence t hkind ts =>
    rw [List.append_assoc]
    exact .sequence hkind _
  | onlyBranch hkind hchildren branch condition hbranch =>
    exact .onlyBranch hkind hchildren branch condition hbranch _

/-- The macro that an element defines itself. -/
def ownDefinition (t : Tree) : List (String × Tree) :=
  match t.kind with
  | .definition name _ => [(name, t)]
  | _ => []

theorem definitions_append (ts us : List Tree) :
    definitions (ts ++ us) = definitions ts ++ definitions us := by
  induction ts with
  | nil => rfl
  | cons t ts ih =>
    simp only [definitions, List.cons_append, Tree.preorders, List.filterMap_append] at ih ⊢
    rw [ih, List.append_assoc]

theorem definitions_cons (t : Tree) (ts : List Tree) :
    definitions (t :: ts) = ownDefinition t ++ (definitions t.children ++ definitions ts) := by
  have hpreorder : t.preorder = t :: Tree.preorders t.children := by cases t; rfl
  simp only [definitions, Tree.preorders, hpreorder, List.filterMap_append,
    List.filterMap_cons, ownDefinition]
  cases t.kind <;> rfl

/-- Leaving elements out leaves no macro out. -/
theorem LeavesOut.definitions_eq {ts us : List Tree} (h : LeavesOut ts us) :
    definitions ts = definitions us := by
  cases h with
  | comment text hkind hchildren | emptyText trimmed hkind hchildren =>
    rw [definitions_cons, ownDefinition, hkind, hchildren]
    rfl
  | sequence hkind =>
    rw [definitions_cons, ownDefinition, hkind, definitions_append]
    rfl
  | @onlyBranch t b hkind hchildren branch condition hbranch ts =>
    have hchild : definitions [b] = ownDefinition b ++ definitions b.children := by
      rw [definitions_cons]
      exact congrArg _ (List.append_nil _)
    rw [definitions_cons, definitions_cons, ownDefinition, hkind, hchildren, hchild]
    simp only [List.nil_append, List.append_assoc]

/-- Bodies that are the same but for elements that can be left out. -/
abbrev SameRun (branches : Bool) (ts ts' : List Tree) : Prop := Alike SameNode LeavesOut branches ts ts'

/-- Bodies that run alike define macros that run alike, if no rewrite leaves one out. -/
theorem Alike.definitions {node : Tree → Tree → Prop} {rewrites : List Tree → List Tree → Prop}
    {expr : Expr → Expr → Prop} (hnode : ∀ {t t'}, node t t' → t.kind.Like expr t'.kind)
    (hrewrites : ∀ {ts us}, rewrites ts us → definitions ts = definitions us) {branches : Bool}
    {ts ts' : List Tree} (h : Alike node rewrites branches ts ts') :
    DefinitionsAlike node rewrites (definitions ts) (definitions ts') := by
  induction h with
  | nil => exact .nil
  | @cons _ t t' ts ts' head body tail ihBody ihTail =>
    rw [definitions_cons, definitions_cons]
    refine List.rel_append ?_ (List.rel_append ihBody ihTail)
    have hk := hnode head
    generalize hkind : t.kind = k at hk
    generalize hkind' : t'.kind = k' at hk
    simp only [ownDefinition, hkind, hkind']
    cases hk with
    | definition name parameters =>
      refine .cons ⟨rfl, fun n ps => by rw [hkind, hkind'], ?_⟩ .nil
      rwa [hkind] at body
    | _ => exact .nil
  | rewrite step _ ih =>
    rw [hrewrites step]
    exact ih

theorem SameRun.append {branches : Bool} {ts ts' us us' : List Tree} (h : SameRun branches ts ts')
    (h' : SameRun branches us us') : SameRun branches (ts ++ us) (ts' ++ us') := by
  induction h with
  | nil => exact h'
  | cons head body _ _ ih => exact .cons head body (ih h')
  | rewrite step _ ih => exact .rewrite (step.append us) (ih h')

/-- An element that runs as nothing. -/
inductive Void (t : Tree) : Prop
  | comment (text : String) (h : t.kind = .comment text)
  | emptyText (trimmed : Bool) (h : t.kind = .text "" trimmed)
  | sequence (h : t.kind = .sequence) (hchildren : t.children = [])

/-- Kinds of element without a body. -/
inductive Kind.IsLeaf : Kind → Prop
  | comment (text : String) : IsLeaf (.comment text)
  | text (text : String) (trimmed : Bool) : IsLeaf (.text text trimmed)

/-- Comments and texts have no children. -/
def Leaves (ts : List Tree) : Prop := ∀ t ∈ Tree.preorders ts, Kind.IsLeaf t.kind → t.children = []

theorem leaves_cons {t : Tree} {ts : List Tree} :
    Leaves (t :: ts) ↔ (Kind.IsLeaf t.kind → t.children = []) ∧ Leaves t.children ∧ Leaves ts := by
  have hpreorder : t.preorder = t :: Tree.preorders t.children := by cases t; rfl
  simp only [Leaves, Tree.preorders, hpreorder, List.mem_append, List.mem_cons]
  constructor
  · intro h
    exact ⟨h t (.inl (.inl rfl)), fun u hu => h u (.inl (.inr hu)), fun u hu => h u (.inr hu)⟩
  · rintro ⟨hself, hchildren, htail⟩ u ((rfl | hu) | hu)
    · exact hself
    · exact hchildren u hu
    · exact htail u hu

theorem leaves_append {ts us : List Tree} : Leaves (ts ++ us) ↔ Leaves ts ∧ Leaves us := by
  induction ts with
  | nil => simp [Leaves, Tree.preorders]
  | cons t ts ih =>
    rw [List.cons_append, leaves_cons, leaves_cons, ih]
    constructor
    · rintro ⟨hself, hchildren, hts, hus⟩
      exact ⟨⟨hself, hchildren, hts⟩, hus⟩
    · rintro ⟨⟨hself, hchildren, hts⟩, hus⟩
      exact ⟨hself, hchildren, hts, hus⟩

theorem Leaves.leavesOut {ts us : List Tree} (hleaves : Leaves ts) (h : LeavesOut ts us) : Leaves us := by
  cases h with
  | comment | emptyText => exact (leaves_cons.1 hleaves).2.2
  | sequence => exact leaves_append.2 (leaves_cons.1 hleaves).2
  | onlyBranch _ hchildren =>
    obtain ⟨-, hbody, htail⟩ := leaves_cons.1 hleaves
    rw [hchildren, leaves_cons] at hbody
    exact leaves_cons.2 ⟨hbody.1, hbody.2.1, htail⟩

/-- What runs as nothing can be left out on the right too. -/
theorem SameRun.drop {ts us vs : List Tree} {v : Tree} (h : SameRun false ts (us ++ v :: vs)) (hv : Void v)
    (hleaves : Leaves ts) : SameRun false ts (us ++ vs) := by
  generalize hright : us ++ v :: vs = right at h
  generalize hmode : false = branches at h
  induction h generalizing us with
  | nil => simp at hright
  | @cons _ t t' ts ts' head body tail _ ih =>
    obtain ⟨hself, hchildren, htail⟩ := leaves_cons.1 hleaves
    subst hmode
    cases us with
    | cons u us =>
      rw [List.cons_append] at hright
      obtain ⟨rfl, hrest⟩ := List.cons.inj hright
      exact .cons head body (ih htail hrest rfl)
    | nil =>
      obtain ⟨rfl, rfl⟩ := List.cons.inj hright
      have hk := head.kind
      generalize hkind : t.kind = k at hk hself body
      cases hv with
      | comment text hv =>
        rw [hv] at hk
        cases hk
        exact .rewrite (.comment text hkind (hself (.comment text)) ts) tail
      | emptyText trimmed hv =>
        rw [hv] at hk
        cases hk with
        | text _ trimmed => exact .rewrite (.emptyText trimmed hkind (hself (.text "" trimmed)) ts) tail
      | sequence hv hnone =>
        rw [hv] at hk
        cases hk
        rw [hnone] at body
        exact .rewrite (.sequence hkind ts) (SameRun.append body tail)
  | rewrite step _ ih => exact .rewrite step (ih (hleaves.leavesOut step) hright rfl)

/-- Elements are left out at most, and the environments differ at most in the bodies of macros. -/
def Likeness.leaving : Likeness Environment where
  node := SameNode
  rewrites := LeavesOut
  expr := Eq
  site := Eq
  macros := MacrosAlike SameNode LeavesOut
  traces := True
  sinks _ := True
  node_kind h := h.kind
  node_site h hsite := h.site hsite
  node_traced h _ htraced := h.traceLine htraced
  node_self := .self
  expr_site := expr_site_eq_of_eq
  expr_canonical := canonical_eq_of_eq
  expr_value := sameValue_of_eq
  site_self := Eq.refl
  macros_self ms := .self .self ms
  macros_alike h := h
  macros_withMacrosOf t h := h.withMacrosOf (.self .self _)
  sinks_write _ _ := trivial
  rewriting h callee s _ := by rw [h.recurseAll_eq]

/-- A result without the macros that were made callable. -/
def withoutMacros {α : Type} :
    EStateM.Result TemplateError Environment α → EStateM.Result TemplateError Environment α :=
  mapState fun env => { env with macros := {} }

theorem eq_of_inStep {env env' : Environment} (h : Likeness.leaving.InStep env env') :
    env' = { env with macros := env'.macros } := by
  cases env
  cases env'
  simp only [Environment.mk.injEq]
  exact ⟨h.sink, h.context, trivial, h.loader, h.captures, h.running trivial, h.nesting⟩

/-- Trees that run alike are processed alike. -/
theorem process_eq_of_sameRun {t t' : Tree} (h : SameRun false [t] [t']) (env : Environment) :
    withoutMacros ((Environment.process t : Action Unit) env) =
    withoutMacros ((Environment.process t' : Action Unit) env) := by
  have hdefinitions : DefinitionsAlike SameNode LeavesOut (definitions [t]) (definitions [t']) :=
    h.definitions (·.kind) (·.definitions_eq)
  have hrun := Likeness.leaving.agree_registered h trivial
    (MacrosAlike.withMacrosOf hdefinitions (.self .self env.macros))
  simp only [Environment.process]
  generalize (do registerMacros t; Environment.visit t : Action Unit) env = r at hrun
  generalize (do registerMacros t'; Environment.visit t' : Action Unit) env = r' at hrun
  cases hrun with
  | @ok _ _ s s' _ state =>
    obtain ⟨ms, rfl⟩ : ∃ ms, s' = { s with macros := ms } := ⟨_, eq_of_inStep state⟩
    simp only [flush, environment, id_eq]
    rcases s.sink.flush with ⟨outcome, sink⟩
    cases outcome <;> rfl
  | @error e e' s s' fault state =>
    obtain ⟨ms, rfl⟩ : ∃ ms, s' = { s with macros := ms } := ⟨_, eq_of_inStep state⟩
    obtain rfl := fault.eq
    dsimp only
    cases e.abandons with
    | true => rfl
    | false => rfl

end Execution

end Stencil
