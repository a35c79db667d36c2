import Stencil.Proofs.Execution.Evaluated
import Stencil.Proofs.Execution.Recursion
import Stencil.Proofs.Kinds

/-! # Two runs side by side

Running is compared construct by construct. A `Correspondence` says what each elementary step of a run
amounts to on two sides, which may keep different states and run different trees; from that follows the
same for running whole trees, whatever they nest. With the same step on both sides it is a way to prove
what every run keeps. -/

namespace Stencil

/-! ### Errors that differ in their parts -/

/-- Errors that differ at most in sites that are alike. -/
inductive TemplateError.Like (site : ErrorSite → ErrorSite → Prop) : TemplateError → TemplateError → Prop
  | parse (e : ParseError) : Like site (.parse e) (.parse e)
  | undefinedVariable (name : String) {s s' : ErrorSite} (h : site s s') :
    Like site (.undefinedVariable name s) (.undefinedVariable name s')
  | type (fault : TypeFault) {s s' : ErrorSite} (h : site s s') : Like site (.type fault s) (.type fault s')
  | undefinedMacro (name : String) {s s' : ErrorSite} (h : site s s') :
    Like site (.undefinedMacro name s) (.undefinedMacro name s')
  | eval (e : ParseError) {s s' : ErrorSite} (h : site s s') : Like site (.eval e s) (.eval e s')
  | tooDeep (limit : Nat) {s s' : ErrorSite} (h : site s s') :
    Like site (.tooDeep limit s) (.tooDeep limit s')
  | inclusion (fault : IncludeFault) {s s' : Option ErrorSite} (h : Option.Rel site s s') :
    Like site (.inclusion fault s) (.inclusion fault s')
  | data (e : ValueError) : Like site (.data e) (.data e)
  | io (fault : IoFault) : Like site (.io fault) (.io fault)
  | extension (text : String) : Like site (.extension text) (.extension text)

namespace TemplateError

variable {site : ErrorSite → ErrorSite → Prop}

theorem Like.self (h : ∀ s, site s s) (e : TemplateError) :
    e.Like site e := by
  cases e with
  | inclusion fault s =>
    cases s with
    | none => exact .inclusion fault .none
    | some s => exact .inclusion fault (.some (h s))
  | parse e => exact .parse e
  | data e => exact .data e
  | io fault => exact .io fault
  | extension text => exact .extension text
  | undefinedVariable name s => exact .undefinedVariable name (h s)
  | type fault s => exact .type fault (h s)
  | undefinedMacro name s => exact .undefinedMacro name (h s)
  | eval e s => exact .eval e (h s)
  | tooDeep limit s => exact .tooDeep limit (h s)

theorem Like.abandons {e e' : TemplateError}
    (h : e.Like site e') : e'.abandons = e.abandons := by
  cases h <;> rfl

theorem Like.eq {e e' : TemplateError} (h : e.Like Eq e') : e = e' := by
  cases h with
  | inclusion fault hs =>
    cases hs with
    | none => rfl
    | some hs => rw [hs]
  | parse | data | io | extension => rfl
  | undefinedVariable _ hs | type _ hs | undefinedMacro _ hs | eval _ hs | tooDeep _ hs => rw [hs]

/-- Placing errors about an inclusion at elements whose sites are alike. -/
theorem Like.locatedAt {e e' : TemplateError} (h : e.Like site e') {t t' : Tree}
    (hsite : site (.ofTree t) (.ofTree t')) : (e.locatedAt t).Like site (e'.locatedAt t') := by
  cases h with
  | inclusion fault hs =>
    cases hs with
    | none => exact .inclusion fault (.some hsite)
    | some hs => exact .inclusion fault (.some hs)
  | parse e => exact .parse e
  | data e => exact .data e
  | io fault => exact .io fault
  | extension text => exact .extension text
  | undefinedVariable name hs => exact .undefinedVariable name hs
  | type fault hs => exact .type fault hs
  | undefinedMacro name hs => exact .undefinedMacro name hs
  | eval e hs => exact .eval e hs
  | tooDeep limit hs => exact .tooDeep limit hs

/-- Elements with the same site place errors alike. -/
theorem locatedAt_congr {t t' : Tree} (h : ErrorSite.ofTree t = .ofTree t') : locatedAt t' = locatedAt t := by
  funext e
  exact ((Like.self (fun _ => rfl) e).locatedAt h.symm).eq

end TemplateError

namespace Execution

open Stencil.Action Recorder

/-! ### Correspondences -/

/-- Bodies that run alike: element by element when the elements are, wherever on the left some elements
may be taken for others first. The branches of an if block are never rewritten. -/
inductive Alike (node : Tree → Tree → Prop) (rewrites : List Tree → List Tree → Prop) :
    (branches : Bool) → List Tree → List Tree → Prop
  | nil {branches : Bool} : Alike node rewrites branches [] []
  | cons {branches : Bool} {t t' : Tree} {ts ts' : List Tree} (head : node t t')
    (body : Alike node rewrites t.kind.isIfBlock t.children t'.children)
    (tail : Alike node rewrites branches ts ts') : Alike node rewrites branches (t :: ts) (t' :: ts')
  | rewrite {ts us ts' : List Tree} (step : rewrites ts us) (rest : Alike node rewrites false us ts') :
    Alike node rewrites false ts ts'

/-- Bodies run like themselves. -/
theorem Alike.self {node : Tree → Tree → Prop} {rewrites : List Tree → List Tree → Prop} (h : ∀ t, node t t)
    (branches : Bool) (ts : List Tree) : Alike node rewrites branches ts ts := by
  induction ts using Tree.forest_induction generalizing branches with
  | nil => exact .nil
  | cons t ts ihBody ihTail => exact .cons (h t) (ihBody _) (ihTail branches)

/-- Macros that are called in the same way and have comparable bodies. -/
structure Callable (bodies : List Tree → List Tree → Prop) (d d' : Tree) : Prop where
  kind (name : String) (parameters : List String) :
    d.kind = .definition name parameters ↔ d'.kind = .definition name parameters
  bodies : bodies d.children d'.children

/-- Any results will do. -/
abbrev Whatever : Unit → Unit → Prop := fun _ _ => True

/-- How running on one side compares with running on the other: which elements, expressions and sites
stand for each other, and which steps are comparable, with a relation between their results. -/
structure Correspondence (σ τ : Type) [Recorder σ] [Recorder τ] where
  node : Tree → Tree → Prop
  rewrites : List Tree → List Tree → Prop
  expr : Expr → Expr → Prop
  site : ErrorSite → ErrorSite → Prop
  /-- What is known of all values. -/
  value : Value → Prop
  relates : {α β : Type} → (α → β → Prop) → Run σ α → Run τ β → Prop
  node_kind {t t' : Tree} : node t t' → t.kind.Like expr t'.kind
  node_site {t t' : Tree} : node t t' → t.kind.isSite → site (.ofTree t) (.ofTree t')
  expr_site {e e' : Expr} : expr e e' → site (.ofExpr e) (.ofExpr e')
  expr_canonical {e e' : Expr} : expr e e' → e.canonical = e'.canonical
  value_inherited : Value.Inherited value
  pure {α β : Type} {V : α → β → Prop} {x : α} {x' : β} : V x x' → relates V (pure x) (pure x')
  bind {α α' β β' : Type} {V : α → α' → Prop} {W : β → β' → Prop} {act : Run σ α} {act' : Run τ α'}
    {f : α → Run σ β} {f' : α' → Run τ β'} : relates V act act' →
    (∀ x x', V x x' → relates W (f x) (f' x')) → relates W (act >>= f) (act' >>= f')
  raise {α β : Type} {V : α → β → Prop} {e e' : TemplateError} : e.Like site e' →
    relates V (throw e) (throw e')
  evaluate {e e' : Expr} : expr e e' → relates (fun v v' => v = v' ∧ value v) (evaluate e) (evaluate e')
  write (text : String) : relates Whatever (write text) (write text)
  setGlobal (name : String) {v : Value} : value v →
    relates Whatever (modifyContext (·.setGlobal name v)) (modifyContext (·.setGlobal name v))
  /-- What goes by a name is a macro of the same form on both sides, or on neither. -/
  macros : relates (fun env env' => ∀ name, Option.Rel (Callable (Alike node rewrites false))
    (env.macros.get? name) (env'.macros.get? name)) current current
  inScope {bindings : Bindings Value} (isolated : Bool) {body : Run σ Unit} {body' : Run τ Unit} :
    bindings.All value →
    relates Whatever body body' → relates Whatever (do pushScope bindings isolated; closing .scope body)
      (do pushScope bindings isolated; closing .scope body')
  inLevel {t t' : Tree} {act : Run σ Unit} {act' : Run τ Unit} : site (.ofTree t) (.ofTree t') →
    relates Whatever act act' →
    relates Whatever (do enter t; closing .level act) (do enter t'; closing .level act')
  inCapture {body : Run σ Unit} {body' : Run τ Unit} : relates Whatever body body' →
    relates Eq (do beginCapture; closing .capture do body; return (← current).captures.head?.getD "")
      (do beginCapture; closing .capture do body'; return (← current).captures.head?.getD "")
  inInclusion {t t' : Tree} {callee : Tree → List Tree → Run σ Unit}
    {callee' : Tree → List Tree → Run τ Unit} (name : String) : site (.ofTree t) (.ofTree t') →
    (∀ u u', Alike node rewrites false [u] [u'] → relates Whatever (callee t [u]) (callee' t' [u'])) →
    relates Whatever (mapError (·.locatedAt t) (includeTemplate callee t name))
      (mapError (·.locatedAt t') (includeTemplate callee' t' name))
  listed {t t' : Tree} {α β : Type} {V : α → β → Prop} {act : Run σ α} {act' : Run τ β} : node t t' →
    relates V act act' → relates V (do beginElement t; let x ← telling t act; endElement t; return x)
      (do beginElement t'; let x ← telling t' act'; endElement t'; return x)
  /-- What the elements taken for others amount to, those others amount to. -/
  rewriting {ts us : List Tree} {callee : Tree → List Tree → Run σ Unit} {act' : Run τ Unit} :
    rewrites ts us → relates Whatever (recurseAll callee us) act' →
    relates Whatever (recurseAll callee ts) act'

/-! ### The same elements on both sides -/

theorem kind_like_of_eq {t t' : Tree} (h : t = t') : t.kind.Like Eq t'.kind := h ▸ .self (fun _ => rfl) _

theorem site_eq_of_eq {t t' : Tree} (h : t = t') (_ : t.kind.isSite) :
    ErrorSite.ofTree t = .ofTree t' := congrArg _ h

theorem expr_site_eq_of_eq {e e' : Expr} (h : e = e') : ErrorSite.ofExpr e = .ofExpr e' := congrArg _ h

theorem canonical_eq_of_eq {e e' : Expr} (h : e = e') : e.canonical = e'.canonical := congrArg _ h

namespace Correspondence

variable {σ τ : Type} [Recorder σ] [Recorder τ] (C : Correspondence σ τ)

/-- Bodies that run alike. -/
abbrev Bodies (ts ts' : List Tree) : Prop := Alike C.node C.rewrites false ts ts'

/-- What running bodies elsewhere amounts to on the two sides. -/
def Calls (callee : Tree → List Tree → Run σ Unit) (callee' : Tree → List Tree → Run τ Unit) : Prop :=
  ∀ t t' us us', C.site (.ofTree t) (.ofTree t') → C.Bodies us us' →
    C.relates Whatever (callee t us) (callee' t' us')

/-- Running the children of two elements compares. -/
def Together (callee : Tree → List Tree → Run σ Unit) (callee' : Tree → List Tree → Run τ Unit)
    (ts ts' : List Tree) : Prop :=
  C.relates Whatever (recurseAll callee ts) (recurseAll callee' ts')

/-- The same branch is taken, and running it compares. -/
def Branching (callee : Tree → List Tree → Run σ Unit) (callee' : Tree → List Tree → Run τ Unit)
    (ts ts' : List Tree) : Prop :=
  C.relates (Option.Rel fun b b' => C.Together callee callee' b.1.children b'.1.children)
    (takenBranch ts) (takenBranch ts')

theorem relates_isTaken {c c' : Option Expr} (h : Option.Rel C.expr c c') :
    C.relates Eq (isTaken c) (isTaken c') := by
  cases h with
  | none => exact C.pure rfl
  | some h =>
    refine C.bind (C.evaluate h) ?_
    rintro v _ ⟨rfl, -⟩
    exact C.pure rfl

section
variable {callee : Tree → List Tree → Run σ Unit} {callee' : Tree → List Tree → Run τ Unit}

theorem branching_cons {t t' : Tree} {ts ts' : List Tree} (ht : C.node t t')
    (hbody : C.Together callee callee' t.children t'.children) (hts : C.Branching callee callee' ts ts') :
    C.Branching callee callee' (t :: ts) (t' :: ts') := by
  have later : C.relates (Option.Rel fun b b' => C.Together callee callee' b.1.children b'.1.children)
      (do return (← takenBranch ts).map fun b => (⟨b.1, List.mem_cons_of_mem t b.2⟩ : { b // b ∈ t :: ts }))
      (do return (← takenBranch ts').map fun b =>
        (⟨b.1, List.mem_cons_of_mem t' b.2⟩ : { b // b ∈ t' :: ts' })) := by
    refine C.bind hts ?_
    rintro _ _ (hb | _)
    · exact C.pure (.some hb)
    · exact C.pure .none
  have hk := C.node_kind ht
  generalize hkind : t.kind = k at hk
  generalize hkind' : t'.kind = k' at hk
  simp only [Branching, takenBranch, hkind, hkind']
  cases hk with
  | conditional branch hc =>
    refine C.bind (C.relates_isTaken hc) ?_
    rintro taken _ rfl
    cases taken with
    | true => exact C.pure (.some hbody)
    | false => exact later
  | _ => exact later

end

theorem relates_interpolate {t t' : Tree} {e e' : Expr} (hsite : C.site (.ofTree t) (.ofTree t'))
    (he : C.expr e e') :
    C.relates Whatever (interpolate t e) (interpolate t' e') := by
  refine C.bind (C.evaluate he) ?_
  rintro v _ ⟨rfl, -⟩
  split
  · rw [C.expr_canonical he]
    exact C.raise (.type _ (hsite))
  · split
    · exact C.write _
    · exact C.raise (.type _ (hsite))

theorem all_loopBindings (item : String) {v : Value} (hv : C.value v) {index : Nat}
    (hindex : C.value (.integer index)) (hasNext : Bool) : (loopBindings item v index hasNext).All C.value :=
  ((Bindings.all_empty.insert _ hv).insert _ hindex).insert _ (C.value_inherited.boolean hasNext)

theorem relates_runItems {body : Run σ Unit} {body' : Run τ Unit} (hbody : C.relates Whatever body body')
    (item : String) (index : Nat) {vs : List Value} (hvs : ∀ v ∈ vs, C.value v)
    (hindices : ∀ i < index + vs.length, C.value (.integer i)) :
    C.relates Whatever (runItems body item index vs) (runItems body' item index vs) := by
  induction vs generalizing index with
  | nil => exact C.pure trivial
  | cons v vs ih =>
    obtain ⟨hv, hvs⟩ := List.forall_mem_cons.1 hvs
    rw [List.length_cons] at hindices
    have hbindings := C.all_loopBindings item hv (hindices index (by omega)) !vs.isEmpty
    have hrest := ih (index + 1) hvs fun i hi => hindices i (by omega)
    have hitem := C.bind (C.inScope false hbindings hbody) fun _ _ _ => hrest
    rw [bind_assoc, bind_assoc] at hitem
    exact hitem

theorem relates_runList {body : Run σ Unit} {body' : Run τ Unit} (hbody : C.relates Whatever body body')
    {e e' : Expr} (he : C.expr e e') (item : String) :
    C.relates Whatever (runList body e item) (runList body' e' item) := by
  refine C.bind (C.evaluate he) ?_
  rintro v _ ⟨rfl, hv⟩
  split
  · refine C.relates_runItems hbody item 0 (fun _ => C.value_inherited.item hv) fun i hi => ?_
    rw [Nat.zero_add] at hi
    exact C.value_inherited.index hv hi
  · exact C.raise (.type _ (C.expr_site he))

theorem relates_runCapture {body : Run σ Unit} {body' : Run τ Unit} (hbody : C.relates Whatever body body')
    (target : String) : C.relates Whatever (runCapture body target) (runCapture body' target) := by
  have hset : ∀ captured captured' : String, captured = captured' →
      C.relates Whatever (modifyContext (·.setGlobal target (.string captured)))
        (modifyContext (·.setGlobal target (.string captured'))) := by
    rintro captured _ rfl
    exact C.setGlobal target (C.value_inherited.string captured)
  have h := C.bind (C.inCapture hbody) hset
  rw [bind_assoc, bind_assoc] at h
  exact h

theorem relates_bindParameters (ps : List String) {es es' : List Expr} (h : List.Forall₂ C.expr es es')
    {bindings : Bindings Value} (hbindings : bindings.All C.value) :
    C.relates (fun b b' => b = b' ∧ b.All C.value) (bindParameters ps es bindings)
      (bindParameters ps es' bindings) := by
  induction ps generalizing es es' bindings with
  | nil => exact C.pure ⟨rfl, hbindings⟩
  | cons p ps ih =>
    cases h with
    | nil => exact ih .nil (hbindings.insert p C.value_inherited.null)
    | cons he hes =>
      refine C.bind (C.evaluate he) ?_
      rintro v _ ⟨rfl, hv⟩
      exact ih hes (hbindings.insert p hv)

variable {callee : Tree → List Tree → Run σ Unit} {callee' : Tree → List Tree → Run τ Unit}

theorem relates_callMacro (hcallee : C.Calls callee callee') {t t' : Tree}
    (hsite : C.site (.ofTree t) (.ofTree t')) (name : String)
    {es es' : List Expr} (hes : List.Forall₂ C.expr es es') :
    C.relates Whatever (callMacro callee t name es) (callMacro callee' t' name es') := by
  refine C.bind C.macros ?_
  intro env env' hmacros
  have hmacro := hmacros name
  generalize env.macros.get? name = found at hmacro
  generalize env'.macros.get? name = found' at hmacro
  cases hmacro with
  | none => exact C.raise (.undefinedMacro name (hsite))
  | @some d d' hd =>
    have notMacro : C.relates Whatever (throw (.type (.notMacro name) (.ofTree t)) : Run σ Unit)
        (throw (.type (.notMacro name) (.ofTree t')) : Run τ Unit) := C.raise (.type _ (hsite))
    by_cases hdef : ∃ n ps, d.kind = .definition n ps
    · obtain ⟨n, ps, hkind⟩ := hdef
      have hkind' := (hd.kind n ps).1 hkind
      simp only [hkind, hkind', ← hes.length_eq]
      split
      · exact C.raise (.type _ (hsite))
      · refine C.bind (C.relates_bindParameters ps hes Bindings.all_empty) ?_
        rintro bindings _ ⟨rfl, hbindings⟩
        exact C.inLevel hsite (C.inScope true hbindings (hcallee t t' _ _ hsite hd.bodies))
    · have hdef' : ¬ ∃ n ps, d'.kind = .definition n ps := by
        rintro ⟨n, ps, hkind'⟩
        exact hdef ⟨n, ps, (hd.kind n ps).2 hkind'⟩
      dsimp only
      split
      · next n ps hkind => exact absurd ⟨n, ps, hkind⟩ hdef
      · split
        · next n ps hkind' => exact absurd ⟨n, ps, hkind'⟩ hdef'
        · exact notMacro

theorem relates_runInclusion (hcallee : C.Calls callee callee') {t t' : Tree}
    (hsite : C.site (.ofTree t) (.ofTree t')) {e e' : Expr} (he : C.expr e e') :
    C.relates Whatever (runInclusion callee t e) (runInclusion callee' t' e') := by
  refine C.bind (C.evaluate he) ?_
  rintro v _ ⟨rfl, -⟩
  split
  · exact C.inLevel hsite (C.inInclusion _ hsite fun u u' hu => hcallee t t' [u] [u'] hsite hu)
  · exact C.raise (.type _ (C.expr_site he))

/-- What two elements hand back runs alike. -/
def Handing (callee : Tree → List Tree → Run σ Unit) (callee' : Tree → List Tree → Run τ Unit) {t t' : Tree} :
    Handed t → Handed t' → Prop :=
  Option.Rel fun body body' => C.Together callee callee' body.1 body'.1

/-- An element's own action, given what running its children and bodies elsewhere amounts to. -/
theorem relates_perform (hcallee : C.Calls callee callee') {t t' : Tree} (ht : C.node t t')
    (hbody : C.Together callee callee' t.children t'.children)
    (hbranches : t.kind = .ifBlock → C.Branching callee callee' t.children t'.children) :
    C.relates (C.Handing callee callee') (perform callee (recurseAll callee t.children) t)
      (perform callee' (recurseAll callee' t'.children) t') := by
  have ownBody : C.Handing callee callee' (ownBody t) (ownBody t') := .some hbody
  have nothing : C.Handing callee callee' (none : Handed t) (none : Handed t') := .none
  have thenNothing : ∀ {act : Run σ Unit} {act' : Run τ Unit}, C.relates Whatever act act' →
      C.relates (C.Handing callee callee') (do act; return (none : Handed t))
        (do act'; return (none : Handed t')) :=
    fun h => C.bind h fun _ _ _ => C.pure nothing
  have hk := C.node_kind ht
  have hsite := C.node_site ht
  generalize hkind : t.kind = k at hk hsite hbranches
  generalize hkind' : t'.kind = k' at hk
  simp only [perform, hkind, hkind']
  cases hk with
  | sequence => exact C.pure ownBody
  | text text => exact thenNothing (C.write text)
  | interpolation he => exact thenNothing (C.relates_interpolate (hsite rfl) he)
  | ifBlock =>
    refine C.bind (hbranches rfl) ?_
    rintro _ _ (hb | _)
    · exact C.pure (.some hb)
    · exact C.pure nothing
  | conditional _ hc =>
    refine C.bind (C.relates_isTaken hc) ?_
    rintro taken _ rfl
    cases taken with
    | true => exact C.pure ownBody
    | false => exact C.pure nothing
  | list item he => exact thenNothing (C.relates_runList hbody he item)
  | assignment target he =>
    refine C.bind (C.evaluate he) ?_
    rintro v _ ⟨rfl, hv⟩
    exact thenNothing (C.setGlobal target hv)
  | capture target => exact thenNothing (C.relates_runCapture hbody target)
  | definition => exact C.pure nothing
  | call name hes => exact thenNothing (C.relates_callMacro hcallee (hsite rfl) name hes)
  | inclusion he => exact thenNothing (C.relates_runInclusion hcallee (hsite rfl) he)
  | comment => exact C.pure nothing

/-- An element with everything it hands back. -/
theorem relates_recurse (hcallee : C.Calls callee callee') {t t' : Tree} (ht : C.node t t')
    (hbody : C.Together callee callee' t.children t'.children)
    (hbranches : t.kind = .ifBlock → C.Branching callee callee' t.children t'.children) :
    C.relates Whatever (recurse callee t) (recurse callee' t') := by
  rw [recurse_eq, recurse_eq]
  refine C.bind (C.listed ht (C.relates_perform hcallee ht hbody hbranches)) ?_
  rintro _ _ (hhanded | _)
  · exact hhanded
  · exact C.pure trivial

/-- Running bodies that are alike compares, given what running bodies elsewhere amounts to. Of the
branches of an if block the same is known for choosing one. -/
theorem relates_recurseAll (hcallee : C.Calls callee callee') {branches : Bool} {ts ts' : List Tree}
    (h : Alike C.node C.rewrites branches ts ts') :
    C.Together callee callee' ts ts' ∧ (branches = true → C.Branching callee callee' ts ts') := by
  induction h with
  | nil =>
    refine ⟨?_, fun _ => C.pure .none⟩
    rw [Together, recurseAll_nil, recurseAll_nil]
    exact C.pure trivial
  | @cons branches t t' ts ts' head _ _ ihBody ihTail =>
    refine ⟨?_, fun hb => C.branching_cons head ihBody.1 (ihTail.2 hb)⟩
    rw [Together, recurseAll_cons, recurseAll_cons]
    refine C.bind (C.relates_recurse hcallee head ihBody.1 ?_) fun _ _ _ => ihTail.1
    intro hkind
    exact ihBody.2 (by rw [hkind, Kind.isIfBlock])
  | rewrite step _ ih => exact ⟨C.rewriting step ih.1, fun h => absurd h (by simp)⟩

/-- Running bodies that are alike compares, whatever they nest. -/
theorem relates_recurseWithin (levels : Nat) {ts ts' : List Tree} (h : C.Bodies ts ts') :
    C.relates Whatever (recurseWithin levels ts) (recurseWithin levels ts') := by
  induction levels generalizing ts ts' with
  | zero =>
    refine (C.relates_recurseAll ?_ h).1
    intro t t' _ _ hsite _
    exact C.raise (.tooDeep _ hsite)
  | succ levels ih =>
    refine (C.relates_recurseAll ?_ h).1
    intro _ _ _ _ _ hbodies
    exact ih hbodies

end Correspondence

end Execution

end Stencil
