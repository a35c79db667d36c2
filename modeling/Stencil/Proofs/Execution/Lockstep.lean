import Stencil.Proofs.Execution.Correspondence

/-! # Runs in lockstep

Two runs are in lockstep when after every step their environments are the same but for the macros, which
may have other bodies that run alike, and for the traces, which need not be compared. What may differ
between the elements they run is left open; a `Likeness` says what is allowed. -/

namespace Stencil

/-- A recorder whose records do not show in the environment. -/
class LawfulRecorder (σ : Type) [Recorder σ] : Prop where
  environment_put (env : Environment) (s : σ) : Recorder.environment (Recorder.put env s) = env
  environment_note (e : Event) (s : σ) : Recorder.environment (Recorder.note e s) = Recorder.environment s

attribute [simp] LawfulRecorder.environment_put LawfulRecorder.environment_note

instance : LawfulRecorder Environment := ⟨fun _ _ => rfl, fun _ _ => rfl⟩

namespace Execution

open Stencil.Action Recorder

/-- The macros defined anywhere in some trees, in order. -/
def definitions (ts : List Tree) : List (String × Tree) :=
  (Tree.preorders ts).filterMap fun element =>
    match element.kind with
    | .definition name _ => some (name, element)
    | _ => none

/-- Defines some macros, one after the other. -/
def insertAll (ds : List (String × Tree)) (macros : Bindings Tree) : Bindings Tree :=
  ds.foldl (fun macros d => macros.insert d.1 d.2) macros

/-- Macros of the same names that are called in the same way and have bodies that run alike. -/
def MacrosAlike (node : Tree → Tree → Prop) (rewrites : List Tree → List Tree → Prop)
    (ms ms' : Bindings Tree) : Prop :=
  ∀ name, Option.Rel (Callable (Alike node rewrites false)) (ms.get? name) (ms'.get? name)

/-- Definitions of the same names, of macros that are called in the same way and have
bodies that run alike. -/
def DefinitionsAlike (node : Tree → Tree → Prop) (rewrites : List Tree → List Tree → Prop) :
    List (String × Tree) → List (String × Tree) → Prop :=
  List.Forall₂ fun d d' => d.1 = d'.1 ∧ Callable (Alike node rewrites false) d.2 d'.2

section
variable {node : Tree → Tree → Prop} {rewrites : List Tree → List Tree → Prop}

theorem Callable.self (h : ∀ t, node t t) (d : Tree) : Callable (Alike node rewrites false) d d :=
  ⟨fun _ _ => Iff.rfl, Alike.self h false d.children⟩

theorem MacrosAlike.self (h : ∀ t, node t t) (ms : Bindings Tree) : MacrosAlike node rewrites ms ms := by
  intro name
  cases ms.get? name with
  | none => exact .none
  | some d => exact .some (Callable.self h d)

theorem DefinitionsAlike.self (h : ∀ t, node t t) (ds : List (String × Tree)) :
    DefinitionsAlike node rewrites ds ds :=
  List.forall₂_same.2 fun _ _ => ⟨rfl, Callable.self h _⟩

theorem MacrosAlike.insertAll {ds ds' : List (String × Tree)} (hds : DefinitionsAlike node rewrites ds ds')
    {ms ms' : Bindings Tree} (h : MacrosAlike node rewrites ms ms') :
    MacrosAlike node rewrites (insertAll ds ms) (insertAll ds' ms') := by
  induction hds generalizing ms ms' with
  | nil => exact h
  | @cons d d' ds ds' hd _ ih =>
    refine ih fun name => ?_
    rw [Bindings.get?_insert, Bindings.get?_insert, ← hd.1]
    split
    · exact .some hd.2
    · exact h name

end

theorem withMacrosOf_eq (t : Tree) (macros : Bindings Tree) :
    withMacrosOf t macros = insertAll (definitions [t]) macros := by
  rw [withMacrosOf, insertAll, definitions, List.foldl_filterMap, Tree.preorders,
    Tree.preorders, List.append_nil]
  congr 1
  funext macros element
  cases element.kind <;> rfl

theorem MacrosAlike.withMacrosOf {node : Tree → Tree → Prop} {rewrites : List Tree → List Tree → Prop}
    {t t' : Tree} (ht : DefinitionsAlike node rewrites (definitions [t]) (definitions [t']))
    {ms ms' : Bindings Tree} (h : MacrosAlike node rewrites ms ms') :
    MacrosAlike node rewrites (withMacrosOf t ms) (withMacrosOf t' ms') := by
  rw [withMacrosOf_eq, withMacrosOf_eq]
  exact h.insertAll ht

/-- What two results have in common: the value, or an error up to its site. -/
inductive SameValue {α : Type} (site : ErrorSite → ErrorSite → Prop) :
    Except TemplateError α → Except TemplateError α → Prop
  | ok (v : α) : SameValue site (.ok v) (.ok v)
  | error {e e' : TemplateError} (h : e.Like site e') : SameValue site (.error e) (.error e')

theorem SameValue.self {α : Type} {site : ErrorSite → ErrorSite → Prop} (h : ∀ s, site s s)
    (r : Except TemplateError α) :
    SameValue site r r := by
  cases r with
  | ok v => exact .ok v
  | error e => exact .error (.self h e)

theorem sameValue_of_eq {e e' : Expr} (h : e = e') (levels : Nat) (c : Context) :
    SameValue Eq (e.evaluateWithin levels c) (e'.evaluateWithin levels c) := h ▸ .self (fun _ => rfl) _

/-- What may differ between the elements of two runs in lockstep. -/
structure Likeness (σ : Type) [Recorder σ] where
  node : Tree → Tree → Prop
  rewrites : List Tree → List Tree → Prop
  expr : Expr → Expr → Prop
  site : ErrorSite → ErrorSite → Prop
  macros : Bindings Tree → Bindings Tree → Prop
  /-- Whether traces are compared. -/
  traces : Prop
  /-- The sinks that are written to. -/
  sinks : Sink → Prop
  node_kind {t t' : Tree} : node t t' → t.kind.Like expr t'.kind
  node_site {t t' : Tree} : node t t' → t.kind.isSite → site (.ofTree t) (.ofTree t')
  node_traced {t t' : Tree} : node t t' → traces → t.kind.isTraced → traceLine t = traceLine t'
  node_self (t : Tree) : node t t
  expr_site {e e' : Expr} : expr e e' → site (.ofExpr e) (.ofExpr e')
  expr_canonical {e e' : Expr} : expr e e' → e.canonical = e'.canonical
  expr_value {e e' : Expr} : expr e e' → ∀ levels c,
    SameValue site (e.evaluateWithin levels c) (e'.evaluateWithin levels c)
  site_self (s : ErrorSite) : site s s
  macros_self (ms : Bindings Tree) : macros ms ms
  macros_alike {ms ms' : Bindings Tree} : macros ms ms' → MacrosAlike node rewrites ms ms'
  macros_withMacrosOf {ms ms' : Bindings Tree} (t : Tree) :
    macros ms ms' → macros (withMacrosOf t ms) (withMacrosOf t ms')
  sinks_write {s : Sink} (text : String) : sinks s → sinks (s.write text).2
  rewriting {ts us : List Tree} : rewrites ts us → ∀ (callee : Tree → List Tree → Run σ Unit) (s : σ),
    sinks (environment s).sink → recurseAll callee ts s = recurseAll callee us s

namespace Likeness

variable {σ τ : Type} [Recorder σ] [Recorder τ] (L : Likeness σ)

/-- Bodies that run alike. -/
abbrev Bodies (ts ts' : List Tree) : Prop := Alike L.node L.rewrites false ts ts'

/-- Environments that differ at most in the bodies of macros, and in the traces if they are not compared. -/
structure InStep (env env' : Environment) : Prop where
  sink : env'.sink = env.sink
  context : env'.context = env.context
  loader : env'.loader = env.loader
  captures : env'.captures = env.captures
  nesting : env'.nesting = env.nesting
  macros : L.macros env.macros env'.macros
  running : L.traces → env'.running = env.running
  sinks : L.sinks env.sink

/-- Results that are both values or both errors, in states that are in step. -/
inductive Agree {α β : Type} (V : α → β → Prop) :
    EStateM.Result TemplateError σ α → EStateM.Result TemplateError τ β → Prop
  | ok {x : α} {x' : β} {s : σ} {s' : τ} (value : V x x')
    (state : L.InStep (environment s) (environment s')) :
    Agree V (.ok x s) (.ok x' s')
  | error {e e' : TemplateError} {s : σ} {s' : τ} (fault : e.Like L.site e')
    (state : L.InStep (environment s) (environment s')) : Agree V (.error e s) (.error e' s')

/-- Actions that agree from states that are in step. -/
def Lockstep {α β : Type} (V : α → β → Prop) (act : Run σ α) (act' : Run τ β) : Prop :=
  ∀ s s', L.InStep (environment s) (environment s') → L.Agree V (act s) (act' s')

/-! ### Environments in step -/

namespace InStep

variable {L} {env env' : Environment}

theorem self (hsinks : L.sinks env.sink) : L.InStep env env where
  sink := rfl
  context := rfl
  loader := rfl
  captures := rfl
  nesting := rfl
  macros := L.macros_self env.macros
  running _ := rfl
  sinks := hsinks

theorem close (h : L.InStep env env') (e : Enclosure) : L.InStep (e.close env) (e.close env') := by
  cases e with
  | level => exact { h with nesting := by simp only [Enclosure.close, h.nesting] }
  | scope => exact { h with context := by simp only [Enclosure.close, h.context] }
  | capture => exact { h with captures := by simp only [Enclosure.close, h.captures] }
  | inclusion => exact { h with loader := by simp only [Enclosure.close, h.loader] }

end InStep

/-! ### Actions in lockstep -/

section
variable {L} {α β : Type} {V : α → β → Prop}

theorem lockstep_pure {x : α} {x' : β} (h : V x x') :
    L.Lockstep V (pure x : Run σ α) (pure x' : Run τ β) := fun _ _ hs => .ok h hs

theorem lockstep_bind {α' β' : Type} {W : α' → β' → Prop} {act : Run σ α} {act' : Run τ β} {f : α → Run σ α'}
    {f' : β → Run τ β'} (h : L.Lockstep V act act') (hf : ∀ x x', V x x' → L.Lockstep W (f x) (f' x')) :
    L.Lockstep W (act >>= f) (act' >>= f') := by
  intro s s' hs
  have hact := h s s' hs
  simp only [bind, EStateM.bind]
  generalize act s = r at hact
  generalize act' s' = r' at hact
  cases hact with
  | ok hx hs => exact hf _ _ hx _ _ hs
  | error he hs => exact .error he hs

theorem lockstep_throw {e e' : TemplateError} (h : e.Like L.site e') :
    L.Lockstep V (throw e : Run σ α) (throw e' : Run τ β) := fun _ _ hs => .error h hs

theorem lockstep_current : L.Lockstep L.InStep (current : Run σ Environment) (current : Run τ Environment) :=
  fun _ _ hs => .ok hs hs

theorem lockstep_mapError {f f' : TemplateError → TemplateError}
    (hf : ∀ e e', e.Like L.site e' → (f e).Like L.site (f' e')) {act : Run σ α} {act' : Run τ β}
    (h : L.Lockstep V act act') : L.Lockstep V (mapError f act) (mapError f' act') := by
  intro s s' hs
  have hact := h s s' hs
  simp only [mapError]
  generalize act s = r at hact
  generalize act' s' = r' at hact
  cases hact with
  | ok hx hs => exact .ok hx hs
  | error he hs => exact .error (hf _ _ he) hs

theorem lockstep_observe {f : Environment → Except TemplateError α}
    (h : ∀ env env', L.InStep env env' → f env = f env') :
    L.Lockstep Eq (observe f : Run σ α) (observe f : Run τ α) := by
  intro s s' hs
  simp only [observe, h _ _ hs]
  cases f (environment s') with
  | ok x => exact .ok rfl hs
  | error e => exact .error (.self L.site_self e) hs

theorem lockstep_evaluate {e e' : Expr} (h : L.expr e e') :
    L.Lockstep Eq (evaluate e : Run σ Value) (evaluate e' : Run τ Value) := by
  intro s s' hs
  have hvalue := L.expr_value h (maxNesting - (environment s).nesting) (environment s).context
  simp only [evaluate, observe, hs.nesting, hs.context]
  generalize e.evaluateWithin _ _ = r at hvalue
  generalize e'.evaluateWithin _ _ = r' at hvalue
  cases hvalue with
  | ok v => exact .ok rfl hs
  | error he => exact .error he hs

variable [LawfulRecorder σ] [LawfulRecorder τ]

theorem lockstep_change {f f' : Environment → Environment}
    (h : ∀ env env', L.InStep env env' → L.InStep (f env) (f' env')) :
    L.Lockstep Whatever (change f : Run σ Unit) (change f' : Run τ Unit) := by
  intro s s' hs
  refine .ok trivial ?_
  simpa using h _ _ hs

theorem lockstep_modifyContext (f : Context → Context) :
    L.Lockstep Whatever (modifyContext f : Run σ Unit) (modifyContext f : Run τ Unit) := by
  refine lockstep_change fun env env' henv => ?_
  exact { henv with context := by rw [henv.context] }

theorem lockstep_tell (e e' : Event) : L.Lockstep Whatever (tell e : Run σ Unit) (tell e' : Run τ Unit) := by
  intro s s' hs
  refine .ok trivial ?_
  simpa using hs

theorem lockstep_telling (t t' : Tree) {act : Run σ α} {act' : Run τ β} (h : L.Lockstep V act act') :
    L.Lockstep V (telling t act) (telling t' act') := by
  intro s s' hs
  have hact := h s s' hs
  simp only [telling]
  generalize act s = r at hact
  generalize act' s' = r' at hact
  cases hact with
  | ok hx hs => exact .ok hx hs
  | error he hs => exact .error he (by simpa using hs)

theorem lockstep_closing (e : Enclosure) {act : Run σ α} {act' : Run τ β} (h : L.Lockstep V act act') :
    L.Lockstep V (closing e act) (closing e act') := by
  intro s s' hs
  have hact := h s s' hs
  simp only [closing]
  generalize act s = r at hact
  generalize act' s' = r' at hact
  cases hact with
  | ok hx hs => exact .ok hx (by simpa [closed] using hs.close e)
  | error he hs =>
    refine .error he ?_
    rw [he.abandons]
    split
    · exact hs
    · simpa [closed] using hs.close e

theorem lockstep_registerMacros (t : Tree) :
    L.Lockstep Whatever (registerMacros t : Run σ Unit) (registerMacros t : Run τ Unit) := by
  refine lockstep_change fun env env' henv => ?_
  exact { henv with macros := L.macros_withMacrosOf t henv.macros }

theorem lockstep_write (text : String) :
    L.Lockstep Whatever (write text : Run σ Unit) (write text : Run τ Unit) := by
  intro s s' hs
  have hcaptures' := hs.captures
  cases hcaptures : (environment s).captures with
  | cons captured outer =>
    simp only [write, hcaptures, hcaptures']
    exact .ok trivial (by simpa using { hs with captures := rfl })
  | nil =>
    have hsinks := L.sinks_write text hs.sinks
    have hwritten : L.InStep { environment s with sink := ((environment s).sink.write text).2 }
        { environment s' with sink := ((environment s).sink.write text).2 } :=
      { hs with sink := rfl, sinks := hsinks }
    simp only [write, hcaptures, hcaptures', hs.sink] at hwritten ⊢
    generalize (environment s).sink.write text = r at hwritten
    obtain ⟨outcome, sink⟩ := r
    cases outcome with
    | ok => exact .ok trivial (by simpa using hwritten)
    | error fault => exact .error (.io fault) (by simpa using hwritten)

theorem lockstep_enter {t t' : Tree} (hsite : L.site (.ofTree t) (.ofTree t')) :
    L.Lockstep Whatever (enter t : Run σ Unit) (enter t' : Run τ Unit) := by
  refine lockstep_bind lockstep_current fun env env' henv => ?_
  rw [henv.nesting]
  split
  · exact lockstep_throw (.tooDeep _ hsite)
  · refine lockstep_change fun env env' henv => ?_
    exact { henv with nesting := by rw [henv.nesting] }

theorem lockstep_beginElement {t t' : Tree} (h : L.node t t') :
    L.Lockstep Whatever (beginElement t : Run σ Unit) (beginElement t' : Run τ Unit) := by
  have htraced := (L.node_kind h).isTraced
  refine lockstep_bind (lockstep_tell _ _) fun _ _ _ => ?_
  rw [htraced]
  split
  · refine lockstep_change fun env env' henv => ?_
    exact { henv with running := fun ht => by simp [henv.running ht, L.node_traced h ht (by assumption)] }
  · exact lockstep_pure trivial

theorem lockstep_endElement {t t' : Tree} (h : L.node t t') :
    L.Lockstep Whatever (endElement t : Run σ Unit) (endElement t' : Run τ Unit) := by
  have htraced := (L.node_kind h).isTraced
  have htell : L.Lockstep Whatever (tell (.ends t) : Run σ Unit) (tell (.ends t') : Run τ Unit) :=
    lockstep_tell _ _
  rw [endElement, endElement, htraced]
  split
  · have hforget : L.Lockstep Whatever
        (change fun env => { env with running := env.running.tail } : Run σ Unit)
        (change fun env => { env with running := env.running.tail } : Run τ Unit) :=
      lockstep_change fun env env' henv => { henv with running := fun ht => by rw [henv.running ht] }
    exact lockstep_bind hforget fun _ _ _ => htell
  · exact htell

theorem lockstep_includeTemplate {t t' : Tree} {callee : Tree → List Tree → Run σ Unit}
    {callee' : Tree → List Tree → Run τ Unit} (name : String)
    (h : ∀ u, L.Lockstep Whatever (callee t [u]) (callee' t' [u])) :
    L.Lockstep Whatever (includeTemplate callee t name) (includeTemplate callee' t' name) := by
  refine lockstep_bind (lockstep_observe fun env env' henv => by rw [henv.loader]) ?_
  rintro template _ rfl
  have hregister : L.Lockstep Whatever (registerMacros template.tree : Run σ Unit)
      (registerMacros template.tree : Run τ Unit) := lockstep_registerMacros _
  have hbegin : L.Lockstep Whatever (beginInclusion name : Run σ Unit) (beginInclusion name : Run τ Unit) :=
    lockstep_change fun env env' henv => { henv with loader := by rw [henv.loader] }
  exact lockstep_bind hregister fun _ _ _ => lockstep_bind hbegin fun _ _ _ =>
    lockstep_closing .inclusion (h template.tree)

end

/-! ### The correspondence -/

variable [LawfulRecorder σ] [LawfulRecorder τ]

/-- Agreeing from states that are in step, construct by construct. -/
def correspondence : Correspondence σ τ where
  node := L.node
  rewrites := L.rewrites
  expr := L.expr
  site := L.site
  value _ := True
  relates := L.Lockstep
  node_kind := L.node_kind
  node_site := L.node_site
  expr_site := L.expr_site
  expr_canonical := L.expr_canonical
  value_inherited := Value.inherited_true
  pure := lockstep_pure
  bind := lockstep_bind
  raise := lockstep_throw
  evaluate h := by simpa only [and_true] using lockstep_evaluate h
  write := lockstep_write
  setGlobal _ _ _ := lockstep_modifyContext _
  macros := fun _ _ hs => .ok (L.macros_alike hs.macros) hs
  inScope {bindings} isolated {body body'} _ h := by
    have hpush : L.Lockstep Whatever (pushScope bindings isolated : Run σ Unit)
        (pushScope bindings isolated : Run τ Unit) :=
      lockstep_modifyContext _
    have hbody : L.Lockstep Whatever (closing .scope body) (closing .scope body') := lockstep_closing .scope h
    exact lockstep_bind hpush fun _ _ _ => hbody
  inLevel hsite h := lockstep_bind (lockstep_enter hsite) fun _ _ _ => lockstep_closing .level h
  inCapture {body body'} h := by
    have hbegin : L.Lockstep Whatever (beginCapture : Run σ Unit) (beginCapture : Run τ Unit) :=
      lockstep_change fun env env' henv => { henv with captures := by rw [henv.captures] }
    have hread : L.Lockstep Eq (do return (← current).captures.head?.getD "" : Run σ String)
        (do return (← current).captures.head?.getD "" : Run τ String) := by
      refine lockstep_bind (V := L.InStep) lockstep_current fun env env' henv => ?_
      rw [henv.captures]
      exact lockstep_pure rfl
    have hinner : L.Lockstep Eq (do body; return (← current).captures.head?.getD "" : Run σ String)
        (do body'; return (← current).captures.head?.getD "" : Run τ String) :=
          lockstep_bind h fun _ _ _ => hread
    exact lockstep_bind hbegin fun _ _ _ => lockstep_closing .capture hinner
  inInclusion name hsite h := by
    refine lockstep_mapError (fun e e' he => he.locatedAt hsite) (lockstep_includeTemplate name fun u => ?_)
    exact h u u (Alike.self L.node_self false [u])
  listed {t t' α β V act act'} h hact :=
    lockstep_bind (lockstep_beginElement h) fun _ _ _ =>
        lockstep_bind (lockstep_telling t t' hact) fun x x' hx =>
      lockstep_bind (lockstep_endElement h) fun _ _ _ => lockstep_pure hx
  rewriting {ts us callee act'} hstep h := by
    intro s s' hs
    rw [L.rewriting hstep callee s hs.sinks]
    exact h s s' hs

/-- Runs of bodies that are alike stay in lockstep. -/
theorem agree_run {ts ts' : List Tree} (h : L.Bodies ts ts') {s : σ} {s' : τ}
    (hs : L.InStep (environment s) (environment s')) :
    L.Agree Whatever (Environment.run ts s) (Environment.run ts' s') := by
  rw [Environment.run_eq, Environment.run_eq]
  simp only [hs.nesting]
  exact L.correspondence.relates_recurseWithin _ h s s' hs

/-- Two trees with their macros, in an environment that keeps no history. -/
theorem agree_registered (L : Likeness Environment) {t t' : Tree} (h : L.Bodies [t] [t']) {env : Environment}
    (hsinks : L.sinks env.sink)
    (hmacros : L.macros (withMacrosOf t env.macros) (withMacrosOf t' env.macros)) :
    L.Agree Whatever ((do registerMacros t; Environment.visit t : Action Unit) env)
      ((do registerMacros t'; Environment.visit t' : Action Unit) env) := by
  have hsame : L.InStep env env := .self hsinks
  have hstart : L.InStep { env with macros := withMacrosOf t env.macros }
      { env with macros := withMacrosOf t' env.macros } :=
    { hsame with macros := hmacros }
  have hrun := L.agree_run (σ := Environment) (τ := Environment) h hstart
  exact hrun

end Likeness

end Execution

end Stencil
