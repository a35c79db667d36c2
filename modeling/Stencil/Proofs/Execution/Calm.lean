import Stencil.Proofs.Execution.History
import Stencil.Proofs.Execution.Raised

/-! # Calm actions

Most of what an element does itself is calm: it finds values, sets variables and writes texts, and a history
shows nothing of it. A discipline that calm actions keep, and actions one after the other, is kept wherever
the bodies that are run keep it. -/

namespace Stencil

/-- Only calls and inclusions run a body from elsewhere. -/
theorem Kind.elsewhere_or_ne (kind : Kind) :
    (∃ name arguments, kind = .call name arguments) ∨ (∃ path, kind = .inclusion path) ∨
    (∀ name arguments, kind ≠ .call name arguments) ∧ ∀ path, kind ≠ .inclusion path := by
  cases kind with
  | call name arguments => exact .inl ⟨name, arguments, rfl⟩
  | inclusion path => exact .inr (.inl ⟨path, rfl⟩)
  | _ => exact .inr (.inr ⟨fun _ _ => Kind.noConfusion, fun _ => Kind.noConfusion⟩)

namespace Execution

open Stencil.Action Recorder Stencil.TemplateError

/-! ### Quiet actions -/

/-- Nothing has happened from one state to another that a history or a trace shows, and
nothing was opened or closed. -/
structure Still (h h' : History) : Prop where
  moments : h'.moments = h.moments
  nesting : h'.environment.nesting = h.environment.nesting
  loader : h'.environment.loader = h.environment.loader
  running : h'.environment.running = h.environment.running

theorem Still.self (h : History) : Still h h := ⟨rfl, rfl, rfl, rfl⟩

theorem Still.trans {h h' h'' : History} (first : Still h h') (second : Still h' h'') : Still h h'' :=
  ⟨second.moments.trans first.moments, second.nesting.trans first.nesting, second.loader.trans first.loader,
    second.running.trans first.running⟩

/-- A result of an action in which nothing happens but that values are found, variables
set and texts written. -/
inductive Stays {α : Type} (h : History) : EStateM.Result TemplateError History α → Prop
  | ok {x : α} {h' : History} (still : Still h h') : Stays h (.ok x h')
  | error {e : TemplateError} {h' : History} (still : Still h h') (plain : e.Plain) : Stays h (.error e h')

/-- An action with such results. -/
def Quiet {α : Type} (act : Run History α) : Prop := ∀ h, Stays h (act h)

/-- A result of a quiet action after which the same macros can be called, and whose error does
not say that one cannot. -/
inductive Abides {α : Type} (h : History) : EStateM.Result TemplateError History α → Prop
  | ok {x : α} {h' : History} (still : Still h h') (macros : h'.environment.macros = h.environment.macros) :
    Abides h (.ok x h')
  | error {e : TemplateError} {h' : History} (still : Still h h')
    (macros : h'.environment.macros = h.environment.macros)
    (harmless : e.Harmless) : Abides h (.error e h')

/-- An action with such results. -/
def Calm {α : Type} (act : Run History α) : Prop := ∀ h, Abides h (act h)

section
variable {α β : Type}

theorem Calm.quiet {act : Run History α} (hact : Calm act) : Quiet act := by
  intro h
  have hresult := hact h
  generalize act h = r at hresult
  cases hresult with
  | ok still => exact .ok still
  | error still _ harmless => exact .error still harmless.toPlain

theorem calm_pure (x : α) : Calm (pure x : Run History α) := fun h => .ok (.self h) rfl

theorem calm_throw {e : TemplateError} (he : e.Harmless) : Calm (throw e : Run History α) :=
  fun h => .error (.self h) rfl he

theorem calm_current : Calm (current : Run History Environment) := fun h => .ok (.self h) rfl

theorem calm_modifyContext (f : Context → Context) : Calm (modifyContext f : Run History Unit) :=
  fun _ => .ok ⟨rfl, rfl, rfl, rfl⟩ rfl

theorem calm_beginCapture : Calm (beginCapture : Run History Unit) := fun _ => .ok ⟨rfl, rfl, rfl, rfl⟩ rfl

theorem calm_bind {act : Run History α} {f : α → Run History β} (hact : Calm act) (hf : ∀ x, Calm (f x)) :
    Calm (act >>= f) := by
  intro h
  have hfirst := hact h
  simp only [Bind.bind, EStateM.bind]
  generalize act h = r at hfirst
  cases hfirst with
  | error still macros harmless => exact .error still macros harmless
  | @ok x h' still macros =>
    have hrest := hf x h'
    dsimp only
    generalize f x h' = r at hrest
    cases hrest with
    | ok still' macros' => exact .ok (still.trans still') (macros'.trans macros)
    | error still' macros' harmless => exact .error (still.trans still') (macros'.trans macros) harmless

theorem calm_write (text : String) : Calm (write text : Run History Unit) := by
  intro h
  unfold write
  dsimp only
  split
  · exact .ok ⟨rfl, rfl, rfl, rfl⟩ rfl
  · split
    · exact .ok ⟨rfl, rfl, rfl, rfl⟩ rfl
    · exact .error ⟨rfl, rfl, rfl, rfl⟩ rfl (harmless_io _)

theorem calm_evaluate (e : Expr) : Calm (evaluate e : Run History Value) := by
  intro h
  unfold evaluate observe
  split
  · exact .ok (.self h) rfl
  · next he => exact .error (.self h) rfl (Expr.harmless_evaluateWithin _ e he)

theorem calm_interpolate (t : Tree) (e : Expr) : Calm (interpolate t e : Run History Unit) := by
  refine calm_bind (calm_evaluate e) fun v => ?_
  split
  · exact calm_throw (harmless_of_site rfl rfl rfl rfl)
  · split
    · exact calm_write _
    · exact calm_throw (harmless_of_site rfl rfl rfl rfl)

theorem calm_isTaken (c : Option Expr) : Calm (isTaken c : Run History Bool) := by
  cases c with
  | none => exact calm_pure _
  | some c => exact calm_bind (calm_evaluate c) fun _ => calm_pure _

theorem calm_takenBranch (ts : List Tree) : Calm (takenBranch ts : Run History _) := by
  induction ts with
  | nil => exact calm_pure _
  | cons t ts ih =>
    have later := calm_bind ih fun found => calm_pure (found.map fun b =>
      (⟨b.1, List.mem_cons_of_mem _ b.2⟩ : { b : Tree // b ∈ t :: ts }))
    unfold takenBranch
    split
    · refine calm_bind (calm_isTaken _) fun taken => ?_
      split
      · exact calm_pure _
      · exact later
    · exact later

theorem calm_bindParameters (ps : List String) (es : List Expr) (bindings : Bindings Value) :
    Calm (bindParameters ps es bindings : Run History _) := by
  induction ps generalizing es bindings with
  | nil => exact calm_pure _
  | cons p ps ih =>
    cases es with
    | nil => exact ih [] _
    | cons e es => exact calm_bind (calm_evaluate e) fun _ => ih es _

/-- An element that is not listed does nothing but calm things itself. -/
theorem calm_perform (callee : Tree → List Tree → Run History Unit) (body : Run History Unit) {t : Tree}
    (hlisted : t.kind.isTraced = false) : Calm (perform callee body t) := by
  cases hkind : t.kind with
  | sequence | definition | comment =>
    simp only [perform, hkind]
    exact calm_pure _
  | text text trimmed =>
    simp only [perform, hkind]
    exact calm_bind (calm_write text) fun _ => calm_pure _
  | interpolation e =>
    simp only [perform, hkind]
    exact calm_bind (calm_interpolate t e) fun _ => calm_pure _
  | ifBlock =>
    simp only [perform, hkind]
    refine calm_bind (calm_takenBranch t.children) fun found => ?_
    cases found <;> exact calm_pure _
  | conditional branch condition =>
    simp only [perform, hkind]
    refine calm_bind (calm_isTaken condition) fun taken => ?_
    cases taken <;> exact calm_pure _
  | assignment target value =>
    simp only [perform, hkind]
    exact calm_bind (calm_evaluate value) fun v => calm_bind (calm_modifyContext _) fun _ => calm_pure _
  | list | capture | call | inclusion =>
    rw [hkind] at hlisted
    cases hlisted

theorem quiet_pure (x : α) : Quiet (pure x : Run History α) := (calm_pure x).quiet

theorem quiet_throw {e : TemplateError} (he : e.Plain) : Quiet (throw e : Run History α) :=
  fun h => .error (.self h) he

theorem quiet_current : Quiet (current : Run History Environment) := calm_current.quiet

theorem quiet_modifyContext (f : Context → Context) : Quiet (modifyContext f : Run History Unit) :=
  (calm_modifyContext f).quiet

theorem quiet_pushScope (bindings : Bindings Value) (isolated : Bool) :
    Quiet (pushScope bindings isolated : Run History Unit) :=
  quiet_modifyContext _

theorem quiet_registerMacros (t : Tree) : Quiet (registerMacros t : Run History Unit) :=
  fun _ => .ok ⟨rfl, rfl, rfl, rfl⟩

theorem quiet_evaluate (e : Expr) : Quiet (evaluate e : Run History Value) := (calm_evaluate e).quiet

theorem quiet_bindParameters (ps : List String) (es : List Expr) (bindings : Bindings Value) :
    Quiet (bindParameters ps es bindings : Run History _) := (calm_bindParameters ps es bindings).quiet

end

/-! ### Disciplines -/

/-- A discipline of runs: the states that actions begin in, and the results that they may come to.
Calm actions keep it, actions one after the other keep it, and so does a body whose scope or
capture is closed after it. -/
structure Discipline where
  begins : History → Prop
  allows {α : Type} : EStateM.Result TemplateError History α → Prop
  calm {α : Type} {act : Run History α} {h : History} : Calm act → begins h → allows (act h)
  bind {α β : Type} {act : Run History α} {f : α → Run History β} {h : History} :
    allows (act h) → (∀ x h', begins h' → allows (f x h')) → allows ((act >>= f) h)
  closing {α : Type} {act : Run History α} {h : History} {e : Enclosure} :
    e = .scope ∨ e = .capture → allows (act h) → allows (Action.closing e act h)

namespace Discipline

/-- Actions that keep a discipline. -/
def Keeps (d : Discipline) {α : Type} (act : Run History α) : Prop := ∀ h, d.begins h → d.allows (act h)

section
variable {α β : Type} {d : Discipline} {callee : Tree → List Tree → Run History Unit}
  {body : Run History Unit} {t : Tree}

theorem keeps_calm {act : Run History α} (hact : Calm act) : d.Keeps act := fun _ => d.calm hact

theorem keeps_bind {act : Run History α} {f : α → Run History β} (hact : d.Keeps act)
    (hf : ∀ x, d.Keeps (f x)) :
    d.Keeps (act >>= f) := fun h hh => d.bind (hact h hh) hf

theorem keeps_closing {act : Run History α} {e : Enclosure} (he : e = .scope ∨ e = .capture)
    (hact : d.Keeps act) :
    d.Keeps (Action.closing e act) := fun h hh => d.closing he (hact h hh)

theorem keeps_runItems (hbody : d.Keeps body) (item : String) (index : Nat) (vs : List Value) :
    d.Keeps (runItems body item index vs) := by
  induction vs generalizing index with
  | nil => exact keeps_calm (calm_pure ())
  | cons v vs ih =>
    refine keeps_bind (keeps_calm (calm_modifyContext _)) fun _ => ?_
    exact keeps_bind (keeps_closing (.inl rfl) hbody) fun _ => ih (index + 1)

theorem keeps_runList (hbody : d.Keeps body) (source : Expr) (item : String) :
    d.Keeps (runList body source item) := by
  refine keeps_bind (keeps_calm (calm_evaluate source)) fun v => ?_
  split
  · exact keeps_runItems hbody item 0 _
  · exact keeps_calm (calm_throw (harmless_of_site rfl rfl rfl rfl))

theorem keeps_runCapture (hbody : d.Keeps body) (target : String) : d.Keeps (runCapture body target) := by
  refine keeps_bind (keeps_calm calm_beginCapture) fun _ => ?_
  refine keeps_bind (keeps_closing (.inr rfl) ?_) fun _ => keeps_calm (calm_modifyContext _)
  exact keeps_bind hbody fun _ => keeps_calm (calm_bind calm_current fun _ => calm_pure _)

/-- An element that runs nothing from elsewhere keeps a discipline if its body does,
where it runs that itself. -/
theorem keeps_perform (hcall : ∀ name arguments, t.kind ≠ .call name arguments)
    (hinclusion : ∀ path, t.kind ≠ .inclusion path) (hbody : t.kind.isTraced = true → d.Keeps body) :
    d.Keeps (perform callee body t) := by
  cases hkind : t.kind with
  | list source item =>
    simp only [perform, hkind]
    exact keeps_bind (keeps_runList (hbody (by rw [hkind]; rfl)) source item) fun _ =>
      keeps_calm (calm_pure _)
  | capture target =>
    simp only [perform, hkind]
    exact keeps_bind (keeps_runCapture (hbody (by rw [hkind]; rfl)) target) fun _ => keeps_calm (calm_pure _)
  | call name arguments => exact absurd hkind (hcall name arguments)
  | inclusion path => exact absurd hkind (hinclusion path)
  | _ => exact keeps_calm (calm_perform callee body (by rw [hkind]; rfl))

end

/-! ### Disciplines of elements -/

section
variable {d : Discipline} {callee : Tree → List Tree → Run History Unit} {t : Tree} {h : History}

/-- An element that is ready keeps to a discipline if its own action does, and the bodies that
it runs and hands back. -/
theorem allows_recurse (hexecute : d.Keeps (recurseAll callee t.children) →
    d.allows (execute callee (recurseAll callee t.children) t h))
    (hsmaller : ∀ ts, Tree.sizes ts < t.size → d.Keeps (recurseAll callee ts)) :
    d.allows (recurse callee t h) := by
  rw [recurse_eq]
  refine d.bind (hexecute (hsmaller _ t.sizes_children_lt)) fun handed h₁ hh₁ => ?_
  cases handed with
  | none => exact d.calm (calm_pure _) hh₁
  | some body => exact hsmaller body.1 body.2 h₁ hh₁

/-- The induction is on the size of the elements: the bodies that an element runs or
hands back are smaller. -/
theorem keeps_recurseAll (hexecute : ∀ t body, d.Keeps body → d.Keeps (execute callee body t))
    (ts : List Tree) :
    d.Keeps (recurseAll callee ts) := by
  induction ts using Tree.sizes_induction with
  | nil =>
    rw [recurseAll_nil]
    exact keeps_calm (calm_pure _)
  | cons t ts smaller ih =>
    rw [recurseAll_cons]
    exact keeps_bind (fun h hh => allows_recurse (fun hbody => hexecute t _ hbody h hh) smaller) fun _ => ih

end

end Discipline

end Execution

end Stencil
