import Stencil.Proofs.Execution.History

/-! # The states of a run

A journal keeps every environment that a run goes through. What the data has and every value hands on, each of
these environments has in its data, its globals and its local scopes. -/

namespace Stencil

/-- An environment, and all that the run has gone through so far. -/
structure Journal where
  environment : Environment
  reached : List Environment

instance : Recorder Journal where
  environment := Journal.environment
  put env j := ⟨env, j.reached ++ [env]⟩
  note _ j := j

instance : LawfulRecorder Journal := ⟨fun _ _ => rfl, fun _ _ => rfl⟩

/-- The journal of a run that begins. -/
def Journal.start (env : Environment) : Journal := ⟨env, [env]⟩

namespace Context

/-- All values in the data, the globals and the local scopes have a property. -/
structure All (V : Value → Prop) (c : Context) : Prop where
  root : c.root.All V
  globals : c.globals.All V
  scopes : ∀ s ∈ c.scopes, s.bindings.All V

variable {V : Value → Prop} {c : Context}

theorem All.imp {V' : Value → Prop} (h : c.All V) (hV : ∀ v, V v → V' v) : c.All V' where
  root e he := hV _ (h.root e he)
  globals e he := hV _ (h.globals e he)
  scopes s hs e he := hV _ (h.scopes s hs e he)

theorem All.lookup (h : c.All V) {name : String} {v : Value} (hv : c.lookup name = some v) : V v := by
  have hlocal : ∀ scopes : List Scope, (∀ s ∈ scopes, s.bindings.All V) →
      lookupLocal name scopes = some v → V v := by
    intro scopes hscopes hv
    induction scopes with
    | nil => cases hv
    | cons s outer ih =>
      obtain ⟨hs, houter⟩ := List.forall_mem_cons.1 hscopes
      unfold lookupLocal at hv
      split at hv
      · next hfound => exact hs.get? (hfound.trans hv)
      · split at hv
        · cases hv
        · exact ih houter hv
  unfold Context.lookup at hv
  split at hv
  · next hfound => exact hlocal c.scopes h.scopes (hfound.trans hv)
  · split at hv
    · next hfound => exact h.globals.get? (hfound.trans hv)
    · exact h.root.get? hv

theorem All.setGlobal (h : c.All V) (name : String) {v : Value} (hv : V v) : (c.setGlobal name v).All V :=
  { h with globals := h.globals.insert name hv }

theorem All.pushScope (h : c.All V) {bindings : Bindings Value}
    (hbindings : bindings.All V) (isolated : Bool) :
    (c.pushScope bindings isolated).All V :=
  { h with scopes := List.forall_mem_cons.2 ⟨hbindings, h.scopes⟩ }

theorem All.popScope (h : c.All V) : c.popScope.All V :=
  { h with scopes := fun s hs => h.scopes s (List.mem_of_mem_tail hs) }

end Context

namespace Execution

open Stencil.Action Recorder

/-! ### Steps -/

section
variable {V : Value → Prop} {α β : Type} {W : α → Prop} {X : β → Prop}

/-- All values in the contexts that were gone through have a property. -/
structure Sound (V : Value → Prop) (j : Journal) : Prop where
  now : j.environment.context.All V
  reached : ∀ env ∈ j.reached, env.context.All V
  listed : j.environment ∈ j.reached

/-- A result in a sound state. -/
inductive Upheld (V : Value → Prop) (W : α → Prop) : EStateM.Result TemplateError Journal α → Prop
  | ok {x : α} {j : Journal} (value : W x) (sound : Sound V j) : Upheld V W (.ok x j)
  | error (e : TemplateError) {j : Journal} (sound : Sound V j) : Upheld V W (.error e j)

/-- Actions that go from sound states to sound states. -/
def Upholds (V : Value → Prop) (W : α → Prop) (act : Run Journal α) : Prop :=
  ∀ j, Sound V j → Upheld V W (act j)

theorem Sound.put {j : Journal} (h : Sound V j) {env : Environment} (henv : env.context.All V) :
    Sound V (put env j) where
  now := henv
  reached e he := by
    rcases List.mem_append.1 he with he | he
    · exact h.reached e he
    · exact List.mem_singleton.1 he ▸ henv
  listed := List.mem_append_right _ (List.mem_singleton_self _)

theorem upholds_pure {x : α} (h : W x) : Upholds V W (pure x) := fun _ hj => .ok h hj

theorem upholds_throw (e : TemplateError) : Upholds V W (throw e) := fun _ hj => .error e hj

theorem upholds_bind {act : Run Journal α} {f : α → Run Journal β} (h : Upholds V W act)
    (hf : ∀ x, W x → Upholds V X (f x)) :
    Upholds V X (act >>= f) := by
  intro j hj
  have hact := h j hj
  simp only [bind, EStateM.bind]
  generalize act j = r at hact
  cases hact with
  | ok value sound => exact hf _ value _ sound
  | error e sound => exact .error e sound

theorem upholds_observe {f : Environment → Except TemplateError α}
    (h : ∀ env x, env.context.All V → f env = .ok x → W x) :
    Upholds V W (observe f) := by
  intro j hj
  unfold observe
  split
  · next hx => exact .ok (h _ _ hj.now hx) hj
  · exact .error _ hj

theorem upholds_change {f : Environment → Environment}
    (h : ∀ env, env.context.All V → (f env).context.All V) :
    Upholds V (fun _ => True) (change f) := fun j hj => .ok trivial (hj.put (h j.environment hj.now))

theorem upholds_modifyContext {f : Context → Context} (h : ∀ c, c.All V → (f c).All V) :
    Upholds V (fun _ => True) (modifyContext f) := upholds_change fun env henv => h env.context henv

theorem upholds_tell (e : Event) : Upholds V (fun _ => True) (tell e) := fun _ hj => .ok trivial hj

theorem upholds_closing (e : Enclosure) {act : Run Journal α} (h : Upholds V W act) :
    Upholds V W (closing e act) := by
  have hclosed : ∀ {j}, Sound V j → Sound V (closed e j) := by
    intro j hj
    refine hj.put ?_
    cases e with
    | scope => exact hj.now.popScope
    | level | capture | inclusion => exact hj.now
  intro j hj
  have hact := h j hj
  simp only [closing]
  generalize act j = r at hact
  cases hact with
  | ok value sound => exact .ok value (hclosed sound)
  | error err sound =>
    dsimp only
    split
    · exact .error err sound
    · exact .error err (hclosed sound)

theorem upholds_telling (t : Tree) {act : Run Journal α} (h : Upholds V W act) :
    Upholds V W (telling t act) := by
  intro j hj
  have hact := h j hj
  simp only [telling]
  generalize act j = r at hact
  cases hact with
  | ok value sound => exact .ok value sound
  | error err sound => exact .error err sound

theorem upholds_mapError {f : TemplateError → TemplateError} {act : Run Journal α} (h : Upholds V W act) :
    Upholds V W (mapError f act) := by
  intro j hj
  have hact := h j hj
  simp only [mapError]
  generalize act j = r at hact
  cases hact with
  | ok value sound => exact .ok value sound
  | error err sound => exact .error (f err) sound

theorem upholds_write (text : String) : Upholds V (fun _ => True) (write text) := by
  intro j hj
  simp only [write]
  split
  · exact .ok trivial (hj.put hj.now)
  · split
    · exact .ok trivial (hj.put hj.now)
    · exact .error _ (hj.put hj.now)

theorem upholds_flush : Upholds V (fun _ => True) flush := by
  intro j hj
  simp only [flush]
  split
  · exact .ok trivial (hj.put hj.now)
  · exact .error _ (hj.put hj.now)

theorem upholds_enter (t : Tree) : Upholds V (fun _ => True) (enter t) := by
  intro j hj
  simp only [enter, bind, EStateM.bind, current]
  split
  · exact .error _ hj
  · exact .ok trivial (hj.put hj.now)

theorem upholds_beginElement (t : Tree) : Upholds V (fun _ => True) (beginElement t) := by
  refine upholds_bind (upholds_tell _) fun _ _ => ?_
  split
  · exact upholds_change fun _ h => h
  · exact upholds_pure trivial

theorem upholds_endElement (t : Tree) : Upholds V (fun _ => True) (endElement t) := by
  unfold endElement
  split
  · exact upholds_bind (upholds_change fun _ h => h) fun _ _ => upholds_tell _
  · exact upholds_tell _

theorem upholds_includeTemplate {callee : Tree → List Tree → Run Journal Unit} (t : Tree) (name : String)
    (h : ∀ u, Upholds V (fun _ => True) (callee t [u])) :
    Upholds V (fun _ => True) (includeTemplate callee t name) :=
  upholds_bind (upholds_observe fun _ _ _ _ => trivial) fun template _ =>
    upholds_bind (upholds_change fun _ h => h) fun _ _ =>
      upholds_bind (upholds_change fun _ h => h) fun _ _ => upholds_closing _ (h template.tree)

theorem Upholds.weaken {W' : α → Prop} {act : Run Journal α} (h : Upholds V W act) (hW : ∀ x, W x → W' x) :
    Upholds V W' act := by
  have hbind := upholds_bind h fun x hx => upholds_pure (hW x hx)
  rwa [bind_pure] at hbind

end

/-! ### Runs -/

/-- What every value hands on, construct by construct; both sides are the same. -/
def upholding {V : Value → Prop} (hV : Value.Inherited V) : Correspondence Journal Journal where
  node := Eq
  rewrites _ _ := False
  expr := Eq
  site := Eq
  value := V
  relates W act _ := Upholds V (fun x => ∃ x', W x x') act
  node_kind := kind_like_of_eq
  node_site := site_eq_of_eq
  expr_site := expr_site_eq_of_eq
  expr_canonical := canonical_eq_of_eq
  value_inherited := hV
  pure hx := upholds_pure ⟨_, hx⟩
  bind hact hf := upholds_bind hact fun x ⟨x', hx⟩ => hf x x' hx
  raise _ := upholds_throw _
  evaluate _ := by
    refine upholds_observe fun env v henv hv => ⟨v, rfl, ?_⟩
    exact (Expr.yields_evaluateWithin hV (fun _ _ => henv.lookup) (Nat.le_refl _) _ v hv).2
  write text := (upholds_write text).weaken fun _ _ => ⟨(), trivial⟩
  setGlobal name _ hv := (upholds_modifyContext fun _ h => h.setGlobal name hv).weaken
    fun _ _ => ⟨(), trivial⟩
  macros j hj := .ok ⟨j.environment, MacrosAlike.self (fun _ => rfl) _⟩ hj
  inScope {bindings} isolated _ _ hbindings hbody := by
    have hpush : Upholds V (fun _ => True) (pushScope bindings isolated) :=
      upholds_modifyContext fun _ h => h.pushScope hbindings isolated
    exact upholds_bind hpush fun _ _ => upholds_closing .scope hbody
  inLevel _ hact := upholds_bind (upholds_enter _) fun _ _ => upholds_closing .level hact
  inCapture hbody := by
    refine upholds_bind (upholds_change fun _ h => h) fun _ _ => upholds_closing .capture ?_
    exact upholds_bind hbody fun _ _ j hj => .ok ⟨_, rfl⟩ hj
  inInclusion {t _ _ _} name _ h := by
    refine upholds_mapError ((upholds_includeTemplate t name fun u => ?_).weaken fun _ _ => ⟨(), trivial⟩)
    exact (h u u (Alike.self (fun _ => rfl) false [u])).weaken fun _ _ => trivial
  listed _ hact := upholds_bind (upholds_beginElement _) fun _ _ =>
      upholds_bind (upholds_telling _ hact) fun _ hx =>
    upholds_bind (upholds_endElement _) fun _ _ => upholds_pure hx
  rewriting h := h.elim

/-- Processing goes from sound states to sound states. -/
theorem sound_process {V : Value → Prop} (hV : Value.Inherited V) (t : Tree) {j : Journal} (hj : Sound V j) :
    Sound V (stateOf ((Environment.process t : Run Journal Unit) j)) := by
  have hvisit : Upholds V (fun _ => True) (Environment.visit t) := by
    intro j hj
    rw [Environment.visit, Environment.run_eq]
    have hrun := (upholding hV).relates_recurseWithin (maxNesting - j.environment.nesting)
      (Alike.self (fun _ => rfl) false [t])
    exact (hrun.weaken fun _ _ => trivial) j hj
  have hregister : Upholds V (fun _ => True) (registerMacros t) := upholds_change fun _ h => h
  have hrun := upholds_bind hregister (fun _ _ => hvisit) j hj
  simp only [Environment.process]
  generalize (do registerMacros t; Environment.visit t : Run Journal Unit) j = r at hrun
  cases hrun with
  | @ok _ j _ sound =>
    have hflush := upholds_flush j sound
    dsimp only
    generalize (flush : Run Journal Unit) j = r at hflush
    cases hflush with
    | ok _ sound => exact sound
    | error _ sound => exact sound
  | error e sound =>
    dsimp only
    split
    · exact sound
    · exact sound.put sound.now

end Execution

namespace Environment

open Stencil.Execution Stencil.Action

/-- The environments that processing goes through, from the given one on. -/
def reached (t : Tree) (env : Environment) : List Environment :=
  (stateOf ((process t : Run Journal Unit) (Journal.start env))).reached

variable {V : Value → Prop}

theorem sound_start {env : Environment} (henv : env.context.All V) : Sound V (Journal.start env) where
  now := henv
  reached _ he := List.mem_singleton.1 he ▸ henv
  listed := List.mem_singleton_self env

theorem all_of_mem_reached (hV : Value.Inherited V) {t : Tree} {env after : Environment}
    (henv : env.context.All V) (h : after ∈ env.reached t) : after.context.All V :=
  (sound_process hV t (sound_start henv)).reached after h

/-- Processing ends in an environment that it has gone through. -/
theorem stateOf_process_mem_reached (t : Tree) (env : Environment) :
    stateOf ((process t : Action Unit) env) ∈ env.reached t := by
  have hall : env.context.All fun _ => True :=
    ⟨fun _ _ => trivial, fun _ _ => trivial, fun _ _ _ _ => trivial⟩
  have hlisted := (sound_process Value.inherited_true t (sound_start hall)).listed
  have hown : mapState Journal.environment ((process t : Run Journal Unit) (Journal.start env)) =
      (process t : Action Unit) env :=
    mapState_process t (Journal.start env)
  rw [← hown]
  unfold reached
  generalize (process t : Run Journal Unit) (Journal.start env) = r at hlisted
  cases r with
  | ok _ j => exact hlisted
  | error e j => exact hlisted

end Environment

end Stencil
