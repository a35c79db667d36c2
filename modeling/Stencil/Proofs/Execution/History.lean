import Stencil.Proofs.Execution.Lockstep

/-! # The history of a run

A history keeps every event of a run with the environment it happens in. Watching changes nothing: with
and without a history a run comes to the same. -/

namespace Stencil

/-- An event and the environment it happens in. -/
structure Moment where
  event : Event
  environment : Environment

/-- A moment at which an element fails. -/
def Moment.IsFault (m : Moment) : Prop := ∃ t e, m.event = .fails t e

/-- A moment at which an element begins. -/
def Moment.IsBegin (m : Moment) : Prop := ∃ t, m.event = .begins t

/-- What holds wherever a list can be split at one of its elements holds there, too, when an element is
added for which it holds. -/
theorem forall_splits_concat {α : Type} {P : List α → α → Prop} {l : List α} {x : α}
    (hl : ∀ before y after, l = before ++ y :: after → P before y) (hx : P l x) :
    ∀ before y after, l ++ [x] = before ++ y :: after → P before y := by
  intro before y after hsplit
  rcases List.eq_nil_or_concat after with rfl | ⟨after, last, rfl⟩
  · obtain ⟨rfl, hsame⟩ := List.append_inj' hsplit rfl
    cases hsame
    exact hx
  · rw [List.concat_eq_append, ← List.cons_append, ← List.append_assoc] at hsplit
    exact hl before y after (List.append_inj' hsplit rfl).1

/-- An environment with everything that has happened so far. -/
structure History where
  environment : Environment
  moments : List Moment := []

instance : Recorder History where
  environment := History.environment
  put env h := { h with environment := env }
  note e h := { h with moments := h.moments ++ [⟨e, h.environment⟩] }

instance : LawfulRecorder History := ⟨fun _ _ => rfl, fun _ _ => rfl⟩

namespace Execution

open Stencil.Action Recorder Stencil.TemplateError

/-! ### Results -/

/-- The state that a result leaves. -/
def stateOf {σ α : Type} : EStateM.Result TemplateError σ α → σ
  | .ok _ s => s
  | .error _ s => s

/-- Whether a result is no error. -/
def succeeds {σ α : Type} : EStateM.Result TemplateError σ α → Bool
  | .ok _ _ => true
  | .error _ _ => false

/-- Whether a result is an error that is, in the state it leaves, as asked. -/
def fails {σ α : Type} (p : TemplateError → σ → Bool) : EStateM.Result TemplateError σ α → Bool
  | .ok _ _ => false
  | .error e s => p e s

theorem exists_of_fails {σ α : Type} {p : TemplateError → σ → Bool} {r : EStateM.Result TemplateError σ α}
    (h : fails p r = true) : ∃ e s, r = .error e s ∧ p e s = true := by
  cases r with
  | ok _ _ => cases h
  | error e s => exact ⟨e, s, rfl, h⟩

/-- The same result in a state seen differently. -/
def mapState {σ τ α : Type} (f : σ → τ) : EStateM.Result TemplateError σ α → EStateM.Result TemplateError τ α
  | .ok x s => .ok x (f s)
  | .error e s => .error e (f s)

/-! ### Watching changes nothing -/

section
variable {σ : Type} [Recorder σ]

/-- Nothing differs. -/
def Likeness.same (σ : Type) [Recorder σ] : Likeness σ where
  node := Eq
  rewrites _ _ := False
  expr := Eq
  site := Eq
  macros := Eq
  traces := True
  sinks _ := True
  node_kind := kind_like_of_eq
  node_site := site_eq_of_eq
  node_traced h _ _ := h ▸ rfl
  node_self := Eq.refl
  expr_site := expr_site_eq_of_eq
  expr_canonical := canonical_eq_of_eq
  expr_value := sameValue_of_eq
  site_self := Eq.refl
  macros_self _ := rfl
  macros_alike h := h ▸ MacrosAlike.self (fun _ => rfl) _
  macros_withMacrosOf _ h := h ▸ rfl
  sinks_write _ _ := trivial
  rewriting h := h.elim

theorem InStep.eq {env env' : Environment} (h : (Likeness.same σ).InStep env env') : env' = env := by
  cases env
  cases env'
  simp only [Environment.mk.injEq]
  exact ⟨h.sink, h.context, h.macros.symm, h.loader, h.captures, h.running trivial, h.nesting⟩

/-- Whoever watches, a run comes to the same as without. -/
theorem mapState_run [LawfulRecorder σ] (ts : List Tree) (s : σ) :
    mapState environment (Environment.run ts s) = (Environment.run ts : Action Unit) (environment s) := by
  have h : (Likeness.same σ).Agree Whatever (Environment.run ts s)
      ((Environment.run ts : Action Unit) (environment s)) :=
    (Likeness.same σ).agree_run (Alike.self (fun _ => rfl) false ts) (.self trivial)
  generalize Environment.run ts s = r at h
  generalize (Environment.run ts : Action Unit) (environment s) = r' at h
  cases h with
  | ok _ state => rw [mapState, ← InStep.eq state]; rfl
  | error fault state => rw [mapState, fault.eq, ← InStep.eq state]; rfl

variable [LawfulRecorder σ]

theorem mapState_flush (s : σ) : mapState environment (flush s) = (flush : Action Unit) (environment s) := by
  have hown : environment (environment s) = environment s := rfl
  simp only [flush, hown]
  rcases (environment s).sink.flush with ⟨outcome, sink⟩
  cases outcome <;> simp only [mapState, LawfulRecorder.environment_put] <;> rfl

/-- Whoever watches, a whole run comes to the same as without. -/
theorem mapState_process (t : Tree) (s : σ) :
    mapState environment ((Environment.process t : Run σ Unit) s) =
    (Environment.process t : Action Unit) (environment s) := by
  have hrun : mapState environment ((do registerMacros t; Environment.visit t : Run σ Unit) s) =
      (do registerMacros t; Environment.visit t : Action Unit) (environment s) := by
    have hregistered := mapState_run [t]
      (put { environment s with macros := withMacrosOf t (environment s).macros } s)
    rw [LawfulRecorder.environment_put] at hregistered
    exact hregistered
  simp only [Environment.process]
  rw [← hrun]
  generalize (do registerMacros t; Environment.visit t : Run σ Unit) s = r
  cases r with
  | ok _ s' => exact mapState_flush s'
  | error e s' =>
    by_cases he : e.abandons
    · simp only [mapState, he, if_true]
    · simp only [mapState, he, Bool.false_eq_true, if_false, LawfulRecorder.environment_put]
      rfl

end

/-! ### Elements that begin and end -/

/-- The environment in which an element runs: it is listed, if it is one of those that are. -/
def listing (t : Tree) (env : Environment) : Environment :=
  { env with running := if t.kind.isTraced then traceLine t :: env.running else env.running }

/-- The environment after an element that has run: it is not listed any more. -/
def unlisting (t : Tree) (env : Environment) : Environment :=
  { env with running := if t.kind.isTraced then env.running.tail else env.running }

theorem unlisting_listing (t : Tree) (env : Environment) :
    (unlisting t (listing t env)).running = env.running := by
  cases htraced : t.kind.isTraced <;> simp [unlisting, listing, htraced]

theorem beginElement_listing (t : Tree) (env : Environment) :
    (beginElement t : Action Unit) env = .ok () (listing t env) := by
  cases htraced : t.kind.isTraced <;> simp only [beginElement, listing, htraced] <;> rfl

theorem endElement_unlisting (t : Tree) (env : Environment) :
    (endElement t : Action Unit) env = .ok () (unlisting t env) := by
  cases htraced : t.kind.isTraced <;> simp only [endElement, unlisting, htraced] <;> rfl

theorem beginElement_eq (t : Tree) (h : History) : (beginElement t : Run History Unit) h =
    .ok () ⟨listing t h.environment, h.moments ++ [⟨.begins t, h.environment⟩]⟩ := by
  cases htraced : t.kind.isTraced <;> simp only [beginElement, listing, htraced] <;> rfl

theorem endElement_eq (t : Tree) (h : History) : (endElement t : Run History Unit) h =
    .ok () ⟨unlisting t h.environment, h.moments ++ [⟨.ends t, unlisting t h.environment⟩]⟩ := by
  cases htraced : t.kind.isTraced <;> simp only [endElement, unlisting, htraced] <;> rfl

end Execution

end Stencil
