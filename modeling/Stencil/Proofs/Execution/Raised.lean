import Stencil.Loader
import Stencil.Expr.Evaluation
import Stencil.Proofs.Outcomes

/-! # Errors where they arise

An error is raised with an empty trace: what was running is added when it has come out. Where an expression
is evaluated its error is placed at a part of the expression; a loader does not know where it is asked, so its
errors have no place until the inclusion gives them one. -/

namespace Stencil

/-- Whether the element is an inclusion. -/
def Kind.isInclusion : Kind → Bool
  | inclusion _ => true
  | _ => false

namespace TemplateError

/-- Whether an error is about an inclusion. -/
def isInclusion : TemplateError → Bool
  | inclusion _ _ => true
  | _ => false

/-- Whether an error says that what was called is no macro. -/
def isNotMacro : TemplateError → Bool
  | type (.notMacro _) _ => true
  | _ => false

/-- An error as it is raised: its trace is empty, and if it is about an inclusion it has such a place. -/
structure Fresh (place : Option ErrorSite → Prop) (e : TemplateError) : Prop where
  traceless : ∀ site, e.site? = some site → site.trace = []
  place : ∀ fault site, e = .inclusion fault site → place site

/-- An error that is not about an inclusion, and with which a run comes back. -/
structure Plain (e : TemplateError) : Prop extends e.Fresh fun _ => False where
  returns : e.abandons = false

/-- A plain error that does not say that what was called is no macro. -/
structure Harmless (e : TemplateError) : Prop extends e.Plain where
  other : e.isNotMacro = false

/-- An error that can be that of an element: an error about an inclusion is placed at it. -/
abbrev Blames (t : Tree) : TemplateError → Prop :=
  Fresh fun site => t.kind.isInclusion ∧ site = some (.ofTree t)

theorem Fresh.weaken {place place' : Option ErrorSite → Prop} {e : TemplateError} (h : e.Fresh place)
    (hplace : ∀ site, place site → place' site) : e.Fresh place' :=
  ⟨h.traceless, fun fault site he => hplace site (h.place fault site he)⟩

theorem Plain.blames {e : TemplateError} (h : e.Plain) (t : Tree) : e.Blames t := h.weaken nofun

theorem site?_of_abandons {e : TemplateError} (h : e.abandons = true) : e.site? = none := by
  cases e <;> first | rfl | cases h

theorem plain_of_site {e : TemplateError} {site : ErrorSite} (h : e.site? = some site)
    (trace : site.trace = []) (other : e.isInclusion = false) : e.Plain where
  traceless _ hs := Option.some.inj (h.symm.trans hs) ▸ trace
  place fault place he := by
    rw [he] at other
    cases other
  returns := by
    cases habandons : e.abandons with
    | false => rfl
    | true =>
      rw [site?_of_abandons habandons] at h
      cases h

theorem harmless_of_site {e : TemplateError} {site : ErrorSite} (h : e.site? = some site)
    (trace : site.trace = []) (inclusion : e.isInclusion = false) (other : e.isNotMacro = false) :
    e.Harmless := ⟨plain_of_site h trace inclusion, other⟩

theorem isNotMacro_of_siteless {e : TemplateError} (h : e.site? = none) : e.isNotMacro = false := by
  cases e <;> first | rfl | cases h

theorem isNotMacro_attachTrace (trace : List String) (e : TemplateError) :
    (e.attachTrace trace).isNotMacro = e.isNotMacro := by
  cases e with
  | type fault => cases fault <;> rfl
  | _ => rfl

theorem isNotMacro_locatedAt (t : Tree) (e : TemplateError) : (e.locatedAt t).isNotMacro = e.isNotMacro := by
  unfold TemplateError.locatedAt
  split <;> rfl

theorem site?_attachTrace (trace : List String) (e : TemplateError) : (e.attachTrace trace).site? =
    e.site?.map fun site => if site.trace.isEmpty then { site with trace } else site := by
  cases e <;> rfl

theorem harmless_io (fault : IoFault) : (io fault).Harmless where
  traceless _ hs := by cases hs
  place _ _ he := by cases he
  returns := rfl
  other := rfl

/-- An error that has no place at all. -/
theorem fresh_of_siteless {e : TemplateError} (h : e.site? = none) : e.Fresh (· = none) where
  traceless _ hs := by
    rw [h] at hs
    cases hs
  place _ _ he := by
    rw [he] at h
    exact h

/-- An error about an inclusion is that of the inclusion once it is placed there. -/
theorem Fresh.locatedAt {e : TemplateError} (h : e.Fresh (· = none)) {t : Tree} (ht : t.kind.isInclusion) :
    (e.locatedAt t).Blames t := by
  unfold TemplateError.locatedAt
  split
  · refine ⟨fun _ hs => ?_, fun _ _ he => ?_⟩
    · cases hs
      rfl
    · cases he
      exact ⟨ht, rfl⟩
  · next hother =>
    refine ⟨h.traceless, fun fault site he => ?_⟩
    obtain rfl := h.place fault site he
    exact absurd he (hother fault)

/-- An error that has been placed stays where it is. -/
theorem Fresh.locatedAt_eq {e : TemplateError} {t : Tree} (h : e.Blames t) (u : Tree) :
    e.locatedAt u = e := by
  unfold TemplateError.locatedAt
  split
  · next fault =>
    obtain ⟨-, hsite⟩ := h.place fault none rfl
    cases hsite
  · rfl

end TemplateError

namespace Expr

open TemplateError

theorem harmless_select {e : Expr} {key : String} {v : Value} {err : TemplateError}
    (h : e.select key v = .error err) :
    err.Harmless := by
  unfold select at h
  split at h
  · split at h
    · cases h
    · cases h
      exact harmless_of_site rfl rfl rfl rfl
  · cases h
    exact harmless_of_site rfl rfl rfl rfl

theorem harmless_add {e : Expr} {a b : Value} {err : TemplateError} (h : e.add a b = .error err) :
    err.Harmless := by
  unfold add at h
  split at h
  · split at h
    · cases h
    · cases h
      exact harmless_of_site rfl rfl rfl rfl
  · cases h
  · cases h
  · cases h
  · cases h
    exact harmless_of_site rfl rfl rfl rfl

/-- Evaluating raises errors where it stands, if evaluating texts does. -/
theorem harmless_evaluateWith {c : Context} {run : Expr → String → Except TemplateError Value}
    (hrun : ∀ site code err, run site code = .error err → err.Harmless) (e : Expr) {err : TemplateError}
    (h : evaluateWith c run e = .error err) : err.Harmless := by
  have hbind : ∀ {e' : Expr} {f : Value → Except TemplateError Value},
      (∀ err, evaluateWith c run e' = .error err → err.Harmless) →
      (∀ v err, f v = .error err → err.Harmless) →
      ∀ err, (do f (← evaluateWith c run e')) = .error err → err.Harmless := by
    intro e' f he' hf err h
    cases hvalue : evaluateWith c run e' with
    | error err' =>
      rw [hvalue] at h
      cases h
      exact he' _ hvalue
    | ok v =>
      rw [hvalue] at h
      exact hf v err h
  have hpure : ∀ {f : Value → Value} (v : Value) (err : TemplateError), (return f v) =
      Except.error err → err.Harmless :=
    fun _ _ h => by cases h
  induction e generalizing err with
  | string loc s | boolean loc b | null loc => cases h
  | integer loc n =>
    unfold evaluateWith at h
    split at h
    · cases h
    · cases h
      exact harmless_of_site rfl rfl rfl rfl
  | var loc name =>
    unfold evaluateWith at h
    split at h
    · cases h
    · cases h
      exact harmless_of_site rfl rfl rfl rfl
  | dot loc target key ih => exact hbind (fun _ => ih) (fun _ _ => harmless_select) err h
  | binary loc op left right ihLeft ihRight =>
    refine hbind (fun _ => ihLeft) (fun a err h => ?_) err h
    have hright : ∀ f : Value → Value, (do return f (← evaluateWith c run right)) =
        Except.error err → err.Harmless :=
      fun f => hbind (fun _ => ihRight) (hpure (f := f)) err
    cases op with
    | or =>
      dsimp only at h
      split at h
      · cases h
      · exact hright (fun b => .boolean b.isTruthy) h
    | and =>
      dsimp only at h
      split at h
      · exact hright (fun b => .boolean b.isTruthy) h
      · cases h
    | equal => exact hright (fun b => .boolean (a.same b)) h
    | notEqual => exact hright (fun b => .boolean !(a.same b)) h
    | add => exact hbind (fun _ => ihRight) (fun _ _ => harmless_add) err h
  | not loc operand ih => exact hbind (fun _ => ih) hpure err h
  | group loc inner ih => exact ih h
  | eval loc target ih =>
    refine hbind (fun _ => ih) (fun v err h => ?_) err h
    split at h
    · exact hrun _ _ _ h
    · cases h
      exact harmless_of_site rfl rfl rfl rfl

theorem harmless_evaluateWithin {c : Context} (levels : Nat) (e : Expr) {err : TemplateError}
    (h : evaluateWithin levels c e = .error err) : err.Harmless := by
  induction levels generalizing e err with
  | zero =>
    refine harmless_evaluateWith (fun site code err h => ?_) e h
    cases h
    exact harmless_of_site rfl rfl rfl rfl
  | succ levels ih =>
    refine harmless_evaluateWith (fun site code err h => ?_) e h
    split at h
    · cases h
      exact harmless_of_site rfl rfl rfl rfl
    · exact ih _ h

theorem plain_evaluateWithin {c : Context} (levels : Nat) (e : Expr) {err : TemplateError}
    (h : evaluateWithin levels c e = .error err) : err.Plain := (harmless_evaluateWithin levels e h).toPlain

end Expr

namespace Loader

variable {l : Loader} {name : String} {e : TemplateError} {t : Template}

/-- What a loader fails with: a fault of the inclusion, which does not say where it was to be, an extension
that no file can have, or a file that is no text. -/
inductive Refusal (l : Loader) : TemplateError → Prop
  | inclusion (fault : IncludeFault) : Refusal l (.inclusion fault none)
  | extension (slash : '/' ∈ l.extension.toList) : Refusal l (.extension l.extension)
  | notText : Refusal l (.io .notText)

theorem refusal_of_checkName (h : checkName name = .error e) : l.Refusal e := by
  unfold checkName at h
  split at h
  · split at h
    · cases h
      exact .inclusion _
    · split at h <;> cases h
      exact .inclusion _
  · cases h
    exact .inclusion _

theorem refusal_of_load (h : l.load name = .error e) : l.Refusal e := by
  unfold load at h
  cases hname : checkName name with
  | error e' =>
    rw [hname] at h
    cases h
    exact refusal_of_checkName hname
  | ok _ =>
    simp only [hname, Bind.bind, Except.bind] at h
    split at h
    · cases h
      exact .inclusion _
    · split at h
      · next slash =>
        cases h
        exact .extension slash
      · repeat' split at h
        all_goals cases h
        all_goals first | exact .inclusion _ | exact .notText

/-- What is loaded has been read from a text, under a name that is in order and not running. -/
theorem exists_of_load (h : l.load name = .ok t) :
    checkName name = .ok () ∧ name ∉ l.running ∧ '/' ∉ l.extension.toList ∧
    ∃ text, Template.parse (some name) text l.strip = .ok t := by
  unfold load at h
  obtain ⟨⟨⟩, hname, h⟩ := exists_of_bind_eq_ok h
  split at h
  · cases h
  next hrunning =>
  split at h
  · cases h
  next hextension =>
  refine ⟨hname, hrunning, hextension, ?_⟩
  dsimp only at h
  repeat' split at h
  all_goals cases h
  next hparse => exact ⟨_, hparse⟩

/-- Why nothing could be loaded does not say where it was to be included. -/
theorem site?_load (h : l.load name = .error e) : e.site? = none := by
  cases refusal_of_load h <;> rfl

end Loader

end Stencil
