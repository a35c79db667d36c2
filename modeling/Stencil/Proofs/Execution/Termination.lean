import Stencil.Proofs.Execution.Machine
import Stencil.Proofs.Execution.Raised

/-! # Every run ends

The machine comes to what `Environment.process` gives, after finitely many steps and with never more
levels open than there can be. The induction is on the levels that are left, then on the size of the
elements or the expression; macro bodies, included templates and evaluated texts are parts of neither,
but they stand one level deeper. -/

namespace Stencil

namespace TemplateError

/-- Whether an error says that one more level would have been too many. -/
def isTooDeep : TemplateError → Bool
  | tooDeep _ _ => true
  | _ => false

theorem isTooDeep_locatedAt (t : Tree) (e : TemplateError) : (e.locatedAt t).isTooDeep = e.isTooDeep := by
  unfold locatedAt
  split <;> rfl

theorem isTooDeep_attachTrace (trace : List String) (e : TemplateError) :
    (e.attachTrace trace).isTooDeep = e.isTooDeep := by
  cases e <;> rfl

end TemplateError

namespace Loader

theorem isTooDeep_load {l : Loader} {name : String} {e : TemplateError} (h : l.load name = .error e) :
    e.isTooDeep = false := by
  cases refusal_of_load h <;> rfl

end Loader

namespace Execution

open Stencil.Action

/-! ### Sequences of steps -/

/-- Some steps lead from one moment to another, and no more levels are open before than there can be. The
flag says whether it was tried to open one more, which fails. -/
inductive Reaches (limit : Nat) : Machine → Machine → Bool → Prop
  | here (m : Machine) : Reaches limit m m false
  | step {m m' : Machine} {tried : Bool} (levels : m.levels ≤ limit) (opens : ¬ m.OpensAt limit)
    (rest : Reaches limit m.step m' tried) : Reaches limit m m' tried
  | tries {m m' : Machine} {tried : Bool} (levels : m.levels ≤ limit) (opens : m.OpensAt limit)
    (fails : m.step.HasFailed) (rest : Reaches limit m.step m' tried) : Reaches limit m m' true

/-- No more levels are open than there can be, and trying to open one more fails. -/
structure Machine.Keeps (limit : Nat) (m : Machine) : Prop where
  levels : m.levels ≤ limit
  fails : m.OpensAt limit → m.step.HasFailed

namespace Reaches

variable {limit : Nat} {m m' m'' : Machine} {tried tried' : Bool}

theorem trans (h : Reaches limit m m' tried) (h' : Reaches limit m' m'' tried') :
    Reaches limit m m'' (tried || tried') := by
  induction h with
  | here => exact h'
  | step levels opens _ ih => exact .step levels opens (ih h')
  | tries levels opens fails _ ih => exact .tries levels opens fails (ih h')

/-- After steps without such a try the rest counts. -/
theorem append (h : Reaches limit m m' false) (h' : Reaches limit m' m'' tried) :
    Reaches limit m m'' tried := by
  have := h.trans h'
  rwa [Bool.false_or] at this

theorem extend (h : Reaches limit m m' tried) (h' : Reaches limit m' m'' false) :
    Reaches limit m m'' tried := by
  have := h.trans h'
  rwa [Bool.or_false] at this

theorem iterate (h : Reaches limit m m' tried) : ∃ k, Machine.step^[k] m = m' ∧
    (∀ j < k, (Machine.step^[j] m).Keeps limit) ∧
    (tried = true ↔ ∃ j < k, (Machine.step^[j] m).OpensAt limit) := by
  induction h with
  | here m => exact ⟨0, rfl, by simp⟩
  | @step m m' tried levels opens rest ih =>
    obtain ⟨k, hk, hkeeps, htried⟩ := ih
    refine ⟨k + 1, hk, fun j hj => ?_, htried.trans ⟨?_, ?_⟩⟩
    · cases j with
      | zero => exact ⟨levels, fun h => absurd h opens⟩
      | succ j => exact hkeeps j (Nat.lt_of_succ_lt_succ hj)
    · rintro ⟨j, hj, hopens⟩
      exact ⟨j + 1, Nat.succ_lt_succ hj, hopens⟩
    · rintro ⟨j, hj, hopens⟩
      cases j with
      | zero => exact absurd hopens opens
      | succ j => exact ⟨j, Nat.lt_of_succ_lt_succ hj, hopens⟩
  | @tries m m' tried levels opens fails rest ih =>
    obtain ⟨k, hk, hkeeps, -⟩ := ih
    refine ⟨k + 1, hk, fun j hj => ?_, iff_of_true rfl ⟨0, Nat.succ_pos k, opens⟩⟩
    cases j with
    | zero => exact ⟨levels, fun _ => fails⟩
    | succ j => exact hkeeps j (Nat.lt_of_succ_lt_succ hj)

end Reaches

/-! ### What a command comes to -/

section
variable {limit left : Nat} {α β : Type} {env : Environment}

/-- Wherever so many levels are left, a command comes to a result, and no level stays open. Trying to open
one too many is just what makes it fail for that reason. -/
inductive Delivers (limit left : Nat) {α : Type} (c : Command α) (env : Environment) :
    EStateM.Result TemplateError Environment α → Prop
  | ok {x : α} {env' : Environment} (nesting : env'.nesting = env.nesting)
    (reaches : ∀ stack : Stack α, stack.levels + left = limit →
      Reaches limit (.running c stack env) (.running (.ret x) stack env') false) :
    Delivers limit left c env (.ok x env')
  | error {e : TemplateError} {env' : Environment}
    (reaches : ∀ stack : Stack α, stack.levels + left = limit →
      Reaches limit (.running c stack env) (.failing e stack env') e.isTooDeep) :
    Delivers limit left c env (.error e env')

/-- A command comes to what an action gives, in every environment where so many levels are left. -/
def Carries (limit left : Nat) {α : Type} (c : Command α) (a : Action α) : Prop :=
  ∀ env : Environment, maxNesting - env.nesting = left → Delivers limit left c env (a env)

/-- An action that opens no level. -/
def Elementary {α : Type} (a : Action α) : Prop := ∀ env,
  match a env with
  | .ok _ env' => env'.nesting = env.nesting
  | .error e _ => e.isTooDeep = false

theorem delivers_ret (x : α) : Delivers limit left (.ret x) env (.ok x env) := .ok rfl fun _ _ => .here _

theorem delivers_raise {e : TemplateError} (h : e.isTooDeep = false) :
    Delivers limit left (.raise e : Command α) env (.error e env) := by
  refine .error fun stack hstack => ?_
  rw [h]
  exact .step (Nat.le.intro hstack) (fun h => h.1) (.here _)

theorem delivers_act {a : Action α} (h : Elementary a) : Delivers limit left (.act a) env (a env) := by
  have h := h env
  cases hresult : a env with
  | ok x env' =>
    rw [hresult] at h
    refine .ok h fun stack hstack => .step (Nat.le.intro hstack) (fun h => h.1) ?_
    simp only [Machine.step, Command.step, hresult]
    exact .here _
  | error e env' =>
    rw [hresult] at h
    refine .error fun stack hstack => ?_
    rw [h]
    refine .step (Nat.le.intro hstack) (fun h => h.1) ?_
    simp only [Machine.step, Command.step, hresult]
    exact .here _

theorem elementary_change {f : Environment → Environment} (hf : ∀ env, (f env).nesting = env.nesting) :
    Elementary (change f) := hf

theorem elementary_observe {f : Environment → Except TemplateError α}
    (hf : ∀ env e, f env = .error e → e.isTooDeep = false) : Elementary (observe f) := by
  intro env
  unfold observe
  cases hresult : f (Recorder.environment env) with
  | ok x => rfl
  | error e => exact hf _ e hresult

theorem elementary_bind {a : Action α} {f : α → Action β} (ha : Elementary a) (hf : ∀ x, Elementary (f x)) :
    Elementary (a >>= f) := by
  intro env
  have ha := ha env
  simp only [Bind.bind, EStateM.bind]
  cases hresult : a env with
  | error e env' =>
    rw [hresult] at ha
    exact ha
  | ok x env' =>
    rw [hresult] at ha
    have hf := hf x env'
    dsimp only at ha ⊢
    rw [ha] at hf
    exact hf

/-- What is done first counts for nothing if it opens no level. -/
theorem Delivers.after {c c' : Command α} {env' : Environment}
    {r : EStateM.Result TemplateError Environment α} (nesting : env'.nesting = env.nesting)
    (first : ∀ stack : Stack α, stack.levels + left = limit →
      Reaches limit (.running c stack env) (.running c' stack env') false)
    (h : Delivers limit left c' env' r) : Delivers limit left c env r := by
  cases h with
  | ok nesting' reaches =>
    exact .ok (nesting'.trans nesting) fun stack hstack => (first stack hstack).append (reaches stack hstack)
  | error reaches => exact .error fun stack hstack => (first stack hstack).append (reaches stack hstack)

/-- A step that only tells what to do next. -/
theorem Delivers.unfold {c c' : Command α} {r : EStateM.Result TemplateError Environment α}
    (hstep : ∀ stack, (Machine.running c stack env).step = .running c' stack env)
    (hopens : ∀ stack : Stack α, ¬ (Machine.running c stack env).Opens) (h : Delivers limit left c' env r) :
    Delivers limit left c env r := by
  refine h.after rfl fun stack hstack => .step (Nat.le.intro hstack) (fun h => hopens stack h.1) ?_
  rw [hstep]
  exact .here _

theorem delivers_bind {c : Command α} {f : α → Command β} {a : Action α} {g : α → Action β}
    (hc : Delivers limit left c env (a env))
    (hf : ∀ x env', a env = .ok x env' → env'.nesting = env.nesting →
      Delivers limit left (f x) env' (g x env')) :
    Delivers limit left (c >>= f) env ((a >>= g) env) := by
  simp only [Bind.bind, EStateM.bind]
  cases hresult : a env with
  | error e env' =>
    rw [hresult] at hc
    cases hc with
    | error reaches =>
      refine .error fun stack hstack => ?_
      have hfailing : Reaches limit (.failing e (.next f stack) env') (.failing e stack env') false :=
        .step (Nat.le.intro hstack) (fun h => h.1) (.here _)
      exact .step (Nat.le.intro hstack) (fun h => h.1) ((reaches (.next f stack) hstack).extend hfailing)
  | ok x env' =>
    rw [hresult] at hc
    cases hc with
    | ok nesting reaches =>
      refine (hf x env' hresult nesting).after nesting fun stack hstack => ?_
      have hresumed : Reaches limit (.running (.ret x) (.next f stack) env')
          (.running (f x) stack env') false :=
        .step (Nat.le.intro hstack) (fun h => h.1) (.here _)
      exact .step (Nat.le.intro hstack) (fun h => h.1) ((reaches (.next f stack) hstack).append hresumed)

/-! ### Guards and levels -/

/-- What a guard makes of a result. -/
def Guard.after (g : Guard) : EStateM.Result TemplateError Environment α →
    EStateM.Result TemplateError Environment α
  | .ok x env => .ok x (g.leave env)
  | .error e env => .error (g.fail e env).1 (g.fail e env).2

/-- What closing a level makes of a result. -/
def Level.after (l : Level) : EStateM.Result TemplateError Environment α →
    EStateM.Result TemplateError Environment α
  | .ok x env => .ok x (l.leave env)
  | .error e env => .error e (if e.abandons then env else l.leave env)

theorem delivers_guarded {g : Guard} (hleave : ∀ env, (g.leave env).nesting = env.nesting)
    (hfail : ∀ e env, (g.fail e env).1.isTooDeep = e.isTooDeep) {c : Command α}
    {r : EStateM.Result TemplateError Environment α} (h : Delivers limit left c env r) :
    Delivers limit left (.guarded g c) env (g.after r) := by
  cases h with
  | @ok x env' nesting reaches =>
    refine .ok ((hleave env').trans nesting) fun stack hstack => ?_
    have hleft : Reaches limit (.running (.ret x) (.guard g stack) env')
        (.running (.ret x) stack (g.leave env')) false :=
      .step (Nat.le.intro hstack) (fun h => h.1) (.here _)
    exact .step (Nat.le.intro hstack) (fun h => h.1) ((reaches (.guard g stack) hstack).append hleft)
  | @error e env' reaches =>
    refine .error fun stack hstack => ?_
    have hfailed : Reaches limit (.failing e (.guard g stack) env')
        (.failing (g.fail e env').1 stack (g.fail e env').2) false :=
      .step (Nat.le.intro hstack) (fun h => h.1) (.here _)
    rw [hfail]
    exact .step (Nat.le.intro hstack) (fun h => h.1) ((reaches (.guard g stack) hstack).extend hfailed)

/-- With no level left, none is opened. -/
theorem delivers_refused {l : Level} {site : ErrorSite} (h : maxNesting ≤ l.count env) (c : Command α) :
    Delivers limit 0 (.nested l site c) env (.error (.tooDeep maxNesting site) env) := by
  refine .error fun stack hstack => ?_
  have hstep : (Machine.running (.nested l site c) stack env).step =
      .failing (.tooDeep maxNesting site) stack env := by
    simp only [Machine.step, Command.step, ge_iff_le, h, if_true]
  -- The counter is at its limit just when the stack is.
  have hlevels : stack.levels = limit := hstack
  refine .tries (Nat.le_of_eq hlevels) ⟨trivial, hlevels⟩ ?_ (by rw [hstep]; exact .here _)
  rw [hstep]
  exact trivial

/-- Otherwise what is inside has one level less. -/
theorem delivers_opened {l : Level} {site : ErrorSite} (h : l.count env < maxNesting) {c : Command α}
    {r : EStateM.Result TemplateError Environment α} (hc : Delivers limit left c (l.enter env) r)
    (hleave : ∀ env', env'.nesting = (l.enter env).nesting → (l.leave env').nesting = env.nesting) :
    Delivers limit (left + 1) (.nested l site c) env (l.after r) := by
  have first : ∀ {stack : Stack α} {m : Machine} {tried : Bool}, stack.levels + (left + 1) = limit →
      Reaches limit (.running c (.level l stack) (l.enter env)) m tried →
      Reaches limit (.running (.nested l site c) stack env) m tried := by
    intro stack m tried hstack hrest
    have hstep : (Machine.running (.nested l site c) stack env).step =
        .running c (.level l stack) (l.enter env) := by
      simp only [Machine.step, Command.step, ge_iff_le, Nat.not_le.2 h, if_false]
    refine .step (Nat.le.intro hstack) ?_ (hstep ▸ hrest)
    rintro ⟨-, hlevels⟩
    simp only [Machine.levels] at hlevels
    omega
  have within : ∀ {stack : Stack α}, stack.levels + (left + 1) = limit →
      (Stack.level l stack).levels + left = limit := by
    intro stack hstack
    rw [Stack.levels]
    omega
  cases hc with
  | @ok x env' nesting reaches =>
    refine .ok (hleave env' nesting) fun stack hstack => first hstack ?_
    refine (reaches (.level l stack) (within hstack)).append ?_
    exact .step (Nat.le.intro (within hstack)) (fun h => h.1) (.here _)
  | @error e env' reaches =>
    refine .error fun stack hstack => first hstack ?_
    refine (reaches (.level l stack) (within hstack)).extend ?_
    exact .step (Nat.le.intro (within hstack)) (fun h => h.1) (.here _)

/-! ### Expressions -/

/-- A result that changes nothing. -/
def settled (r : Except TemplateError α) : Action α := observe fun _ => r

theorem delivers_settled_bind {c : Command α} {f : α → Command β} {r : Except TemplateError α}
    {g : α → Except TemplateError β} (hc : Delivers limit left c env (settled r env))
    (hf : ∀ x, Delivers limit left (f x) env (settled (g x) env)) :
    Delivers limit left (c >>= f) env (settled (r >>= g) env) := by
  have hbind : settled (r >>= g) env = (settled r >>= fun x => settled (g x)) env := by cases r <;> rfl
  rw [hbind]
  refine delivers_bind hc fun x env' hx _ => ?_
  cases r with
  | error e => cases hx
  | ok _ =>
    cases hx
    exact hf x

theorem delivers_lift {r : Except TemplateError α} (h : ∀ e, r = .error e → e.isTooDeep = false) :
    Delivers limit left (.lift r) env (settled r env) := by
  cases r with
  | error e => exact delivers_raise (h e rfl)
  | ok x => exact delivers_ret x

theorem isTooDeep_select {e : Expr} {key : String} {v : Value} {err : TemplateError}
    (h : e.select key v = .error err) :
    err.isTooDeep = false := by
  unfold Expr.select at h
  split at h
  · split at h <;> cases h
    rfl
  · cases h; rfl

theorem isTooDeep_add {e : Expr} {a b : Value} {err : TemplateError} (h : e.add a b = .error err) :
    err.isTooDeep = false := by
  unfold Expr.add at h
  split at h
  · split at h <;> cases h
    rfl
  all_goals cases h
  rfl

/-- An expression has the value that its parts give, once that is so for evaluated texts. -/
theorem delivers_evaluateWith {depth : Nat} {run : Expr → String → Except TemplateError Value}
    (hrun : ∀ site code, Delivers limit left (.evaluateText depth site code) env
      (settled (run site code) env))
    (e : Expr) : Delivers limit left (.value depth e) env (settled (e.evaluateWith env.context run) env) := by
  have constant (v : Value) : Delivers limit left (.ret v) env (settled (.ok v) env) := delivers_ret v
  induction e with
  | string loc s => exact .unfold (fun _ => rfl) (fun _ h => h) (constant _)
  | boolean loc b => exact .unfold (fun _ => rfl) (fun _ h => h) (constant _)
  | null loc => exact .unfold (fun _ => rfl) (fun _ h => h) (constant _)
  | integer loc n =>
    refine .unfold (fun _ => rfl) (fun _ h => h) ?_
    simp only [Command.ofExpr, Expr.evaluateWith]
    cases Value.ofInt n with
    | ok v => exact constant v
    | error err => exact delivers_raise rfl
  | var loc name =>
    refine .unfold (fun _ => rfl) (fun _ h => h) (delivers_act (elementary_observe fun env err h => ?_))
    split at h <;> cases h
    rfl
  | dot loc target key ih =>
    refine .unfold (fun _ => rfl) (fun _ h => h) ?_
    exact delivers_settled_bind ih fun v => delivers_lift fun _ => isTooDeep_select
  | binary loc op first right ihFirst ihRight =>
    refine .unfold (fun _ => rfl) (fun _ h => h) ?_
    refine delivers_settled_bind ihFirst fun a => ?_
    -- Of a right operand only a truth value is taken, and only if the left one leaves it open.
    have truth (f : Value → Bool) :
        Delivers limit left (do return Value.boolean (f (← .value depth right))) env
        (settled (do return Value.boolean (f (← right.evaluateWith env.context run))) env) :=
      delivers_settled_bind ihRight fun _ => constant _
    cases op with
    | or =>
      dsimp only
      split
      · exact constant _
      · exact truth Value.isTruthy
    | and =>
      dsimp only
      split
      · exact truth Value.isTruthy
      · exact constant _
    | equal => exact truth a.same
    | notEqual => exact truth fun b => !a.same b
    | add => exact delivers_settled_bind ihRight fun b => delivers_lift fun _ => isTooDeep_add
  | not loc operand ih =>
    refine .unfold (fun _ => rfl) (fun _ h => h) ?_
    exact delivers_settled_bind ih fun v => constant _
  | group loc inner ih => exact .unfold (fun _ => rfl) (fun _ h => h) ih
  | eval loc target ih =>
    refine .unfold (fun _ => rfl) (fun _ h => h) ?_
    refine delivers_settled_bind ih fun v => ?_
    cases v with
    | string code => exact hrun _ code
    | _ => exact delivers_raise rfl

theorem Level.after_fragment (depth : Nat) (r : EStateM.Result TemplateError Environment α) :
    (Level.fragment depth).after r = r := by
  cases r with
  | ok x env => rfl
  | error e env =>
    simp only [Level.after, Level.leave, ite_self]

theorem delivers_value {depth : Nat} (hleft : maxNesting - depth = left) (e : Expr) :
    Delivers limit left (.value depth e) env (settled (e.evaluateWithin left env.context) env) := by
  induction left generalizing depth e with
  | zero => exact delivers_evaluateWith (fun site code =>
    delivers_refused (l := .fragment depth) (Nat.le_of_sub_eq_zero hleft) _) e
  | succ left ih =>
    refine delivers_evaluateWith (fun site code => ?_) e
    have hdepth : depth < maxNesting := by omega
    rw [← Level.after_fragment depth (settled _ env)]
    refine delivers_opened (l := .fragment depth) hdepth ?_ fun _ h => h
    cases Expr.parse code with
    | error err => exact delivers_raise rfl
    | ok fragment => exact ih (by omega) fragment

/-! ### Elementary actions -/

theorem elementary_tell (event : Event) : Elementary (tell event) := fun _ => rfl

theorem elementary_write (text : String) : Elementary (write text) := by
  intro env
  unfold write
  cases hcaptures : env.captures with
  | cons captured outer =>
    simp only [Recorder.environment, id, hcaptures]
    rfl
  | nil =>
    simp only [Recorder.environment, id, hcaptures]
    rcases env.sink.write text with ⟨outcome, sink⟩
    cases outcome <;> rfl

theorem elementary_beginElement (t : Tree) : Elementary (beginElement t) := by
  refine elementary_bind (elementary_tell _) fun _ => ?_
  split
  · exact elementary_change fun _ => rfl
  · exact fun _ => rfl

theorem elementary_endElement (t : Tree) : Elementary (endElement t) := by
  unfold endElement
  split
  · exact elementary_bind (elementary_change fun _ => rfl) fun _ => elementary_tell _
  · exact elementary_tell _

theorem elementary_flush : Elementary (flush : Action Unit) := by
  intro env
  simp only [flush, Recorder.environment, id]
  rcases env.sink.flush with ⟨outcome, sink⟩
  cases outcome <;> rfl

/-! ### Elements -/

theorem carries_pure (x : α) : Carries limit left (pure x) (pure x) := fun _ _ => delivers_ret x

theorem carries_raise {e : TemplateError} (h : e.isTooDeep = false) :
    Carries limit left (.raise e : Command α) (throw e) := fun _ _ => delivers_raise h

theorem carries_act {a : Action α} (h : Elementary a) : Carries limit left (.act a) a :=
  fun _ _ => delivers_act h

theorem carries_bind {c : Command α} {f : α → Command β} {a : Action α} {g : α → Action β}
    (hc : Carries limit left c a) (hf : ∀ x, Carries limit left (f x) (g x)) :
    Carries limit left (c >>= f) (a >>= g) := by
  intro env hleft
  refine delivers_bind (hc env hleft) fun x env' _ nesting => hf x env' ?_
  rw [nesting, hleft]

theorem carries_closing {e : Enclosure} (he : ∀ env, (e.close env).nesting = env.nesting) {c : Command α}
    {a : Action α} (h : Carries limit left c a) :
    Carries limit left (.guarded (.closes e) c) (closing e a) := by
  intro env hleft
  have hafter : closing e a env = (Guard.closes e).after (a env) := by
    unfold closing
    cases a env <;> rfl
  rw [hafter]
  exact delivers_guarded (g := .closes e) he (fun _ _ => rfl) (h env hleft)

theorem carries_placed (t : Tree) {c : Command α} {a : Action α} (h : Carries limit left c a) :
    Carries limit left (.guarded (.places t) c) (mapError (·.locatedAt t) a) := by
  intro env hleft
  have hafter : mapError (·.locatedAt t) a env = (Guard.places t).after (a env) := by
    unfold mapError
    cases a env <;> rfl
  rw [hafter]
  exact delivers_guarded (g := .places t) (fun _ => rfl) (fun e _ => e.isTooDeep_locatedAt t) (h env hleft)

/-- A level is opened for a command that has one level less, if there is one left. -/
theorem carries_nested (t : Tree) {c : Command Unit} {a : Action Unit}
    (h : ∀ rest, left = rest + 1 → Carries limit rest c a) :
    Carries limit left (.nested .element (.ofTree t) c) (do enter t; closing .level a) := by
  intro env hleft
  cases left with
  | zero =>
    have hfull : env.nesting ≥ maxNesting := Nat.le_of_sub_eq_zero hleft
    have hrefused : (do enter t; closing .level a : Action Unit) env =
        .error (.tooDeep maxNesting (.ofTree t)) env := by
      simp only [enter, Bind.bind, EStateM.bind, current, Recorder.environment, id, hfull, if_true]
      rfl
    rw [hrefused]
    exact delivers_refused (l := .element) hfull c
  | succ rest =>
    have hroom : env.nesting < maxNesting := by omega
    have hentered : (do enter t; closing .level a : Action Unit) env =
        Level.element.after (a { env with nesting := env.nesting + 1 }) := by
      simp only [enter, Bind.bind, EStateM.bind, current, Recorder.environment, id, ge_iff_le,
        Nat.not_le.2 hroom, if_false, change, Recorder.put, closing]
      cases a { env with nesting := env.nesting + 1 } <;> rfl
    rw [hentered]
    refine delivers_opened (l := .element) hroom (h rest rfl _ ?_) fun env' nesting => ?_
    · simp only [Level.enter]; omega
    · simp only [Level.leave, Enclosure.close, nesting, Level.enter, Nat.add_sub_cancel]

theorem carries_evaluate (e : Expr) : Carries limit left (.evaluate e) (evaluate e) := by
  intro env hleft
  have heq : evaluate e env = (current >>= fun env' => settled (e.evaluateWithin left env'.context)) env := by
    rw [← hleft]
    rfl
  rw [heq]
  refine delivers_bind (delivers_act fun _ => rfl) fun x env' hx _ => ?_
  cases hx
  exact delivers_value hleft e

theorem carries_isTaken (c : Option Expr) : Carries limit left (.isTaken c) (isTaken c) := by
  cases c with
  | none => exact carries_pure true
  | some condition => exact carries_bind (carries_evaluate condition) fun v => carries_pure _

theorem carries_takenBranch (ts : List Tree) : Carries limit left (.takenBranch ts) (takenBranch ts) := by
  induction ts with
  | nil => exact carries_pure none
  | cons t ts ih =>
    have later : Carries limit left
        (do return (← Command.takenBranch ts).map fun b =>
          (⟨b.1, List.mem_cons_of_mem t b.2⟩ : { b // b ∈ t :: ts }))
        (do return (← takenBranch ts).map fun b =>
          (⟨b.1, List.mem_cons_of_mem t b.2⟩ : { b // b ∈ t :: ts })) :=
      carries_bind ih fun _ => carries_pure _
    cases hkind : t.kind with
    | conditional branch condition =>
      simp only [Command.takenBranch, takenBranch, hkind]
      refine carries_bind (carries_isTaken condition) fun taken => ?_
      cases taken with
      | true => exact carries_pure _
      | false => exact later
    | _ =>
      simp only [Command.takenBranch, takenBranch, hkind]
      exact later

theorem carries_interpolate (t : Tree) (e : Expr) :
    Carries limit left (.interpolate t e) (interpolate t e) := by
  refine carries_bind (carries_evaluate e) fun v => ?_
  cases v with
  | null => exact carries_raise rfl
  | _ =>
    dsimp only
    generalize Value.stringify _ = printed
    cases printed with
    | ok text => exact carries_act (elementary_write text)
    | error err => exact carries_raise rfl

theorem carries_scope {bindings : Bindings Value} {isolated : Bool} {c : Command Unit} {a : Action Unit}
    (h : Carries limit left c a) :
    Carries limit left (do .act (pushScope bindings isolated); .guarded (.closes .scope) c)
      (do pushScope bindings isolated; closing .scope a) :=
  carries_bind (carries_act (elementary_change fun _ => rfl)) fun _ => carries_closing (fun _ => rfl) h

section
variable {ts : List Tree} {a : Action Unit}

theorem carries_runItems (hbody : Carries limit left (.body ts) a) (item : String)
    (index : Nat) (vs : List Value) :
    Carries limit left (.runItems ts item index vs) (runItems a item index vs) := by
  induction vs generalizing index with
  | nil => exact carries_pure ()
  | cons v vs ih =>
    refine carries_bind (carries_act (elementary_change fun _ => rfl)) fun _ => ?_
    exact carries_bind (carries_closing (fun _ => rfl) hbody) fun _ => ih (index + 1)

theorem carries_runList (hbody : Carries limit left (.body ts) a) (source : Expr) (item : String) :
    Carries limit left (.runList ts source item) (runList a source item) := by
  refine carries_bind (carries_evaluate source) fun v => ?_
  cases v with
  | sequence items => exact carries_runItems hbody item 0 items
  | _ => exact carries_raise rfl

theorem carries_runCapture (hbody : Carries limit left (.body ts) a) (target : String) :
    Carries limit left (.runCapture ts target) (runCapture a target) := by
  refine carries_bind (carries_act (elementary_change fun _ => rfl)) fun _ => ?_
  refine carries_bind (carries_closing (fun _ => rfl) ?_) fun _ =>
    carries_act (elementary_change fun _ => rfl)
  exact carries_bind hbody fun _ => carries_bind (carries_act fun _ => rfl) fun _ => carries_pure _

end

theorem carries_bindParameters (ps : List String) (es : List Expr) (bindings : Bindings Value) :
    Carries limit left (.bindParameters ps es bindings) (bindParameters ps es bindings) := by
  induction ps generalizing es bindings with
  | nil => exact carries_pure bindings
  | cons p ps ih =>
    cases es with
    | nil => exact ih [] _
    | cons e es => exact carries_bind (carries_evaluate e) fun v => ih es _

section
variable {callee : Tree → List Tree → Action Unit}

/-- Bodies elsewhere are run with one level less. -/
def CalleeCarries (limit left : Nat) (callee : Tree → List Tree → Action Unit) : Prop :=
  ∀ rest, left = rest + 1 → ∀ t ts, Carries limit rest (.body ts) (callee t ts)

theorem carries_callMacro (hcallee : CalleeCarries limit left callee) (t : Tree) (name : String)
    (arguments : List Expr) :
    Carries limit left (.callMacro t name arguments) (callMacro callee t name arguments) := by
  refine carries_bind (carries_act fun _ => rfl) fun env => ?_
  cases env.macros.get? name with
  | none => exact carries_raise rfl
  | some definition =>
    cases hkind : definition.kind with
    | definition _ parameters =>
      simp only [hkind]
      split
      · exact carries_raise rfl
      · refine carries_bind (carries_bindParameters parameters arguments {}) fun bindings => ?_
        exact carries_nested t fun rest hrest => carries_scope (hcallee rest hrest t _)
    | _ =>
      simp only [hkind]
      exact carries_raise rfl

theorem carries_includeTemplate {t : Tree}
    (hcallee : ∀ ts, Carries limit left (.body ts) (callee t ts)) (name : String) :
    Carries limit left (.includeTemplate name) (includeTemplate callee t name) := by
  refine carries_bind (carries_act (elementary_observe fun env e h => ?_)) fun template => ?_
  · split at h
    · exact Loader.isTooDeep_load h
    · cases h; rfl
  · refine carries_bind (carries_act (elementary_change fun _ => rfl)) fun _ => ?_
    refine carries_bind (carries_act (elementary_change fun _ => rfl)) fun _ => ?_
    exact carries_closing (fun _ => rfl) (hcallee _)

theorem carries_runInclusion (hcallee : CalleeCarries limit left callee) (t : Tree) (path : Expr) :
    Carries limit left (.runInclusion t path) (runInclusion callee t path) := by
  refine carries_bind (carries_evaluate path) fun v => ?_
  cases v with
  | string name =>
    exact carries_nested t fun rest hrest =>
      carries_placed t (carries_includeTemplate (hcallee rest hrest t) name)
  | _ => exact carries_raise rfl

/-- An element's own action, given that its children can be run. -/
theorem carries_perform (hcallee : CalleeCarries limit left callee) {t : Tree} {a : Action Unit}
    (hbody : Carries limit left (.body t.children) a) :
    Carries limit left (.perform t) (perform callee a t) := by
  have thenNothing {c : Command Unit} {a : Action Unit} (h : Carries limit left c a) :
      Carries limit left (do c; return (none : Handed t)) (do a; return (none : Handed t)) :=
    carries_bind h fun _ => carries_pure none
  cases hkind : t.kind with
  | sequence => simp only [Command.perform, perform, hkind]; exact carries_pure _
  | text text trimmed => simp only [Command.perform, perform, hkind]; exact thenNothing (carries_act
    (elementary_write text))
  | interpolation e =>
    simp only [Command.perform, perform, hkind]; exact thenNothing (carries_interpolate t e)
  | ifBlock =>
    simp only [Command.perform, perform, hkind]
    refine carries_bind (carries_takenBranch t.children) fun b => ?_
    cases b with
    | none => exact carries_pure none
    | some b => exact carries_pure _
  | conditional branch condition =>
    simp only [Command.perform, perform, hkind]
    refine carries_bind (carries_isTaken condition) fun taken => ?_
    cases taken with
    | true => exact carries_pure _
    | false => exact carries_pure none
  | list source item =>
    simp only [Command.perform, perform, hkind]; exact thenNothing (carries_runList hbody source item)
  | assignment target e =>
    simp only [Command.perform, perform, hkind]
    refine carries_bind (carries_evaluate e) fun v => ?_
    exact thenNothing (carries_act (elementary_change fun _ => rfl))
  | capture target =>
    simp only [Command.perform, perform, hkind]; exact thenNothing (carries_runCapture hbody target)
  | definition name parameters => simp only [Command.perform, perform, hkind]; exact carries_pure none
  | call name arguments =>
    simp only [Command.perform, perform, hkind]
    exact thenNothing (carries_callMacro hcallee t name arguments)
  | inclusion path =>
    simp only [Command.perform, perform, hkind]; exact thenNothing (carries_runInclusion hcallee t path)
  | comment text => simp only [Command.perform, perform, hkind]; exact carries_pure none

theorem carries_ofTree (hcallee : CalleeCarries limit left callee) {t : Tree}
    (hbody : ∀ ts, Tree.sizes ts < t.size → Carries limit left (.body ts) (recurseAll callee ts)) :
    Carries limit left (.ofTree t) (recurse callee t) := by
  -- The machine takes the children handed back as a body of their own, like the recursion.
  rw [recurse_eq, execute, telling_eq]
  simp only [bind_assoc, pure_bind]
  refine carries_bind (carries_act (elementary_beginElement t)) fun _ => ?_
  refine carries_bind (carries_perform hcallee (hbody _ t.sizes_children_lt)) fun handed => ?_
  refine carries_bind (carries_act (elementary_endElement t)) fun _ => ?_
  cases handed with
  | none => exact carries_pure ()
  | some children => exact hbody _ children.2

theorem carries_nil : Carries limit left (.body []) (recurseAll callee []) := by
  rw [recurseAll_nil]
  exact fun env _ => .unfold (fun _ => rfl) (fun _ h => h) (delivers_ret ())

theorem carries_cons {t : Tree} {ts : List Tree} (first : Carries limit left (.ofTree t) (recurse callee t))
    (rest : Carries limit left (.body ts) (recurseAll callee ts)) :
    Carries limit left (.body (t :: ts)) (recurseAll callee (t :: ts)) := by
  rw [recurseAll_cons]
  exact fun env hleft => .unfold (fun _ => rfl) (fun _ h => h) (carries_bind first (fun _ => rest) env hleft)

/-- Running some elements. The induction is on their size, which the children handed back make smaller. -/
theorem carries_body (hcallee : CalleeCarries limit left callee) (ts : List Tree) :
    Carries limit left (.body ts) (recurseAll callee ts) := by
  induction ts using Tree.sizes_induction with
  | nil => exact carries_nil
  | cons t ts smaller ih => exact carries_cons (carries_ofTree hcallee smaller) ih

end

/-- Running some elements, whatever they nest. -/
theorem carries_recurseWithin (left : Nat) (ts : List Tree) :
    Carries limit left (.body ts) (recurseWithin left ts) := by
  induction left generalizing ts with
  | zero => exact carries_body (fun rest hrest => absurd hrest (by omega)) ts
  | succ left ih =>
    refine carries_body (fun rest hrest t us => ?_) ts
    obtain rfl : left = rest := Nat.succ.inj hrest
    exact ih us

theorem carries_visit (t : Tree) : Carries limit left (.body [t]) (Environment.visit t) := by
  intro env hleft
  rw [Environment.visit, Environment.run_eq]
  simp only [Recorder.environment, id, hleft]
  exact carries_recurseWithin left [t] env hleft

theorem delivers_process (t : Tree) (env : Environment) :
    Delivers limit (maxNesting - env.nesting) (.process t) env (Environment.process t env) := by
  have hprocess : Environment.process t env =
      ((fun env => Guard.traces.after ((do registerMacros t; Environment.visit t : Action Unit) env)) >>=
        fun _ => flush) env := by
    simp only [Environment.process, Bind.bind, EStateM.bind]
    cases registerMacros t env with
    | error e env => cases e <;> rfl
    | ok x env =>
      dsimp only
      cases Environment.visit t env with
      | error e env => cases e <;> rfl
      | ok x env => rfl
  rw [hprocess]
  refine delivers_bind ?_ fun _ _ _ _ => delivers_act elementary_flush
  have hregister : Carries limit (maxNesting - env.nesting) (.act (registerMacros t)) (registerMacros t) :=
    carries_act (elementary_change fun _ => rfl)
  refine delivers_guarded (g := .traces) (fun _ => rfl) (fun e env => ?_)
    (carries_bind hregister (fun _ => carries_visit t) env rfl)
  simp only [Guard.fail]
  split
  · rfl
  · exact e.isTooDeep_attachTrace env.running

end

/-! ### Whole runs -/

theorem Delivers.reaches_done {limit : Nat} {c : Command Unit} {env : Environment}
    {r : EStateM.Result TemplateError Environment Unit} (h : Delivers limit limit c env r) :
    ∃ tried, Reaches limit (.running c .empty env) (.done r) tried ∧
      (tried = true ↔ ∃ e env', r = .error e env' ∧ e.isTooDeep = true) := by
  have hempty : Stack.empty.levels + limit = limit := Nat.zero_add limit
  cases h with
  | @ok x env' _ reaches =>
    refine ⟨false, (reaches .empty hempty).append (.step (Nat.zero_le _) (fun h => h.1) (.here _)), by simp⟩
  | @error e env' reaches =>
    refine ⟨e.isTooDeep, (reaches .empty hempty).extend (.step (Nat.zero_le _) (fun h => h.1) (.here _)), ?_⟩
    constructor
    · intro h
      exact ⟨e, env', rfl, h⟩
    · rintro ⟨_, _, h, hdeep⟩
      cases h
      exact hdeep

namespace Machine

theorem iterate_done (r : EStateM.Result TemplateError Environment Unit) (n : Nat) :
    step^[n] (done r) = done r :=
  Function.iterate_fixed rfl n

theorem HasFailed.step {m : Machine} (h : m.HasFailed) : m.step.HasFailed := by
  match m, h with
  | .failing e stack env, _ => cases stack <;> exact trivial
  | .done (.error e env), _ => exact trivial

theorem HasFailed.iterate {m : Machine} {i j : Nat} (h : (Machine.step^[i] m).HasFailed) (hij : i ≤ j) :
    (Machine.step^[j] m).HasFailed := by
  induction hij with
  | refl => exact h
  | step _ ih =>
    rw [Function.iterate_succ_apply']
    exact ih.step

theorem Opens.not_hasFailed {m : Machine} (h : m.Opens) : ¬ m.HasFailed := by
  cases m with
  | running c stack env => exact fun h => h
  | failing | done => exact absurd h fun h => h

end Machine

end Execution

namespace Environment

open Execution

/-- Every run ends, and comes to what `process` gives. At every moment no more levels are open than there
can be, and a run ends with `tooDeep` if and only if its first fault is to try to open one more. -/
theorem process_ends (t : Tree) (env : Environment) :
    ∃ k, Machine.step^[k] (.start t env) = .done (process t env) ∧
      (∀ j, (Machine.step^[j] (.start t env)).levels ≤ maxNesting - env.nesting) ∧
      ((∃ e env', process t env = .error e env' ∧ e.isTooDeep = true) ↔
        ∃ j, (Machine.step^[j] (.start t env)).OpensAt (maxNesting - env.nesting) ∧
          ∀ i, (Machine.step^[i] (.start t env)).HasFailed ↔ j < i) := by
  obtain ⟨tried, hreaches, htried⟩ := (delivers_process t env).reaches_done
  obtain ⟨k, hk, hkeeps, hopens⟩ := hreaches.iterate
  -- After `k` steps nothing happens any more.
  have later : ∀ j, k ≤ j → Machine.step^[j] (.start t env) = .done (process t env) := by
    intro j hj
    rw [← Nat.sub_add_cancel hj, Function.iterate_add_apply]
    exact (congrArg _ hk).trans (Machine.iterate_done _ _)
  refine ⟨k, hk, fun j => ?_, htried.symm.trans (hopens.trans ⟨?_, ?_⟩)⟩
  · rcases Nat.lt_or_ge j k with hj | hj
    · exact (hkeeps j hj).levels
    · rw [later j hj]
      exact Nat.zero_le _
  · rintro ⟨j, hj, htry⟩
    -- The try fails in one step, and a run that has failed stays so: no fault can come before it.
    refine ⟨j, htry, fun i => ⟨fun hfailed => ?_, fun hlt => ?_⟩⟩
    · exact Nat.lt_of_not_le fun hij => htry.1.not_hasFailed (hfailed.iterate hij)
    · have hnext := (hkeeps j hj).fails htry
      rw [← Function.iterate_succ_apply' Machine.step] at hnext
      exact hnext.iterate hlt
  · rintro ⟨j, htry, -⟩
    refine ⟨j, Nat.lt_of_not_le fun hj => ?_, htry⟩
    have hdone := htry.1
    rw [later j hj] at hdone
    exact hdone

end Environment

end Stencil
