import Stencil.Proofs.Execution.Balance
import Stencil.Proofs.Execution.Evaluated

/-! # Simulations

Two runs of the same elements, from environments that differ in a given way. If the difference outlives every
elementary change of an environment, it outlives every run, and both runs end alike. What is open at the time
may shape the difference; it is its index, and closing leads back to the index from before.

A simulation may be one-sided. Then the first run may fail where the second does not. -/

namespace Stencil

/-- The template of a name, where an environment finds it. -/
def Environment.find (name : String) (env : Environment) : Except TemplateError Template :=
  match env.loader with
  | some loader => loader.load name
  | none => Loader.fail (.noRoot name)

namespace Execution

open Stencil.Action Recorder

/-- Both results are the same; or, if it is `oneSided`, the first is an error. -/
def Agrees {α : Type} (oneSided : Prop) (r r' : Except TemplateError α) : Prop :=
  r = r' ∨ oneSided ∧ ∃ e, r = .error e

/-- Results that are the same but for a difference between their states. An abandoned run leaves open what
it has opened. If it is `oneSided`, the first may be an error where the second is none. -/
inductive Follows {Index : Type} (related : Index → Environment → Environment → Prop) (oneSided : Prop)
    (i : Index) {α β : Type} (V : α → β → Prop) :
    EStateM.Result TemplateError Environment α → EStateM.Result TemplateError Environment β → Prop
  | ok {x : α} {x' : β} {env env' : Environment} (value : V x x') (same : related i env env') :
    Follows related oneSided i V (.ok x env) (.ok x' env')
  | error (e : TemplateError) {j : Index} {env env' : Environment} (same : related j env env')
    (closed : e.abandons = false → j = i) : Follows related oneSided i V (.error e env) (.error e env')
  | refused (h : oneSided) (e : TemplateError) (env : Environment)
    (r : EStateM.Result TemplateError Environment β) :
    Follows related oneSided i V (.error e env) r

/-- A difference between environments that elementary changes keep. -/
structure Simulation where
  /-- What is open, as far as it matters. -/
  Index : Type
  Related : Index → Environment → Environment → Prop
  oneSided : Prop
  context {i : Index} {env env' : Environment} : Related i env env' → env'.context = env.context
  macros {i : Index} {env env' : Environment} : Related i env env' → env'.macros = env.macros
  nesting_le {i : Index} {env env' : Environment} : Related i env env' → env'.nesting ≤ env.nesting
  nesting_eq {i : Index} {env env' : Environment} : ¬ oneSided → Related i env env' →
    env'.nesting = env.nesting
  find {i : Index} {env env' : Environment} (name : String) : Related i env env' →
    Agrees oneSided (env.find name) (env'.find name)
  withContext {i : Index} {env env' : Environment} (context : Context) : Related i env env' →
    Related i { env with context } { env' with context }
  withMacros {i : Index} {env env' : Environment} (macros : Bindings Tree) : Related i env env' →
    Related i { env with macros } { env' with macros }
  withRunning {i : Index} {env env' : Environment} (f : List String → List String) : Related i env env' →
    Related i { env with running := f env.running } { env' with running := f env'.running }
  withNesting {i : Index} {env env' : Environment} {f : Nat → Nat} : (∀ m n, m ≤ n → f m ≤ f n) →
    Related i env env' →
    Related i { env with nesting := f env.nesting } { env' with nesting := f env'.nesting }
  writing {i : Index} {env env' : Environment} (text : String) : Related i env env' →
    Follows Related oneSided i Whatever ((write text : Action Unit) env) ((write text : Action Unit) env')
  /-- What has been captured is the same on both sides. -/
  capture {i : Index} {env env' : Environment} : Related i env env' → ∃ j,
    Related j { env with captures := "" :: env.captures } { env' with captures := "" :: env'.captures } ∧
    ∀ after after', Related j after after' → after'.captures.head? = after.captures.head? ∧
      Related i (Enclosure.capture.close after) (Enclosure.capture.close after')
  inclusion {i : Index} {env env' : Environment} (name : String) : Related i env env' → ∃ j,
    Related j { env with loader := env.loader.map (·.beginInclusion name) }
      { env' with loader := env'.loader.map (·.beginInclusion name) } ∧
    ∀ after after', Related j after after' →
      Related i (Enclosure.inclusion.close after) (Enclosure.inclusion.close after')

namespace Simulation

variable (S : Simulation)

/-- Actions with such results wherever environments differ as given. -/
def Simulates {α β : Type} (V : α → β → Prop) (act : Action α) (act' : Action β) : Prop :=
  ∀ i env env', S.Related i env env' → Follows S.Related S.oneSided i V (act env) (act' env')

section
variable {S} {α β : Type} {V : α → β → Prop}

/-! ### Steps -/

theorem simulates_pure {x : α} {x' : β} (h : V x x') : S.Simulates V (pure x) (pure x') :=
  fun _ _ _ hs => .ok h hs

theorem simulates_throw (e : TemplateError) : S.Simulates V (throw e) (throw e) :=
  fun _ _ _ hs => .error e hs fun _ => rfl

theorem simulates_bind {α' β' : Type} {W : α' → β' → Prop} {act : Action α} {act' : Action β}
    {f : α → Action α'} {f' : β → Action β'} (h : S.Simulates V act act')
    (hf : ∀ x x', V x x' → S.Simulates W (f x) (f' x')) :
    S.Simulates W (act >>= f) (act' >>= f') := by
  intro i env env' hs
  have hact := h i env env' hs
  simp only [bind, EStateM.bind]
  generalize act env = r at hact
  generalize act' env' = r' at hact
  cases hact with
  | ok value related => exact hf _ _ value i _ _ related
  | error e related closed => exact .error e related closed
  | refused h e env => exact .refused h e env _

theorem simulates_observe {f f' : Environment → Except TemplateError α}
    (h : ∀ i env env', S.Related i env env' → Agrees S.oneSided (f env) (f' env')) :
    S.Simulates Eq (observe f) (observe f') := by
  intro i env env' hs
  simp only [observe, environment, id]
  rcases h i env env' hs with hsame | ⟨hside, e, he⟩
  · rw [hsame]
    cases f' env' with
    | ok x => exact .ok rfl hs
    | error e => exact .error e hs fun _ => rfl
  · rw [he]
    exact .refused hside e env _

theorem simulates_evaluate (e : Expr) : S.Simulates Eq (evaluate e) (evaluate e) := by
  refine simulates_observe fun i env env' hs => ?_
  rw [S.context hs]
  by_cases hside : S.oneSided
  · cases hvalue : e.evaluateWithin (maxNesting - env.nesting) env.context with
    | error err => exact .inr ⟨hside, err, rfl⟩
    | ok v =>
      have hlevels : maxNesting - env.nesting ≤ maxNesting - env'.nesting :=
        Nat.sub_le_sub_left (S.nesting_le hs) _
      exact .inl (Expr.yields_evaluateWithin Value.inherited_true
        (fun _ _ _ => trivial) hlevels e v hvalue).1.symm
  · rw [S.nesting_eq hside hs]
    exact .inl rfl

theorem simulates_change {f : Environment → Environment}
    (h : ∀ i env env', S.Related i env env' → S.Related i (f env) (f env')) :
    S.Simulates Whatever (change f) (change f) :=
  fun i env env' hs => .ok trivial (h i env env' hs)

theorem simulates_modifyContext (f : Context → Context) :
    S.Simulates Whatever (modifyContext f) (modifyContext f) := by
  refine simulates_change fun i env env' hs => ?_
  rw [S.context hs]
  exact S.withContext _ hs

theorem simulates_write (text : String) : S.Simulates Whatever (write text) (write text) :=
  fun _ _ _ => S.writing text

theorem simulates_mapError {f : TemplateError → TemplateError} (hf : ∀ e, (f e).abandons = e.abandons)
    {act : Action α} {act' : Action β} (h : S.Simulates V act act') :
    S.Simulates V (mapError f act) (mapError f act') := by
  intro i env env' hs
  have hact := h i env env' hs
  simp only [mapError]
  generalize act env = r at hact
  generalize act' env' = r' at hact
  cases hact with
  | ok value related => exact .ok value related
  | error e related closed => exact .error (f e) related (hf e ▸ closed)
  | refused h e env => exact .refused h (f e) env _

/-- Something is opened on both sides and closed again. -/
theorem simulates_enclosed {e : Enclosure} {f : Environment → Environment}
    (hf : ∀ i env env', S.Related i env env' → ∃ j, S.Related j (f env) (f env') ∧
      ∀ after after', S.Related j after after' → S.Related i (e.close after) (e.close after'))
    {act : Action α} {act' : Action β} (h : S.Simulates V act act') :
    S.Simulates V (do change f; closing e act) (do change f; closing e act') := by
  intro i env env' hs
  obtain ⟨j, hopened, hclose⟩ := hf i env env' hs
  have hact := h j _ _ hopened
  simp only [bind, EStateM.bind, change, environment, put, id, closing]
  generalize act (f env) = r at hact
  generalize act' (f env') = r' at hact
  cases hact with
  | ok value related => exact .ok value (hclose _ _ related)
  | error err related closed =>
    cases habandons : err.abandons with
    | true =>
      simp only [habandons, if_true]
      exact .error err related fun h => absurd (habandons.symm.trans h) (by decide)
    | false =>
      obtain rfl := closed habandons
      simp only [habandons, Bool.false_eq_true, if_false]
      exact .error err (hclose _ _ related) fun _ => rfl
  | refused hside err env => exact .refused hside err _ _

theorem simulates_enter {t t' : Tree} (hsite : ErrorSite.ofTree t = .ofTree t') {act : Action α}
    {act' : Action β} (h : S.Simulates V act act') :
    S.Simulates V (do enter t; closing .level act) (do enter t'; closing .level act') := by
  have henclosed := simulates_enclosed (e := .level) (f := fun env => { env with nesting := env.nesting + 1 })
    (fun i env env' hs => ⟨i, S.withNesting (fun _ _ hle => Nat.succ_le_succ hle) hs,
      fun _ _ related => S.withNesting (fun _ _ hle => Nat.sub_le_sub_right hle 1) related⟩) h
  intro i env env' hs
  simp only [enter_closing, environment, id]
  by_cases hdeep : env.nesting ≥ maxNesting
  · by_cases hside : S.oneSided
    · rw [if_pos hdeep]
      exact .refused hside _ env _
    · have hdeep' : env'.nesting ≥ maxNesting := S.nesting_eq hside hs ▸ hdeep
      rw [if_pos hdeep, if_pos hdeep', hsite]
      exact .error _ hs fun _ => rfl
  · have hdeep' : ¬ env'.nesting ≥ maxNesting := fun hdeep' => hdeep (Nat.le_trans hdeep' (S.nesting_le hs))
    rw [if_neg hdeep, if_neg hdeep']
    exact henclosed i env env' hs

theorem simulates_includeTemplate {callee callee' : Tree → List Tree → Action Unit} {t t' : Tree}
    (name : String) (h : ∀ u, S.Simulates Whatever (callee t [u]) (callee' t' [u])) :
    S.Simulates Whatever (includeTemplate callee t name) (includeTemplate callee' t' name) := by
  have hfound : S.Simulates Eq (observe (·.find name)) (observe (·.find name)) :=
    simulates_observe fun i env env' hs => S.find name hs
  refine simulates_bind hfound ?_
  rintro template _ rfl
  have hregister : S.Simulates Whatever (registerMacros template.tree) (registerMacros template.tree) := by
    refine simulates_change fun i env env' hs => ?_
    rw [S.macros hs]
    exact S.withMacros _ hs
  refine simulates_bind hregister fun _ _ _ => ?_
  exact simulates_enclosed (fun i env env' hs => S.inclusion name hs) (h template.tree)

theorem simulates_listed (t : Tree) {act : Action α} {act' : Action β} (h : S.Simulates V act act') :
    S.Simulates V (do beginElement t; let x ← telling t act; endElement t; return x)
      (do beginElement t; let x ← telling t act'; endElement t; return x) := by
  have htell : ∀ e, S.Simulates Whatever (tell e) (tell e) :=
    fun e => simulates_change (f := id) fun _ _ _ hs => hs
  have hbegin : S.Simulates Whatever (beginElement t) (beginElement t) := by
    refine simulates_bind (htell _) fun _ _ _ => ?_
    split
    · exact simulates_change fun _ _ _ hs => S.withRunning (traceLine t :: ·) hs
    · exact simulates_pure trivial
  have hend : S.Simulates Whatever (endElement t) (endElement t) := by
    unfold endElement
    split
    · have hforget : S.Simulates Whatever (change fun env => { env with running := env.running.tail })
          (change fun env => { env with running := env.running.tail }) :=
        simulates_change fun _ _ _ hs => S.withRunning List.tail hs
      exact simulates_bind hforget fun _ _ _ => htell _
    · exact htell _
  rw [telling_eq, telling_eq]
  exact simulates_bind hbegin fun _ _ _ => simulates_bind h fun _ _ hx =>
    simulates_bind hend fun _ _ _ => simulates_pure hx

theorem simulates_capture {body body' : Action Unit} (h : S.Simulates Whatever body body') :
    S.Simulates Eq (do beginCapture; closing .capture do body; return (← current).captures.head?.getD "")
      (do beginCapture; closing .capture do body'; return (← current).captures.head?.getD "") := by
  intro i env env' hs
  obtain ⟨j, hopened, hclose⟩ := S.capture hs
  have hbody := h j _ _ hopened
  simp only [bind, EStateM.bind, beginCapture, change, environment, put, id, closing,
    current, pure, EStateM.pure]
  generalize body { env with captures := "" :: env.captures } = r at hbody
  generalize body' { env' with captures := "" :: env'.captures } = r' at hbody
  cases hbody with
  | ok value related =>
    obtain ⟨hhead, hclosed⟩ := hclose _ _ related
    exact .ok (by rw [hhead]) hclosed
  | error err related closed =>
    cases habandons : err.abandons with
    | true =>
      simp only [habandons, if_true]
      exact .error err related fun h => absurd (habandons.symm.trans h) (by decide)
    | false =>
      obtain rfl := closed habandons
      simp only [habandons, Bool.false_eq_true, if_false]
      exact .error err (hclose _ _ related).2 fun _ => rfl
  | refused hside err env => exact .refused hside err _ _

end

/-! ### Runs -/

/-- A simulation, construct by construct. -/
def correspondence : Correspondence Environment Environment where
  node := Eq
  rewrites _ _ := False
  expr := Eq
  site := Eq
  value _ := True
  relates := S.Simulates
  node_kind := kind_like_of_eq
  node_site := site_eq_of_eq
  expr_site := expr_site_eq_of_eq
  expr_canonical := canonical_eq_of_eq
  value_inherited := Value.inherited_true
  pure := simulates_pure
  bind := simulates_bind
  raise h := h.eq ▸ simulates_throw _
  evaluate h := by simpa only [and_true] using h ▸ simulates_evaluate _
  write := simulates_write
  setGlobal _ _ _ := simulates_modifyContext _
  macros _ env env' hs := by
    refine .ok ?_ hs
    simp only [environment, id, S.macros hs]
    exact MacrosAlike.self (fun _ => rfl) env.macros
  inScope {bindings} isolated _ _ _ hbody := by
    refine simulates_enclosed (e := .scope)
      (f := fun env => { env with context := env.context.pushScope bindings isolated })
      (fun i env env' hs => ⟨i, ?_, fun after after' related => ?_⟩) hbody
    · simp only [S.context hs]
      exact S.withContext _ hs
    · simp only [Enclosure.close, S.context related]
      exact S.withContext _ related
  inLevel hsite h := simulates_enter hsite h
  inCapture := simulates_capture
  inInclusion {t t' _ _} name hsite h := by
    have hinclude := simulates_includeTemplate name fun u => h u u (Alike.self (fun _ => rfl) false [u])
    rw [TemplateError.locatedAt_congr hsite]
    exact simulates_mapError (fun e => e.abandons_locatedAt t) hinclude
  listed ht h := ht ▸ simulates_listed _ h
  rewriting h := h.elim

section
variable {S}

/-- Bodies that are alike run alike when as many levels of nesting may be opened on both sides, or more on the
second side of a one-sided simulation. -/
theorem simulates_recurseWithin {levels levels' : Nat} (hle : levels ≤ levels')
    (heq : ¬ S.oneSided → levels' = levels) {ts ts' : List Tree} (h : S.correspondence.Bodies ts ts') :
    S.Simulates Whatever (recurseWithin levels ts) (recurseWithin levels' ts') := by
  induction levels generalizing levels' ts ts' with
  | zero =>
    cases levels' with
    | zero =>
      refine (S.correspondence.relates_recurseAll (fun t t' _ _ hsite _ => ?_) h).1
      exact S.correspondence.raise (.tooDeep _ hsite)
    | succ more =>
      have hside : S.oneSided := Classical.byContradiction fun hside => absurd (heq hside) (by simp)
      refine (S.correspondence.relates_recurseAll (fun t t' _ _ hsite _ => ?_) h).1
      exact fun i env _ _ => .refused hside _ env _
  | succ levels ih =>
    obtain ⟨more, rfl⟩ : ∃ more, levels' = more + 1 := ⟨levels' - 1, by omega⟩
    refine (S.correspondence.relates_recurseAll (fun _ _ _ _ _ hbodies => ?_) h).1
    exact ih (Nat.le_of_succ_le_succ hle) (fun hside => Nat.succ.inj (heq hside)) hbodies

theorem follows_run {i : S.Index} {env env' : Environment} (h : S.Related i env env') (ts : List Tree) :
    Follows S.Related S.oneSided i Whatever (Environment.run ts env) (Environment.run ts env') := by
  rw [Environment.run_eq]
  refine simulates_recurseWithin (Nat.sub_le_sub_left (S.nesting_le h) _) (fun hside => ?_)
    (Alike.self (fun _ => rfl) false ts) i env env' h
  exact congrArg (maxNesting - ·) (S.nesting_eq hside h)

end

end Simulation

end Execution

end Stencil
