import Stencil.Proofs.Execution.Calm

/-! # Traces

An error tells what was running when it arose. What is running can be read off the history of the run: what
has begun and not ended. The environment lists it on the side, and keeps it when an error leaves the elements
it went through, so that at the end of a failed run the list is still that of the first fault. -/

namespace Stencil

/-! ### What is in progress -/

/-- What has begun and not ended in a history without faults, innermost first. What ends is what began
last. -/
inductive InProgress : List Moment → List Tree → Prop
  | none : InProgress [] []
  | begins {ms : List Moment} {ts : List Tree} (t : Tree) (env : Environment) (h : InProgress ms ts) :
    InProgress (ms ++ [⟨.begins t, env⟩]) (t :: ts)
  | ends {ms : List Moment} {t : Tree} {ts : List Tree} (env : Environment) (h : InProgress ms (t :: ts)) :
    InProgress (ms ++ [⟨.ends t, env⟩]) ts
  | closes {ms : List Moment} {ts : List Tree} (e : Enclosure) (env : Environment) (h : InProgress ms ts) :
    InProgress (ms ++ [⟨.closes e, env⟩]) ts

theorem InProgress.no_fault {ms : List Moment} {ts : List Tree} (h : InProgress ms ts) :
    ∀ m ∈ ms, ¬ m.IsFault := by
  have hlast : ∀ {ms : List Moment} {m : Moment}, (∀ m ∈ ms, ¬ m.IsFault) → ¬ m.IsFault →
      ∀ m' ∈ ms ++ [m], ¬ m'.IsFault := by
    intro ms m hms hm m' hm'
    rcases List.mem_append.1 hm' with hm' | hm'
    · exact hms m' hm'
    · exact List.mem_singleton.1 hm' ▸ hm
  induction h with
  | none => simp
  | begins t env _ ih => exact hlast ih fun ⟨_, _, h⟩ => by cases h
  | ends env _ ih => exact hlast ih fun ⟨_, _, h⟩ => by cases h
  | closes e env _ ih => exact hlast ih fun ⟨_, _, h⟩ => by cases h

/-- A history tells what is in progress. -/
theorem InProgress.unique {ms : List Moment} {ts us : List Tree} (h : InProgress ms ts)
    (h' : InProgress ms us) : ts = us := by
  induction h generalizing us with
  | none =>
    generalize hms : ([] : List Moment) = ms at h'
    cases h' <;> simp at hms
    rfl
  | @begins ms ts t env _ ih =>
    generalize hms : ms ++ [(⟨.begins t, env⟩ : Moment)] = ms' at h'
    cases h' with
    | none => simp at hms
    | begins u env' h' =>
      obtain ⟨rfl, hm⟩ := List.append_inj' hms rfl
      cases hm
      rw [ih h']
    | ends | closes => simp at hms
  | @ends ms t ts env _ ih =>
    generalize hms : ms ++ [(⟨.ends t, env⟩ : Moment)] = ms' at h'
    cases h' with
    | none => simp at hms
    | ends env' h' =>
      obtain ⟨rfl, hm⟩ := List.append_inj' hms rfl
      cases hm
      exact (List.cons.inj (ih h')).2
    | begins | closes => simp at hms
  | @closes ms ts e env _ ih =>
    generalize hms : ms ++ [(⟨.closes e, env⟩ : Moment)] = ms' at h'
    cases h' with
    | none => simp at hms
    | closes e' env' h' =>
      obtain ⟨rfl, hm⟩ := List.append_inj' hms rfl
      exact ih h'
    | begins | ends => simp at hms

/-- The first fault of a history, with what is running there: the element that fails, and what it is in. -/
def FirstFault (ms : List Moment) (e : TemplateError) (running : List Tree) : Prop :=
  ∃ before env after t outer, ms = before ++ ⟨.fails t e, env⟩ :: after ∧ running = t :: outer ∧
    InProgress before running

/-- There is one first fault. -/
theorem FirstFault.unique {ms : List Moment} {e e' : TemplateError} {running running' : List Tree}
    (h : FirstFault ms e running) (h' : FirstFault ms e' running') : running = running' := by
  obtain ⟨before, env, after, t, outer, hms, -, hbefore⟩ := h
  obtain ⟨before', env', after', t', outer', hms', -, hbefore'⟩ := h'
  rcases List.append_eq_append_iff.1 (hms.symm.trans hms') with ⟨l, rfl, hl⟩ | ⟨l, rfl, hl⟩
  · cases l with
    | nil => exact hbefore.unique (by rwa [List.append_nil] at hbefore')
    | cons m l =>
      obtain ⟨rfl, -⟩ := List.cons.inj hl
      exact absurd ⟨t, e, rfl⟩ (hbefore'.no_fault _ (List.mem_append_right _ List.mem_cons_self))
  · cases l with
    | nil => exact InProgress.unique (by rwa [List.append_nil] at hbefore) hbefore'
    | cons m l =>
      obtain ⟨rfl, -⟩ := List.cons.inj hl
      exact absurd ⟨t', e', rfl⟩ (hbefore.no_fault _ (List.mem_append_right _ List.mem_cons_self))

/-- Some moments after which so many more elements are in progress, whatever was before them. -/
def Deepens (l : List Moment) (added : List Tree) : Prop :=
  ∀ ⦃ms : List Moment⦄ ⦃ts : List Tree⦄, InProgress ms ts → InProgress (ms ++ l) (added ++ ts)

theorem deepens_nil : Deepens [] [] := fun _ _ h => by rwa [List.append_nil]

theorem deepens_begins (t : Tree) (env : Environment) : Deepens [⟨.begins t, env⟩] [t] :=
  fun _ _ h => h.begins t env

theorem deepens_closes (e : Enclosure) (env : Environment) : Deepens [⟨.closes e, env⟩] [] :=
  fun _ _ h => h.closes e env

theorem Deepens.append {l l' : List Moment} {ts ts' : List Tree} (h : Deepens l ts) (h' : Deepens l' ts') :
    Deepens (l ++ l') (ts' ++ ts) := by
  intro ms us hms
  have hall := h' (h hms)
  rwa [List.append_assoc, ← List.append_assoc ts'] at hall

theorem Deepens.ends {l : List Moment} {t : Tree} (h : Deepens l [t]) (env : Environment) :
    Deepens (l ++ [⟨.ends t, env⟩]) [] := by
  intro ms ts hms
  rw [← List.append_assoc]
  exact (h hms).ends env

namespace Execution

open Stencil.Action Recorder Stencil.TemplateError

/-- The lines of those of some elements that are listed. -/
def traceLines (ts : List Tree) : List String := (ts.filter (·.kind.isTraced)).map traceLine

theorem traceLines_append (ts us : List Tree) : traceLines (ts ++ us) = traceLines ts ++ traceLines us := by
  rw [traceLines, List.filter_append, List.map_append]
  rfl

theorem traceLines_singleton (t : Tree) : traceLines [t] = if t.kind.isTraced then [traceLine t] else [] := by
  unfold traceLines
  cases htraced : t.kind.isTraced <;> simp [htraced]

/-! ### What a run leaves in progress -/

/-- Nothing is left in progress on the way from one state to another, and the same elements are listed. -/
def Passed (h h' : History) : Prop :=
  ∃ l, h'.moments = h.moments ++ l ∧ Deepens l [] ∧ h'.environment.running = h.environment.running

/-- An element has failed with an error on the way from one state to another, where so much was in progress.
What is listed shows it. -/
def Failed (h : History) (e : TemplateError) (h' : History) : Prop :=
  ∃ l t outer env after, h'.moments = h.moments ++ (l ++ ⟨.fails t e, env⟩ :: after) ∧
    Deepens l (t :: outer) ∧
    h'.environment.running = traceLines (t :: outer) ++ h.environment.running ∧ e.Blames t

section
variable {h h' h'' : History} {e : TemplateError}

theorem Passed.of_same (moments : h'.moments = h.moments)
    (running : h'.environment.running = h.environment.running) :
    Passed h h' := ⟨[], by rw [moments, List.append_nil], deepens_nil, running⟩

theorem Passed.trans (first : Passed h h') (second : Passed h' h'') : Passed h h'' := by
  obtain ⟨l, hl, hdeep, hrunning⟩ := first
  obtain ⟨l', hl', hdeep', hrunning'⟩ := second
  exact ⟨l ++ l', by rw [hl', hl, List.append_assoc], hdeep.append hdeep', hrunning'.trans hrunning⟩

theorem Passed.failed (first : Passed h h') (fault : Failed h' e h'') : Failed h e h'' := by
  obtain ⟨l, hl, hdeep, hrunning⟩ := first
  obtain ⟨l', t, outer, env, after, hl', hdeep', hrunning', hblames⟩ := fault
  refine ⟨l ++ l', t, outer, env, after, ?_, ?_, by rw [hrunning', hrunning], hblames⟩
  · rw [hl', hl]
    simp only [List.append_assoc]
  · have hall := hdeep.append hdeep'
    rwa [List.append_nil] at hall

/-- What happens after the fault does not count. -/
theorem Failed.followed (fault : Failed h e h') {l : List Moment} (moments : h''.moments = h'.moments ++ l)
    (running : h''.environment.running = h'.environment.running) : Failed h e h'' := by
  obtain ⟨l', t, outer, env, after, hl', hdeep, hrunning, hblames⟩ := fault
  refine ⟨l', t, outer, env, after ++ l, ?_, hdeep, running.trans hrunning, hblames⟩
  rw [moments, hl']
  simp only [List.append_assoc, List.cons_append]

end

/-- A result of a run: it went through, or raised an error of its own, or an element in it has failed. -/
inductive Outcome {α : Type} (own : TemplateError → Prop) (h : History) :
    EStateM.Result TemplateError History α → Prop
  | ok {x : α} {h' : History} (passed : Passed h h') : Outcome own h (.ok x h')
  | raised {e : TemplateError} {h' : History} (passed : Passed h h') (raised : own e) :
    Outcome own h (.error e h')
  | failed {e : TemplateError} {h' : History} (fault : Failed h e h') : Outcome own h (.error e h')

/-- Actions with such results, which raise such errors themselves. -/
def Faithful {α : Type} (own : TemplateError → Prop) (act : Run History α) : Prop :=
  ∀ h, Outcome own h (act h)

section
variable {α β : Type} {own : TemplateError → Prop} {act : Run History α}

theorem Outcome.after {h h' : History} {r : EStateM.Result TemplateError History α} (first : Passed h h')
    (hr : Outcome own h' r) :
    Outcome own h r := by
  cases hr with
  | ok passed => exact .ok (first.trans passed)
  | raised passed raised => exact .raised (first.trans passed) raised
  | failed fault => exact .failed (first.failed fault)

theorem Outcome.bind {h h' : History} {f : α → Run History β} (hact : Outcome own h (act h'))
    (hf : ∀ x h'', Passed h h'' → Outcome own h (f x h'')) : Outcome own h ((act >>= f) h') := by
  simp only [Bind.bind, EStateM.bind]
  generalize act h' = r at hact
  cases hact with
  | raised passed raised => exact .raised passed raised
  | failed fault => exact .failed fault
  | ok passed => exact hf _ _ passed

theorem Outcome.closing {h h' : History} (e : Enclosure) (hact : Outcome own h (act h')) :
    Outcome own h (closing e act h') := by
  have running : ∀ h : History, (closed e h).environment.running = h.environment.running :=
    fun h => by cases e <;> rfl
  have passed : ∀ h : History, Passed h (closed e h) := fun h =>
    ⟨[⟨.closes e, h.environment⟩], rfl, deepens_closes e _, running h⟩
  unfold Action.closing
  generalize act h' = r at hact
  cases hact with
  | ok first => exact .ok (first.trans (passed _))
  | raised first raised =>
    dsimp only
    split
    · exact .raised first raised
    · exact .raised (first.trans (passed _)) raised
  | failed fault =>
    dsimp only
    split
    · exact .failed fault
    · exact .failed (fault.followed rfl (running _))

theorem Faithful.weaken {own' : TemplateError → Prop} (hact : Faithful own act) (hown : ∀ e, own e → own' e) :
    Faithful own' act := by
  intro h
  have hresult := hact h
  generalize act h = r at hresult ⊢
  cases hresult with
  | ok passed => exact .ok passed
  | raised passed raised => exact .raised passed (hown _ raised)
  | failed fault => exact .failed fault

theorem Faithful.blames (hact : Faithful Plain act) (t : Tree) : Faithful (Blames t) act :=
  hact.weaken fun _ he => he.blames t

theorem faithful_pure (x : α) : Faithful own (pure x : Run History α) := fun _ => .ok (.of_same rfl rfl)

theorem faithful_throw {e : TemplateError} (he : own e) : Faithful own (throw e : Run History α) :=
  fun _ => .raised (.of_same rfl rfl) he

theorem faithful_bind {f : α → Run History β} (hact : Faithful own act) (hf : ∀ x, Faithful own (f x)) :
    Faithful own (act >>= f) := fun h => (hact h).bind fun x h' first => (hf x h').after first

theorem faithful_current : Faithful own (current : Run History Environment) := fun _ => .ok (.of_same rfl rfl)

theorem faithful_change {f : Environment → Environment} (running : ∀ env, (f env).running = env.running) :
    Faithful own (change f : Run History Unit) := fun h => .ok (.of_same rfl (running h.environment))

theorem faithful_observe {f : Environment → Except TemplateError α} (hf : ∀ env e, f env = .error e → own e) :
    Faithful own (observe f : Run History α) := by
  intro h
  unfold observe
  split
  · exact .ok (.of_same rfl rfl)
  · next he => exact .raised (.of_same rfl rfl) (hf _ _ he)

theorem Quiet.faithful (hact : Quiet act) : Faithful Plain act := by
  intro h
  have hresult := hact h
  generalize act h = r at hresult
  cases hresult with
  | ok still => exact .ok (.of_same still.moments still.running)
  | error still plain => exact .raised (.of_same still.moments still.running) plain

theorem faithful_enter (t : Tree) : Faithful Plain (enter t : Run History Unit) := by
  refine faithful_bind faithful_current fun env => ?_
  split
  · exact faithful_throw (plain_of_site rfl rfl rfl)
  · exact faithful_change fun _ => rfl

theorem faithful_closing (e : Enclosure) (hact : Faithful own act) : Faithful own (closing e act) :=
  fun h => (hact h).closing e

/-- The discipline of faithful actions that go on from a state. -/
def faithfulness (h : History) : Discipline where
  begins := Passed h
  allows := Outcome Plain h
  calm hact first := (hact.quiet.faithful _).after first
  bind hact hf := hact.bind hf
  closing _ hact := hact.closing _

theorem Faithful.keeps (hact : Faithful Plain act) (h : History) : (faithfulness h).Keeps act :=
  fun h' first => (hact h').after first

/-! ### Actions of an element -/

section
variable {body : Run History Unit} {callee : Tree → List Tree → Run History Unit}

theorem faithful_callMacro (hcallee : ∀ site ts, Faithful Plain (callee site ts)) (t : Tree) (name : String)
    (arguments : List Expr) : Faithful Plain (callMacro callee t name arguments) := by
  refine faithful_bind faithful_current fun env => ?_
  split
  · exact faithful_throw (plain_of_site rfl rfl rfl)
  · split
    · split
      · exact faithful_throw (plain_of_site rfl rfl rfl)
      · refine faithful_bind (quiet_bindParameters _ _ _).faithful fun bindings => ?_
        refine faithful_bind (faithful_enter t) fun _ => faithful_closing .level ?_
        exact faithful_bind (quiet_pushScope _ _).faithful fun _ => faithful_closing .scope (hcallee _ _)
    · exact faithful_throw (plain_of_site rfl rfl rfl)

theorem faithful_includeTemplate (hcallee : ∀ site ts, Faithful Plain (callee site ts))
    (t : Tree) (name : String) :
    Faithful (Fresh (· = none)) (includeTemplate callee t name) := by
  refine faithful_bind (faithful_observe fun env e he => ?_) fun template => ?_
  · split at he
    · exact fresh_of_siteless (Loader.site?_load he)
    · cases he
      exact fresh_of_siteless rfl
  · refine faithful_bind (faithful_change fun _ => rfl) fun _ => ?_
    refine faithful_bind (faithful_change fun _ => rfl) fun _ => faithful_closing .inclusion ?_
    exact (hcallee t _).weaken fun _ he => he.weaken nofun

/-- Of the errors of an inclusion only its own are placed; those from inside have their place. -/
theorem faithful_located {act : Run History Unit} (hact : Faithful (Fresh (· = none)) act) {t : Tree}
    (ht : t.kind.isInclusion) : Faithful (Blames t) (mapError (·.locatedAt t) act) := by
  intro h
  have hresult := hact h
  unfold mapError
  generalize act h = r at hresult
  cases hresult with
  | ok passed => exact .ok passed
  | raised passed raised => exact .raised passed (raised.locatedAt ht)
  | @failed e _ fault =>
    obtain ⟨l, u, outer, env, after, hl, hdeep, hrunning, hblames⟩ := fault
    dsimp only
    rw [hblames.locatedAt_eq t]
    exact .failed ⟨l, u, outer, env, after, hl, hdeep, hrunning, hblames⟩

theorem faithful_runInclusion (hcallee : ∀ site ts, Faithful Plain (callee site ts)) {t : Tree}
    (ht : t.kind.isInclusion) (path : Expr) : Faithful (Blames t) (runInclusion callee t path) := by
  refine faithful_bind ((quiet_evaluate path).faithful.blames t) fun v => ?_
  split
  · refine faithful_bind ((faithful_enter t).blames t) fun _ => faithful_closing .level ?_
    exact faithful_located (faithful_includeTemplate hcallee t _) ht
  · exact faithful_throw (plain_of_site rfl rfl rfl |>.blames t)

/-- An element's own action. -/
theorem faithful_perform (hcallee : ∀ site ts, Faithful Plain (callee site ts))
    (hbody : Faithful Plain body) (t : Tree) :
    Faithful (Blames t) (perform callee body t) := by
  rcases t.kind.elsewhere_or_ne with ⟨name, arguments, hkind⟩ | ⟨path, hkind⟩ | ⟨hcall, hinclusion⟩
  · simp only [perform, hkind]
    exact faithful_bind ((faithful_callMacro hcallee t name arguments).blames t) fun _ => faithful_pure _
  · simp only [perform, hkind]
    exact faithful_bind (faithful_runInclusion hcallee (by rw [hkind, Kind.isInclusion]) path) fun _ =>
      faithful_pure _
  · have hkept (h : History) : Outcome Plain h (perform callee body t h) :=
      (faithfulness h).keeps_perform hcall hinclusion (fun _ => hbody.keeps h) h (.of_same rfl rfl)
    exact Faithful.blames hkept t

end

/-! ### Elements with what they hand back -/

theorem running_listing (t : Tree) (env : Environment) :
    (listing t env).running = traceLines [t] ++ env.running := by
  rw [traceLines_singleton, listing]
  cases t.kind.isTraced <;> rfl

theorem running_unlisting {t : Tree} {env : Environment} {rest : List String}
    (hrest : env.running = traceLines [t] ++ rest) :
    (unlisting t env).running = rest := by
  rw [traceLines_singleton] at hrest
  rw [unlisting, hrest]
  cases t.kind.isTraced <;> rfl

/-- An action that raises no error itself: it goes through, or an element in it fails. -/
abbrev Clean {α : Type} (act : Run History α) : Prop := Faithful (fun _ => False) act

section
variable {callee : Tree → List Tree → Run History Unit}

/-- What an element raises itself is its fault, and it is the innermost one that is running. What comes from
an element in it is the fault of that one, and the element itself is one more that is running. -/
theorem clean_execute {body : Run History Unit} (hcallee : ∀ site ts, Faithful Plain (callee site ts))
    (hbody : Faithful Plain body) (t : Tree) : Clean (execute callee body t) := by
  intro h
  have hrunning := running_listing t h.environment
  have hperform := faithful_perform hcallee hbody t
    ⟨listing t h.environment, h.moments ++ [⟨.begins t, h.environment⟩]⟩
  simp only [execute, Bind.bind, EStateM.bind, beginElement_eq, telling]
  generalize perform callee body t _ = r at hperform ⊢
  cases hperform with
  | @ok handed h₂ passed =>
    obtain ⟨l, hl, hdeep, hsame⟩ := passed
    simp only [endElement_eq, Pure.pure, EStateM.pure]
    refine .ok ⟨[⟨.begins t, h.environment⟩] ++ l ++ [⟨.ends t, unlisting t h₂.environment⟩], ?_, ?_,
      running_unlisting (hsame.trans hrunning)⟩
    · simp only [hl, List.append_assoc]
    · exact Deepens.ends ((deepens_begins t h.environment).append hdeep) _
  | @raised e h₂ passed raised =>
    obtain ⟨l, hl, hdeep, hsame⟩ := passed
    refine .failed ⟨[⟨.begins t, h.environment⟩] ++ l, t, [], h₂.environment, [], ?_, ?_,
      hsame.trans hrunning, raised⟩
    · change h₂.moments ++ _ = _
      simp only [hl, List.append_assoc]
    · exact (deepens_begins t h.environment).append hdeep
  | @failed e h₂ fault =>
    obtain ⟨l, u, outer, env, after, hl, hdeep, hsame, hblames⟩ := fault
    refine .failed ⟨[⟨.begins t, h.environment⟩] ++ l, u, outer ++ [t], env,
      after ++ [⟨.fails t e, h₂.environment⟩], ?_, ?_, ?_, hblames⟩
    · change h₂.moments ++ _ = _
      simp only [hl, List.append_assoc, List.cons_append]
    · exact (deepens_begins t h.environment).append hdeep
    · change h₂.environment.running = _
      rw [hsame, hrunning, ← List.append_assoc, ← traceLines_append, List.cons_append]

theorem clean_recurse (hcallee : ∀ site ts, Faithful Plain (callee site ts)) (t : Tree)
    (hsmaller : ∀ ts, Tree.sizes ts < t.size → Clean (recurseAll callee ts)) : Clean (recurse callee t) := by
  have hbody : Faithful Plain (recurseAll callee t.children) :=
    (hsmaller _ t.sizes_children_lt).weaken fun _ => False.elim
  rw [recurse_eq]
  refine faithful_bind (clean_execute hcallee hbody t) fun handed => ?_
  split
  · next body => exact hsmaller body.1 body.2
  · exact faithful_pure _

/-- The induction is on the size of the elements: the bodies that an element runs or hands back are
smaller. -/
theorem clean_recurseAll (hcallee : ∀ site ts, Faithful Plain (callee site ts)) (ts : List Tree) :
    Clean (recurseAll callee ts) := by
  induction ts using Tree.sizes_induction with
  | nil =>
    rw [recurseAll_nil]
    exact faithful_pure _
  | cons t ts smaller ih =>
    rw [recurseAll_cons]
    exact faithful_bind (clean_recurse hcallee t smaller) fun _ => ih

end

theorem clean_recurseWithin (levels : Nat) (ts : List Tree) : Clean (recurseWithin levels ts) := by
  induction levels generalizing ts with
  | zero => exact clean_recurseAll (fun site _ => faithful_throw (plain_of_site rfl rfl rfl)) ts
  | succ levels ih => exact clean_recurseAll (fun _ us => (ih us).weaken fun _ => False.elim) ts

theorem clean_visit (t : Tree) : Clean (Environment.visit t) := by
  intro h
  rw [Environment.visit, Environment.run_eq]
  exact clean_recurseWithin _ [t] h

end

/-! ### Whole templates -/

/-- What a whole run comes to: it goes through, up to completing the output; or an element fails, and what
is listed then becomes the trace; or it is abandoned. -/
inductive Conclusion (h : History) : EStateM.Result TemplateError History Unit → Prop
  | ok {h' : History} (running : h'.environment.running = h.environment.running) : Conclusion h (.ok () h')
  | incomplete {fault : IoFault} {h' : History} (running : h'.environment.running = h.environment.running) :
    Conclusion h (.error (.io fault) h')
  | failed {e : TemplateError} {h' : History} (fault : Failed h e h') :
    Conclusion h (.error (e.attachTrace h'.environment.running)
      { h' with environment := { h'.environment with running := [] } })
  | abandoned {e : TemplateError} {h' : History} (he : e.abandons = true) : Conclusion h (.error e h')

theorem conclusion_process (t : Tree) (h : History) :
    Conclusion h ((Environment.process t : Run History Unit) h) := by
  have hregister : Clean (registerMacros t) := faithful_change fun _ => rfl
  have hrun := faithful_bind hregister (fun _ => clean_visit t) h
  simp only [Environment.process]
  generalize (do registerMacros t; Environment.visit t : Run History Unit) h = r at hrun
  cases hrun with
  | @ok _ h' passed =>
    obtain ⟨-, -, -, hrunning⟩ := passed
    simp only [flush]
    rcases (environment h').sink.flush with ⟨outcome, sink⟩
    cases outcome with
    | ok => exact .ok hrunning
    | error fault => exact .incomplete hrunning
  | raised _ raised => exact raised.elim
  | @failed e h' fault =>
    dsimp only
    split
    · next he => exact .abandoned he
    · exact .failed fault

end Execution

namespace Environment

open Execution Stencil.TemplateError

/-- The error of a failed run with a site is the first fault of the run, and what was running there becomes
its trace, followed by what was listed before. -/
theorem trace_of_process {t : Tree} {env env' : Environment} {e : TemplateError} {site : ErrorSite}
    (h : (process t : Action Unit) env = .error e env') (hsite : e.site? = some site) :
    ∃ ms raised u outer, (process t : Run History Unit) ⟨env, []⟩ = .error e ⟨env', ms⟩ ∧
      FirstFault ms raised (u :: outer) ∧ raised.Blames u ∧
      e = raised.attachTrace (traceLines (u :: outer) ++ env.running) := by
  have hsame : mapState History.environment ((process t : Run History Unit) ⟨env, []⟩) =
      (process t : Action Unit) env :=
    mapState_process t (⟨env, []⟩ : History)
  rw [h] at hsame
  have hconclusion := conclusion_process t ⟨env, []⟩
  generalize (process t : Run History Unit) ⟨env, []⟩ = r at hsame hconclusion
  cases hconclusion with
  | ok => cases hsame
  | incomplete =>
    cases hsame
    cases hsite
  | abandoned he =>
    cases hsame
    rw [site?_of_abandons he] at hsite
    cases hsite
  | @failed raised h' fault =>
    obtain ⟨l, u, outer, at_, after, hl, hdeep, hrunning, hblames⟩ := fault
    cases hsame
    refine ⟨h'.moments, raised, u, outer, rfl, ?_, hblames, by rw [hrunning]⟩
    have hprogress := hdeep .none
    rw [List.append_nil, List.nil_append] at hprogress
    exact ⟨l, at_, after, u, outer, by rw [hl, List.nil_append], rfl, hprogress⟩

/-- An error of which the trace lists what was running, and which is placed at the innermost running
inclusion if it is about an inclusion. -/
structure ShowsRunning (running : List Tree) (e : TemplateError) : Prop where
  trace : ∀ site, e.site? = some site → site.trace = traceLines running
  inclusion : ∀ fault site, e = .inclusion fault site → ∃ t, running.find? (·.kind.isInclusion) = some t ∧
    site = some { ErrorSite.ofTree t with trace := traceLines running }

/-- If the run of a template fails with an error that has a site, the error shows what was running at the
first fault of the run. -/
def TracesCalls (env : Environment) (t : Tree) : Prop :=
  ∀ e env', (process t : Action Unit) env = .error e env' → e.site?.isSome →
    ∃ ms raised running, (process t : Run History Unit) ⟨env, []⟩ = .error e ⟨env', ms⟩ ∧
      FirstFault ms raised running ∧ e = raised.attachTrace (traceLines running) ∧ ShowsRunning running e

theorem showsRunning_attachTrace {raised : TemplateError} {u : Tree} (h : raised.Blames u)
    (outer : List Tree) :
    ShowsRunning (u :: outer) (raised.attachTrace (traceLines (u :: outer))) where
  trace site hsite := by
    rw [site?_attachTrace] at hsite
    obtain ⟨site', hsite', rfl⟩ := Option.map_eq_some_iff.1 hsite
    rw [h.traceless site' hsite']
    rfl
  inclusion fault site he := by
    cases raised with
    | inclusion fault' site' =>
      obtain ⟨hu, rfl⟩ := h.place fault' site' rfl
      cases he
      exact ⟨u, List.find?_cons_of_pos hu, rfl⟩
    | _ => cases he

theorem tracesCalls_of_running {env : Environment} (h : env.running = []) (t : Tree) : TracesCalls env t := by
  intro e env' hprocess hsite
  obtain ⟨site, hsite⟩ := Option.isSome_iff_exists.1 hsite
  obtain ⟨ms, raised, u, outer, hwatched, hfault, hblames, he⟩ := trace_of_process hprocess hsite
  rw [h, List.append_nil] at he
  exact ⟨ms, raised, u :: outer, hwatched, hfault, he, he ▸ showsRunning_attachTrace hblames outer⟩

/-- What is listed before a run stays in the trace of its error. -/
theorem running_of_tracesCalls {env env' : Environment} {t : Tree} {e : TemplateError} (h : TracesCalls env t)
    (hprocess : (process t : Action Unit) env = .error e env') (hsite : e.site?.isSome) :
    env.running = [] := by
  obtain ⟨ms, raised, running, hwatched, hfault, -, hshows⟩ := h e env' hprocess hsite
  obtain ⟨site, hsite⟩ := Option.isSome_iff_exists.1 hsite
  obtain ⟨ms', raised', u, outer, hwatched', hfault', hblames, he⟩ := trace_of_process hprocess hsite
  have hms : ms = ms' := by
    have hsame := hwatched.symm.trans hwatched'
    simp only [EStateM.Result.error.injEq, History.mk.injEq] at hsame
    exact hsame.2.2
  obtain rfl : running = u :: outer := hfault.unique (hms ▸ hfault')
  have htrace := hshows.trace site hsite
  rw [he, site?_attachTrace] at hsite
  obtain ⟨site', hsite', rfl⟩ := Option.map_eq_some_iff.1 hsite
  rw [hblames.traceless site' hsite'] at htrace
  exact List.append_right_eq_self.1 htrace

/-- The environments that runs of templates lead to from one in which nothing has run. A run may have failed
with an error that is allowed. -/
inductive Processed (allowed : TemplateError → Prop) : Environment → Prop
  | fresh (sink : Sink) (context : Context) (loader : Option Loader) :
    Processed allowed { sink, context, loader }
  | ok {env env' : Environment} {t : Tree} (before : Processed allowed env)
    (run : (process t : Action Unit) env = .ok () env') : Processed allowed env'
  | error {env env' : Environment} {t : Tree} {e : TemplateError} (before : Processed allowed env)
    (run : (process t : Action Unit) env = .error e env') (he : allowed e) : Processed allowed env'

theorem running_of_conclusion {h : History} (hempty : h.environment.running = []) {t : Tree} :
    match (process t : Action Unit) h.environment with
    | .ok _ env' => env'.running = []
    | .error e env' => e.abandons = false → env'.running = [] := by
  rw [← show mapState History.environment ((process t : Run History Unit) h) =
    (process t : Action Unit) h.environment from
    mapState_process t h]
  have hconclusion := conclusion_process t h
  generalize (process t : Run History Unit) h = r at hconclusion
  cases hconclusion with
  | ok running => exact running.trans hempty
  | incomplete running => exact fun _ => running.trans hempty
  | failed => exact fun _ => rfl
  | abandoned he => exact fun habandons => absurd (he.symm.trans habandons) nofun

theorem Processed.running_eq_nil {env : Environment} (h : Processed (·.abandons = false) env) :
    env.running = [] := by
  induction h with
  | fresh => rfl
  | @ok env env' t _ run ih =>
    have hrunning := running_of_conclusion (h := ⟨env, []⟩) ih (t := t)
    rw [run] at hrunning
    exact hrunning
  | @error env env' t e _ run he ih =>
    have hrunning := running_of_conclusion (h := ⟨env, []⟩) ih (t := t)
    rw [run] at hrunning
    exact hrunning he

/-- After runs that came back, the error of a failed run shows the dynamic chain of calls: its trace has the
lists, calls, inclusions and captures that had begun and not ended at the first fault, innermost first, each
as often as it was running; and an error about an inclusion is placed at the innermost one of them. -/
theorem Processed.tracesCalls {env : Environment} (h : Processed (·.abandons = false) env) (t : Tree) :
    TracesCalls env t := tracesCalls_of_running h.running_eq_nil t

/-- A loop over one item, which is null and cannot be printed. -/
def looping : Tree :=
  ⟨.list (.var ⟨none, ⟨1, 8⟩, ⟨1, 9⟩⟩ "xs") "x", ⟨none, ⟨1, 1⟩, ⟨1, 31⟩⟩, false,
    [⟨.interpolation (.var ⟨none, ⟨1, 21⟩, ⟨1, 21⟩⟩ "x"), ⟨none, ⟨1, 18⟩, ⟨1, 24⟩⟩, false, []⟩]⟩

/-- The loop runs, fails, and runs again where the first run left off. -/
theorem Processed.tracesCalls_again : ∃ (env env' : Environment) (e : TemplateError),
    Processed (·.abandons = false) env ∧ (process looping : Action Unit) env = .error e env' ∧
      e.site?.map (·.trace) = some [traceLine looping] ∧ TracesCalls env looping := by
  have hruns : fails (fun e env => !e.abandons &&
        fails (fun e _ => e.site?.map (·.trace) == some [traceLine looping])
          ((process looping : Action Unit) env))
      ((process looping : Action Unit)
        { sink := {}, context := { root := ⟨[("xs", .sequence [.null])]⟩ } }) = true := by
    decide +kernel
  obtain ⟨e, env, hfirst, hagain⟩ := exists_of_fails hruns
  rw [Bool.and_eq_true, Bool.not_eq_true'] at hagain
  obtain ⟨hcame, hagain⟩ := hagain
  obtain ⟨e', env', hsecond, htrace⟩ := exists_of_fails hagain
  have hprocessed : Processed (·.abandons = false) env := .error (.fresh _ _ _) hfirst hcame
  exact ⟨env, env', e', hprocessed, hsecond, eq_of_beq htrace, hprocessed.tracesCalls looping⟩

/-- Inclusions by an extension that no file's name can have, and a name that stands for nothing. -/
def slashed : Environment :=
  { sink := {}, context := { root := {} },
    loader := some { files := {}, root := [], extension := "x/y", strip := true } }

def including : Tree :=
  ⟨.inclusion (.string ⟨none, ⟨1, 12⟩, ⟨1, 15⟩⟩ "/a"), ⟨none, ⟨1, 1⟩, ⟨1, 17⟩⟩, false, []⟩

def printing : Tree := ⟨.interpolation (.var ⟨none, ⟨1, 4⟩, ⟨1, 4⟩⟩ "x"), ⟨none, ⟨1, 1⟩, ⟨1, 7⟩⟩, false, []⟩

/-- After an abandoned run the inclusion that it stood in is still listed, and shows in the trace of the next
error although it is not running. -/
theorem not_tracesCalls_abandoned : ¬ ∀ env t, Processed (fun _ => True) env → TracesCalls env t := by
  intro h
  have hruns : fails (fun _ env => !env.running.isEmpty && fails (fun e _ => e.site?.isSome)
      ((process printing : Action Unit) env)) ((process including : Action Unit) slashed) = true := by
    decide +kernel
  obtain ⟨e, env, hfirst, hagain⟩ := exists_of_fails hruns
  rw [Bool.and_eq_true, Bool.not_eq_true'] at hagain
  obtain ⟨hlisted, hagain⟩ := hagain
  obtain ⟨e', env', hsecond, hsite⟩ := exists_of_fails hagain
  have htraces := h env printing (.error (.fresh _ _ _) hfirst trivial)
  rw [running_of_tracesCalls htraces hsecond hsite] at hlisted
  cases hlisted

end Environment

end Stencil
