import Stencil.Proofs.Execution.History

/-! # Balance

A run leaves every stack as high as it found it, whether it succeeds or fails: it closes what it opens
and nothing else. Only the list of running elements keeps what an error went through. An abandoned run
is excepted, since it does not come back. -/

namespace Stencil

/-! ### What a run keeps -/

/-- Whether there is an enclosure of a kind to close. -/
def Enclosure.IsOpen : Enclosure → Environment → Prop
  | level, env => 0 < env.nesting
  | scope, env => env.context.scopes ≠ []
  | capture, env => env.captures ≠ []
  | inclusion, env => ∃ loader, env.loader = some loader ∧ loader.running ≠ []

/-- Something is appended to the innermost capture, or to the output when no capture is open. -/
inductive Appended (env env' : Environment) : Prop
  | capture (captured text : String) (outer : List String) (before : env.captures = captured :: outer)
    (after : env'.captures = (captured ++ text) :: outer) (sink : env'.sink = env.sink)
  | output (bytes : ByteArray) (before : env.captures = []) (after : env'.captures = [])
    (sink : env'.sink = { env.sink with written := env.sink.written ++ bytes })

/-- The data, the local scopes, the nesting, the running inclusions and all captures but the innermost
are the same, and output was only appended. -/
structure Kept (env env' : Environment) : Prop where
  root : env'.context.root = env.context.root
  scopes : env'.context.scopes = env.context.scopes
  nesting : env'.nesting = env.nesting
  loader : env'.loader = env.loader
  output : Appended env env'

theorem Appended.of_eq {env env' : Environment} (captures : env'.captures = env.captures)
    (sink : env'.sink = env.sink) : Appended env env' := by
  cases h : env.captures with
  | cons captured outer => exact .capture captured "" outer h (by rw [captures, h, String.append_empty]) sink
  | nil => exact .output .empty h (captures.trans h) (by rw [sink, ByteArray.append_empty])

theorem Appended.trans {env env' env'' : Environment} (h : Appended env env') (h' : Appended env' env'') :
    Appended env env'' := by
  cases h with
  | capture captured text outer before after sink =>
    cases h' with
    | capture captured' text' outer' before' after' sink' =>
      obtain ⟨rfl, rfl⟩ := List.cons.inj (after.symm.trans before')
      exact .capture captured (text ++ text') outer before
        (by rw [after', String.append_assoc]) (sink'.trans sink)
    | output _ before' => exact absurd (after.symm.trans before') (by simp)
  | output bytes before after sink =>
    cases h' with
    | capture _ _ _ before' => exact absurd (after.symm.trans before') (by simp)
    | output bytes' before' after' sink' =>
      exact .output (bytes ++ bytes') before after' (by rw [sink', sink, ByteArray.append_assoc])

/-- Only the captures and the output count. -/
theorem Appended.of_same {env env' env₁ env₁' : Environment} (h : Appended env env')
    (captures : env₁.captures = env.captures) (sink : env₁.sink = env.sink)
    (captures' : env₁'.captures = env'.captures) (sink' : env₁'.sink = env'.sink) : Appended env₁ env₁' :=
  (Appended.of_eq captures.symm sink.symm).trans (h.trans (.of_eq captures' sink'))

theorem Kept.of_output {env env' : Environment} (context : env'.context = env.context)
    (nesting : env'.nesting = env.nesting) (loader : env'.loader = env.loader) (output : Appended env env') :
    Kept env env' := ⟨by rw [context], by rw [context], nesting, loader, output⟩

theorem Kept.self (env : Environment) : Kept env env := .of_output rfl rfl rfl (.of_eq rfl rfl)

theorem Kept.trans {env env' env'' : Environment} (h : Kept env env') (h' : Kept env' env'') :
    Kept env env'' where
  root := h'.root.trans h.root
  scopes := h'.scopes.trans h.scopes
  nesting := h'.nesting.trans h.nesting
  loader := h'.loader.trans h.loader
  output := h.output.trans h'.output

theorem Sink.written_write (s : Sink) (text : String) :
    ∃ bytes, (s.write text).2 = { s with written := s.written ++ bytes } := by
  have nothing : s = { s with written := s.written ++ .empty } := by rw [ByteArray.append_empty]
  unfold write
  split
  · exact ⟨.empty, nothing⟩
  · dsimp only
    split
    · exact ⟨_, rfl⟩
    · split
      · exact ⟨_, rfl⟩
      · split
        · exact ⟨.empty, nothing⟩
        · exact ⟨_, rfl⟩

theorem Enclosure.running_close (e : Enclosure) (env : Environment) :
    (e.close env).running = env.running := by
  cases e <;> rfl

/-- What opens an enclosure: whatever keeps the environment after it can close it again, and then nothing
has changed. -/
structure Opens (e : Enclosure) (env opened : Environment) : Prop where
  running : opened.running = env.running
  isOpen {env' : Environment} : Kept opened env' → e.IsOpen env'
  close {env' : Environment} : Kept opened env' → Kept env (e.close env')

theorem opens_scope (env : Environment) (bindings : Bindings Value) (isolated : Bool) :
    Opens .scope env { env with context := env.context.pushScope bindings isolated } where
  running := rfl
  isOpen h := by
    rw [Enclosure.IsOpen, h.scopes]
    exact List.cons_ne_nil _ _
  close h := ⟨h.root, by rw [Enclosure.close, Context.popScope, h.scopes]; rfl, h.nesting, h.loader,
    h.output.of_same rfl rfl rfl rfl⟩

theorem opens_level (env : Environment) : Opens .level env { env with nesting := env.nesting + 1 } where
  running := rfl
  isOpen h := by
    rw [Enclosure.IsOpen, h.nesting]
    exact Nat.succ_pos _
  close h := ⟨h.root, h.scopes, congrArg (· - 1) h.nesting, h.loader, h.output.of_same rfl rfl rfl rfl⟩

theorem opens_capture (env : Environment) :
    Opens .capture env { env with captures := "" :: env.captures } where
  running := rfl
  isOpen h := by
    cases h.output with
    | capture _ _ _ _ after => rw [Enclosure.IsOpen, after]; exact List.cons_ne_nil _ _
    | output _ before => exact absurd before (by simp)
  close h := by
    refine ⟨h.root, h.scopes, h.nesting, h.loader, ?_⟩
    cases h.output with
    | capture _ _ _ before after sink =>
      obtain ⟨-, rfl⟩ := List.cons.inj before
      exact .of_eq (by rw [Enclosure.close, after]; rfl) sink
    | output _ before => exact absurd before (by simp)

theorem opens_inclusion (env : Environment) (loader : Loader)
    (hloader : env.loader = some loader) (name : String) :
    Opens .inclusion env { env with loader := env.loader.map (·.beginInclusion name) } where
  running := rfl
  isOpen h := ⟨loader.beginInclusion name, by rw [h.loader, hloader]; rfl, List.cons_ne_nil _ _⟩
  close h := by
    refine ⟨h.root, h.scopes, h.nesting, ?_, h.output.of_same rfl rfl rfl rfl⟩
    rw [Enclosure.close, h.loader, hloader]
    rfl

theorem TemplateError.abandons_locatedAt (t : Tree) (e : TemplateError) :
    (e.locatedAt t).abandons = e.abandons := by
  unfold locatedAt
  split <;> rfl

namespace Execution

open Stencil.Action Recorder

/-- Opening a level of nesting, unless there are too many. -/
theorem enter_closing {σ α : Type} [Recorder σ] (t : Tree) (act : Run σ α) (s : σ) :
    (do enter t; closing .level act : Run σ α) s =
      if (environment s).nesting ≥ maxNesting then .error (.tooDeep maxNesting (.ofTree t)) s
      else
        (do change fun env => { env with nesting := env.nesting + 1 }; closing .level act : Run σ α) s := by
  simp only [enter, Bind.bind, EStateM.bind, current]
  by_cases hdeep : (environment s).nesting ≥ maxNesting
  · simp only [hdeep, if_true]
    rfl
  · simp only [hdeep, if_false]

/-! ### Balanced actions -/

/-- Whatever is closed from one state to another is open then. -/
def ClosesOpen (h h' : History) : Prop :=
  ∃ l, h'.moments = h.moments ++ l ∧ ∀ m ∈ l, ∀ e, m.event = .closes e → e.IsOpen m.environment

theorem ClosesOpen.of_eq {h h' : History} (same : h'.moments = h.moments) : ClosesOpen h h' :=
  ⟨[], by rw [same, List.append_nil], by simp⟩

theorem ClosesOpen.trans {h h' h'' : History} (first : ClosesOpen h h') (second : ClosesOpen h' h'') :
    ClosesOpen h h'' := by
  obtain ⟨l, hl, hopen⟩ := first
  obtain ⟨l', hl', hopen'⟩ := second
  refine ⟨l ++ l', by rw [hl', hl, List.append_assoc], fun m hm => ?_⟩
  exact (List.mem_append.1 hm).elim (hopen m) (hopen' m)

theorem ClosesOpen.note (h : History) (event : Event)
    (hopen : ∀ e, event = .closes e → e.IsOpen h.environment) :
    ClosesOpen h (note event h) := by
  refine ⟨[⟨event, h.environment⟩], rfl, fun m hm e he => ?_⟩
  rw [List.mem_singleton.1 hm] at he ⊢
  exact hopen e he

/-- A result of a run from a state: everything is kept, and the running elements too if it is no error. -/
inductive Balanced {α : Type} (V : α → Prop) (h : History) : EStateM.Result TemplateError History α → Prop
  | ok {x : α} {h' : History} (value : V x) (told : ClosesOpen h h')
    (kept : Kept h.environment h'.environment)
    (running : h'.environment.running = h.environment.running) : Balanced V h (.ok x h')
  | error {e : TemplateError} {h' : History} (told : ClosesOpen h h')
    (kept : e.abandons = false → Kept h.environment h'.environment)
    (running : h.environment.running <:+ h'.environment.running) : Balanced V h (.error e h')

section
variable {α β : Type} {V : α → Prop} {W : β → Prop} {h : History}

theorem balanced_bind {act : Run History α} {f : α → Run History β} (hact : Balanced V h (act h))
    (hf : ∀ x h', act h = .ok x h' → V x → Balanced W h' (f x h')) : Balanced W h ((act >>= f) h) := by
  simp only [Bind.bind, EStateM.bind]
  cases hresult : act h with
  | error e h' =>
    rw [hresult] at hact
    cases hact with
    | error told kept running => exact .error told kept running
  | ok x h' =>
    rw [hresult] at hact
    cases hact with
    | ok value told kept running =>
      have hrest := hf x h' hresult value
      dsimp only
      generalize f x h' = r at hrest
      cases hrest with
      | ok value' told' kept' running' =>
        exact .ok value' (told.trans told') (kept.trans kept') (running'.trans running)
      | error told' kept' running' =>
        exact .error (told.trans told') (fun he => kept.trans (kept' he)) (running ▸ running')

/-- A step that keeps the environment and adds nothing to the history. -/
theorem balanced_change {f : Environment → Environment} (kept : Kept h.environment (f h.environment))
    (running : (f h.environment).running = h.environment.running) :
    Balanced (fun _ => True) h ((change f : Run History Unit) h) :=
  .ok trivial (.of_eq rfl) kept running

theorem balanced_observe (f : Environment → Except TemplateError α) :
    Balanced (fun _ => True) h ((observe f : Run History α) h) := by
  unfold observe
  split
  · exact .ok trivial (.of_eq rfl) (.self _) rfl
  · exact .error (.of_eq rfl) (fun _ => .self _) (List.suffix_refl _)

/-- What is opened before an action is closed after it. -/
theorem balanced_enclosed {e : Enclosure} {opening : Environment → Environment} {act : Run History α}
    (hopens : Opens e h.environment (opening h.environment))
    (hact : ∀ h', h'.environment = opening h.environment → Balanced V h' (act h')) :
    Balanced V h ((do change opening; closing e act : Run History α) h) := by
  have hopened : ClosesOpen h (put (opening h.environment) h) := .of_eq rfl
  have hinner := hact (put (opening h.environment) h) rfl
  have hclosed : ∀ {h' : History}, ClosesOpen (put (opening h.environment) h) h' →
      Kept (opening h.environment) h'.environment → ClosesOpen h (closed e h') := by
    intro h' told kept
    refine hopened.trans (told.trans (ClosesOpen.note h' (.closes e) fun e' he' => ?_))
    cases he'
    exact hopens.isOpen kept
  simp only [Bind.bind, EStateM.bind, change, closing]
  change Balanced V (put (opening h.environment) h) (act (put (opening (environment h)) h)) at hinner
  generalize act (put (opening (environment h)) h) = r at hinner
  cases hinner with
  | @ok x h' value told kept running =>
    refine .ok value (hclosed told kept) (hopens.close kept) ?_
    exact (e.running_close h'.environment).trans (running.trans hopens.running)
  | @error err h' told kept running =>
    have running : h.environment.running <:+ h'.environment.running := hopens.running ▸ running
    cases habandons : err.abandons with
    | true =>
      simp only [habandons, if_true]
      exact .error (hopened.trans told) (fun h => by simp [habandons] at h) running
    | false =>
      simp only [habandons, Bool.false_eq_true, if_false]
      refine .error (hclosed told (kept habandons)) (fun _ => hopens.close (kept habandons)) ?_
      exact (e.running_close h'.environment).symm ▸ running

theorem balanced_enter (t : Tree) {act : Run History α} (hact : ∀ h, Balanced V h (act h)) :
    Balanced V h ((do enter t; closing .level act : Run History α) h) := by
  rw [enter_closing]
  split
  · exact .error (.of_eq rfl) (fun _ => .self _) (List.suffix_refl _)
  · exact balanced_enclosed (opens_level _) fun h' _ => hact h'

theorem balanced_write (text : String) : Balanced (fun _ => True) h ((write text : Run History Unit) h) := by
  unfold write
  cases hcaptures : h.environment.captures with
  | cons captured outer =>
    have hkept : Kept h.environment { h.environment with captures := (captured ++ text) :: outer } :=
      .of_output rfl rfl rfl (.capture captured text outer hcaptures rfl rfl)
    simp only [environment, hcaptures]
    exact .ok trivial (.of_eq rfl) hkept rfl
  | nil =>
    obtain ⟨bytes, hbytes⟩ := Sink.written_write h.environment.sink text
    have hkept : Kept h.environment { h.environment with sink := (h.environment.sink.write text).2 } :=
      .of_output rfl rfl rfl (.output bytes hcaptures hcaptures hbytes)
    simp only [environment, hcaptures]
    generalize h.environment.sink.write text = r at hkept
    obtain ⟨outcome, sink⟩ := r
    cases outcome with
    | ok => exact .ok trivial (.of_eq rfl) (hcaptures ▸ hkept) rfl
    | error fault => exact .error (.of_eq rfl) (fun _ => hcaptures ▸ hkept) (List.suffix_refl _)

theorem balanced_includeTemplate {callee : Tree → List Tree → Run History Unit} (t : Tree) (name : String)
    (hcallee : ∀ u h, Balanced (fun _ => True) h (callee t [u] h)) :
    Balanced (fun _ => True) h (includeTemplate callee t name h) := by
  refine balanced_bind (balanced_observe _) fun template h₁ hload _ => ?_
  refine balanced_bind (balanced_change (.of_output rfl rfl rfl (.of_eq rfl rfl)) rfl)
    fun _ h₂ hregister _ => ?_
  obtain ⟨loader, hloader⟩ : ∃ loader, h₂.environment.loader = some loader := by
    cases hregister
    simp only [observe, environment] at hload
    cases hl : h.environment.loader with
    | none => simp [hl, Loader.fail] at hload
    | some loader =>
      split at hload
      · cases hload
        exact ⟨loader, hl⟩
      · cases hload
  exact balanced_enclosed (opens_inclusion _ loader hloader name) fun h' _ => hcallee _ h'

theorem balanced_mapError {act : Run History α} {f : TemplateError → TemplateError}
    (hf : ∀ e, (f e).abandons = e.abandons) (hact : Balanced V h (act h)) :
    Balanced V h (mapError f act h) := by
  unfold mapError
  generalize act h = r at hact
  cases hact with
  | ok value told kept running => exact .ok value told kept running
  | error told kept running => exact .error told (fun he => kept (hf _ ▸ he)) running

theorem kept_listing (t : Tree) (env : Environment) : Kept env (listing t env) :=
  .of_output rfl rfl rfl (.of_eq rfl rfl)

theorem kept_unlisting (t : Tree) (env : Environment) : Kept env (unlisting t env) :=
  .of_output rfl rfl rfl (.of_eq rfl rfl)

/-- An element is listed while it runs, and stays listed when it fails. -/
theorem balanced_listed (t : Tree) {act : Run History α} (hact : ∀ h, Balanced V h (act h)) :
    Balanced V h ((do beginElement t; let x ← telling t act; endElement t; return x : Run History α) h) := by
  have begun : ClosesOpen h ⟨listing t h.environment, h.moments ++ [⟨.begins t, h.environment⟩]⟩ :=
    (ClosesOpen.note h (.begins t) fun _ h => by cases h).trans (.of_eq rfl)
  have kept₁ := kept_listing t h.environment
  have hact₁ := hact ⟨listing t h.environment, h.moments ++ [⟨.begins t, h.environment⟩]⟩
  simp only [Bind.bind, EStateM.bind, beginElement_eq, telling]
  generalize act _ = r at hact₁ ⊢
  cases hact₁ with
  | @ok x h₂ value told kept running =>
    have ended : ClosesOpen h₂ ⟨unlisting t h₂.environment,
        h₂.moments ++ [⟨.ends t, unlisting t h₂.environment⟩]⟩ :=
      ClosesOpen.trans (.of_eq rfl) (.note ⟨unlisting t h₂.environment, h₂.moments⟩
        (.ends t) fun _ h => by cases h)
    simp only [endElement_eq, Pure.pure, EStateM.pure]
    refine .ok value (begun.trans (told.trans ended)) (kept₁.trans (kept.trans (kept_unlisting t _))) ?_
    rw [unlisting, running]
    exact unlisting_listing t h.environment
  | @error e h₂ told kept running =>
    refine .error (begun.trans (told.trans (.note h₂ _ fun _ h => by cases h)))
      (fun he => kept₁.trans (kept he)) ?_
    refine List.IsSuffix.trans ?_ running
    rw [listing]
    dsimp only
    split
    · exact List.suffix_cons _ _
    · exact List.suffix_refl _

theorem Balanced.weaken {V' : α → Prop} {r : EStateM.Result TemplateError History α} (hr : Balanced V h r)
    (hV : ∀ x, V x → V' x) : Balanced V' h r := by
  cases hr with
  | ok value told kept running => exact .ok (hV _ value) told kept running
  | error told kept running => exact .error told kept running

end

/-- Balance, construct by construct; both sides are the same. -/
def balance : Correspondence History History where
  node := Eq
  rewrites _ _ := False
  expr := Eq
  site := Eq
  value _ := True
  relates V act _ := ∀ h, Balanced (fun x => ∃ x', V x x') h (act h)
  node_kind := kind_like_of_eq
  node_site := site_eq_of_eq
  expr_site := expr_site_eq_of_eq
  expr_canonical := canonical_eq_of_eq
  value_inherited := Value.inherited_true
  pure hx h := .ok ⟨_, hx⟩ (.of_eq rfl) (.self _) rfl
  bind hact hf h := balanced_bind (hact h) fun x h' _ ⟨x', hx⟩ => hf x x' hx h'
  raise _ h := .error (.of_eq rfl) (fun _ => .self _) (List.suffix_refl _)
  evaluate _ h := (balanced_observe _).weaken fun v _ => ⟨v, rfl, trivial⟩
  write text h := (balanced_write text).weaken fun _ _ => ⟨(), trivial⟩
  setGlobal _ _ _ h := .ok ⟨(), trivial⟩ (.of_eq rfl) ⟨rfl, rfl, rfl, rfl, .of_eq rfl rfl⟩ rfl
  macros h := .ok ⟨h.environment, MacrosAlike.self (fun _ => rfl) _⟩ (.of_eq rfl) (.self _) rfl
  inScope {bindings} isolated _ _ _ hbody h := by
    rw [pushScope, modifyContext]
    exact balanced_enclosed (opens_scope _ bindings isolated) fun h' _ => hbody h'
  inLevel _ hact h := balanced_enter _ hact
  inCapture hbody h := by
    refine balanced_enclosed (opens_capture _) fun h' _ => ?_
    exact balanced_bind (hbody h') fun _ h'' _ _ => .ok ⟨_, rfl⟩ (.of_eq rfl) (.self _) rfl
  inInclusion {t _ _ _} name _ hcallee h := by
    refine balanced_mapError (fun e => e.abandons_locatedAt t)
      ((balanced_includeTemplate t name ?_).weaken fun _ _ => ⟨(), trivial⟩)
    exact fun u h => (hcallee u u (Alike.self (fun _ => rfl) false [u]) h).weaken fun _ _ => trivial
  listed _ hact h := balanced_listed _ hact
  rewriting h := h.elim

/-- Visiting an element keeps everything but what it is meant to change, with any outcome that comes back;
an error also leaves the elements it went through listed. And whenever an enclosure is closed on the way,
there is one to close. -/
theorem visit_balanced (t : Tree) (env : Environment) :
    (match (Environment.visit t : Action Unit) env with
      | .ok _ env' => Kept env env' ∧ env'.running = env.running
      | .error e env' => e.abandons = false → Kept env env' ∧ env.running <:+ env'.running) ∧
    ∀ m ∈ (stateOf ((Environment.visit t : Run History Unit) ⟨env, []⟩)).moments,
      ∀ e, m.event = .closes e → e.IsOpen m.environment := by
  have herase : mapState History.environment ((Environment.visit t : Run History Unit) ⟨env, []⟩) =
      (Environment.visit t : Action Unit) env := mapState_run [t] (⟨env, []⟩ : History)
  have hrun : (Environment.visit t : Run History Unit) ⟨env, []⟩ =
      recurseWithin (maxNesting - env.nesting) [t] ⟨env, []⟩ :=
    congrFun (Environment.run_eq [t]) (⟨env, []⟩ : History)
  have hbalanced := balance.relates_recurseWithin (maxNesting - env.nesting)
    (Alike.self (fun _ => rfl) false [t]) ⟨env, []⟩
  rw [← hrun] at hbalanced
  rw [← herase]
  generalize (Environment.visit t : Run History Unit) ⟨env, []⟩ = r at hbalanced
  have hopen : ∀ h' : History, ClosesOpen ⟨env, []⟩ h' → ∀ m ∈ h'.moments, ∀ e, m.event = .closes e →
      e.IsOpen m.environment := by
    rintro h' ⟨l, hl, hclosed⟩ m hm
    rw [hl, List.nil_append] at hm
    exact hclosed m hm
  cases hbalanced with
  | @ok _ h' _ told kept running => exact ⟨⟨kept, running⟩, hopen h' told⟩
  | @error e h' told kept running => exact ⟨fun he => ⟨kept he, running⟩, hopen h' told⟩

end Execution

end Stencil
