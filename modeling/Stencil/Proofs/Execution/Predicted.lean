import Stencil.Proofs.Execution.Capturing
import Stencil.Proofs.Execution.Rewrites

/-! # What is known of a run beforehand

Two things are read off an element without running it. Some elements write the same text wherever they run,
and do nothing else. Others write nothing where they stand, however they end: what is written in a captured
body goes to the capture, which is open for as long as the body runs. -/

namespace Stencil

namespace Execution

open Stencil.Action Recorder

/-! ### The same text everywhere -/

/-- Elements that always write the same write one text, wherever they run and whatever is open. -/
theorem exists_text_of_areCacheable {ts : List Tree} (h : Tree.areCacheable ts = true) :
    ∃ text, ∀ (callee : Tree → List Tree → Action Unit) (env : Environment), env.sink.limit = none →
      recurseAll callee ts env = .ok () (env.appending text) := by
  induction ts using Tree.forest_induction with
  | nil =>
    refine ⟨"", fun callee env _ => ?_⟩
    rw [recurseAll_nil, appending_empty]
    rfl
  | cons t ts ihBody ih =>
    rw [Tree.areCacheable, Bool.and_eq_true] at h
    obtain ⟨htext, hts⟩ := h
    obtain ⟨first, hfirst⟩ : ∃ text, ∀ (callee : Tree → List Tree → Action Unit) (env : Environment),
        env.sink.limit = none →
        recurse callee t env = .ok () (env.appending text) := by
      obtain ⟨kind, location, inBlock, children⟩ := t
      cases kind with
      | text text trimmed => exact ⟨text,
        fun callee env hlimit => by rw [recurse_text rfl, write_appending hlimit]⟩
      | comment text =>
        refine ⟨"", fun callee env _ => ?_⟩
        rw [recurse_comment rfl, appending_empty]
        rfl
      | sequence =>
        obtain ⟨text, hbody⟩ := ihBody htext
        exact ⟨text, fun callee env hlimit => by rw [recurse_sequence rfl]; exact hbody callee env hlimit⟩
      | _ => cases htext
    obtain ⟨later, hlater⟩ := ih hts
    refine ⟨first ++ later, fun callee env hlimit => ?_⟩
    rw [recurseAll_cons, ← appending_append]
    simp only [bind, EStateM.bind, hfirst callee env hlimit]
    exact hlater callee _ ((limit_appending first).trans hlimit)

/-! ### Nothing where they stand -/

/-- Results that leave the output and every open capture as they were. A run that is abandoned may leave
captures of its own on top of them. -/
inductive Silent {α : Type} (env : Environment) : EStateM.Result TemplateError Environment α → Prop
  | ok (x : α) {env' : Environment} (output : env'.sink = env.sink)
    (captures : env'.captures = env.captures) : Silent env (.ok x env')
  | error (e : TemplateError) {env' : Environment} (output : env'.sink = env.sink)
    (outer : env.captures <:+ env'.captures)
    (captures : e.abandons = false → env'.captures = env.captures) : Silent env (.error e env')

variable {α β : Type} {env : Environment}

theorem silent_bind {act : Action α} {f : α → Action β} (hact : Silent env (act env))
    (hf : ∀ x env', Silent env' (f x env')) : Silent env ((act >>= f) env) := by
  simp only [bind, EStateM.bind]
  generalize act env = r at hact
  cases hact with
  | @ok x env' output captures =>
    have hrest := hf x env'
    dsimp only
    generalize f x env' = r' at hrest
    cases hrest with
    | ok y output' captures' => exact .ok y (output'.trans output) (captures'.trans captures)
    | error e output' outer captures' =>
      exact .error e (output'.trans output) (captures ▸ outer) fun h => (captures' h).trans captures
  | error e output outer captures => exact .error e output outer captures

theorem silent_pure (x : α) (env : Environment) : Silent env ((pure x : Action α) env) := .ok x rfl rfl

theorem silent_observe (f : Environment → Except TemplateError α) (env : Environment) :
    Silent env ((observe f : Action α) env) := by
  simp only [observe]
  cases f (environment env) with
  | ok x => exact .ok x rfl rfl
  | error e => exact .error e rfl (List.suffix_refl _) fun _ => rfl

theorem silent_change {f : Environment → Environment} (hsink : (f env).sink = env.sink)
    (hcaptures : (f env).captures = env.captures) :
    Silent env ((change f : Action Unit) env) := .ok () hsink hcaptures

/-! ### Captured bodies -/

/-- A run, compared with itself: it has a number of captures of its own open above those that were open at
its beginning, of which only the innermost takes texts. -/
structure Sheltered (sink : Sink) (base : List String) (depth : Nat) (env env' : Environment) : Prop where
  same : env' = env
  sink : env.sink = sink
  captures : ∃ inner text, inner.length = depth ∧ env.captures = inner ++ text :: base

/-- Running under a capture, as a simulation. -/
def shelter (sink : Sink) (base : List String) : Simulation where
  Index := Nat
  Related := Sheltered sink base
  oneSided := False
  context h := by rw [h.same]
  macros h := by rw [h.same]
  nesting_le h := Nat.le_of_eq (by rw [h.same])
  nesting_eq _ h := by rw [h.same]
  find name h := .inl (by rw [h.same])
  withContext _ h := { h with same := by rw [h.same] }
  withMacros _ h := { h with same := by rw [h.same] }
  withRunning f h := { h with same := by rw [h.same] }
  withNesting {_ _ _ f} _ h := { h with same := by rw [h.same] }
  writing {depth env env'} more h := by
    obtain ⟨rfl, hsink, inner, text, hdepth, hcaptures⟩ := h
    simp only [write, environment, id, put]
    cases inner with
    | nil =>
      rw [hcaptures]
      exact .ok trivial ⟨rfl, hsink, [], text ++ more, hdepth, rfl⟩
    | cons captured inner =>
      rw [hcaptures]
      exact .ok trivial ⟨rfl, hsink, (captured ++ more) :: inner, text, hdepth, rfl⟩
  capture {depth env env'} h := by
    obtain ⟨rfl, hsink, inner, text, hdepth, hcaptures⟩ := h
    refine ⟨depth + 1, ⟨rfl, hsink, "" :: inner, text, congrArg (· + 1) hdepth, congrArg _ hcaptures⟩,
      fun after after' h => ?_⟩
    obtain ⟨rfl, hsink, inner, text, hdepth, hcaptures⟩ := h
    cases inner with
    | nil => cases hdepth
    | cons captured inner =>
      exact ⟨rfl, rfl, hsink, inner, text, Nat.succ.inj hdepth, by rw [Enclosure.close, hcaptures]; rfl⟩
  inclusion {depth env env'} name h := by
    obtain ⟨rfl, hsink, hcaptures⟩ := h
    refine ⟨depth, ⟨rfl, hsink, hcaptures⟩, fun after after' h => ?_⟩
    obtain ⟨rfl, hsink, hcaptures⟩ := h
    exact ⟨rfl, hsink, hcaptures⟩

/-- Results of a captured body: nothing is left of it but what is captured. A run that is abandoned may
leave captures of its own on top. -/
inductive Captured (sink : Sink) (base : List String) : EStateM.Result TemplateError Environment Unit → Prop
  | ok (text : String) {env' : Environment} (output : env'.sink = sink)
    (captures : env'.captures = text :: base) :
    Captured sink base (.ok () env')
  | error (e : TemplateError) (inner : List String) (text : String) {env' : Environment}
    (output : env'.sink = sink)
    (captures : env'.captures = inner ++ text :: base) (innermost : e.abandons = false → inner = []) :
    Captured sink base (.error e env')

theorem captured_of_follows {sink : Sink} {base : List String}
    {r : EStateM.Result TemplateError Environment Unit}
    (h : Follows (Sheltered sink base) False (0 : Nat) Whatever r r) : Captured sink base r := by
  cases r with
  | ok x env' =>
    cases h with
    | ok _ related =>
      obtain ⟨-, hsink, inner, text, hdepth, hcaptures⟩ := related
      obtain rfl := List.eq_nil_of_length_eq_zero hdepth
      exact .ok text hsink hcaptures
  | error e env' =>
    cases h with
    | error _ related closed =>
      obtain ⟨-, hsink, inner, text, hdepth, hcaptures⟩ := related
      exact .error e inner text hsink hcaptures fun hreturns =>
        List.eq_nil_of_length_eq_zero (hdepth.trans (closed hreturns))
    | refused h => exact h.elim

/-- A capture leaves what was open before it as it was, if nothing is left of its
body but what is captured. -/
theorem silent_runCapture {body : Action Unit} (target : String)
    (hbody : Captured env.sink env.captures (body { env with captures := "" :: env.captures })) :
    Silent env (runCapture body target env) := by
  have hcapture : (do beginCapture; body : Action Unit) env =
    body { env with captures := "" :: env.captures } := rfl
  rw [runCapture_eq, captureOf, hcapture]
  generalize body { env with captures := "" :: env.captures } = r at hbody
  cases hbody with
  | ok text output captures => exact .ok () output (congrArg List.tail captures)
  | @error e inner text env' output captures innermost =>
    cases habandons : e.abandons with
    | true =>
      simp only [habandons, if_true]
      refine .error e output ?_ fun h => absurd (habandons.symm.trans h) (by decide)
      exact ⟨inner ++ [text], by simp [captures]⟩
    | false =>
      obtain rfl := innermost habandons
      have hclosed : (Enclosure.capture.close env').captures = env.captures := congrArg List.tail captures
      simp only [habandons, Bool.false_eq_true, if_false]
      exact .error e output (hclosed ▸ List.suffix_refl _) fun _ => hclosed

/-! ### Silent elements -/

section
variable {callee : Tree → List Tree → Action Unit} {t : Tree}

/-- An element that hands nothing back has run when its own action has. -/
theorem silent_beginElement (t : Tree) (env : Environment) :
    Silent env ((beginElement t : Action Unit) env) := by
  refine silent_bind (silent_change (f := id) rfl rfl) fun _ env' => ?_
  split
  · exact silent_change rfl rfl
  · exact silent_pure () env'

theorem silent_endElement (t : Tree) (env : Environment) : Silent env ((endElement t : Action Unit) env) := by
  unfold endElement
  split
  · exact silent_bind (silent_change rfl rfl) fun _ env' => silent_change (f := id) rfl rfl
  · exact silent_change (f := id) rfl rfl

/-- An element of a silent kind leaves the output and the open captures as they were, if its
body does under a capture. -/
theorem silent_recurse (h : t.kind.isSilent = true) (hbody : ∀ env : Environment,
      Captured env.sink env.captures
        (recurseAll callee t.children { env with captures := "" :: env.captures }))
    (env : Environment) : Silent env (recurse callee t env) := by
  have hact (act : Action Unit) (hperform : perform callee (recurseAll callee t.children) t =
      (do act; return none))
      (hsilent : ∀ env, Silent env (act env)) : Silent env (recurse callee t env) := by
    rw [recurse_of_perform hperform]
    exact silent_bind (silent_beginElement t env) fun _ env' => silent_bind (hsilent env') fun _ env' =>
      silent_endElement t env'
  cases hkind : t.kind with
  | definition name parameters => exact hact (pure ()) (by simp only [perform, hkind]; rfl) (silent_pure ())
  | comment text => exact hact (pure ()) (by simp only [perform, hkind]; rfl) (silent_pure ())
  | capture target =>
    exact hact (runCapture _ target) (by simp only [perform, hkind]) fun env =>
      silent_runCapture target (hbody env)
  | assignment target value =>
    refine hact (do let v ← evaluate value; modifyContext (·.setGlobal target v))
      (by simp only [perform, hkind, bind_assoc]) fun env => ?_
    exact silent_bind (silent_observe _ env) fun v env' => silent_change rfl rfl
  | _ =>
    rw [hkind] at h
    cases h

end

theorem exists_callee (levels : Nat) : ∃ callee :
    Tree → List Tree → Action Unit, ∀ ts, recurseWithin levels ts = recurseAll callee ts := by
  cases levels with
  | zero => exact ⟨_, fun ts => by rw [recurseWithin]⟩
  | succ levels => exact ⟨_, fun ts => by rw [recurseWithin]⟩

/-- Whatever a body does under a capture, it leaves the output and the captures outside as they were. -/
theorem captured_recurseWithin (levels : Nat) (ts : List Tree) (env : Environment) :
    Captured env.sink env.captures (recurseWithin levels ts { env with captures := "" :: env.captures }) := by
  have hstart : Sheltered env.sink env.captures 0 { env with captures := "" :: env.captures }
      { env with captures := "" :: env.captures } :=
    ⟨rfl, rfl, [], "", rfl, rfl⟩
  have hsimulates := (shelter env.sink env.captures).simulates_recurseWithin
    (Nat.le_refl levels) (fun _ => rfl)
    (Alike.self (fun _ => rfl) false ts)
  exact captured_of_follows (hsimulates (0 : Nat) _ _ hstart)

/-- A body that is said to write the same writes one text, wherever it runs. -/
theorem exists_text_of_run {ts : List Tree} (h : Tree.areCacheable ts = true) : ∃ text, ∀ env :
    Environment, env.sink.limit = none →
    (Environment.run ts : Action Unit) env = .ok () (env.appending text) := by
  obtain ⟨text, htext⟩ := exists_text_of_areCacheable h
  refine ⟨text, fun env hlimit => ?_⟩
  obtain ⟨callee, hcallee⟩ := exists_callee (maxNesting - env.nesting)
  rw [Environment.run_eq]
  exact (congrFun (hcallee ts) env).trans (htext callee env hlimit)

theorem silent_visit {t : Tree} (h : t.kind.isSilent = true) (env : Environment) :
    Silent env ((Environment.visit t : Action Unit) env) := by
  obtain ⟨callee, hcallee⟩ := exists_callee (maxNesting - env.nesting)
  have hvisit : (Environment.visit t : Action Unit) env = recurse callee t env := by
    rw [Environment.visit, Environment.run_eq]
    exact congrFun ((hcallee [t]).trans (recurseAll_singleton t)) env
  rw [hvisit]
  exact silent_recurse h (fun env' => hcallee t.children ▸ captured_recurseWithin _ t.children env') env

/-- What is said of an element without running it holds of every run. An element that is said to write the
same always writes one text, wherever it runs, and does nothing else; a silent element writes nothing where
it stands, however it ends, and whatever its body does. -/
theorem visit_predicted (t : Tree) :
    (t.isCacheable = true → ∃ text, ∀ env : Environment, env.sink.limit = none →
      (Environment.visit t : Action Unit) env = .ok () (env.appending text)) ∧
    (t.hasCacheableBody = true → ∃ text, ∀ env : Environment, env.sink.limit = none →
      (Environment.visitChildren t : Action Unit) env = .ok () (env.appending text)) ∧
    (t.kind.isSilent = true → ∀ env : Environment, Silent env ((Environment.visit t : Action Unit) env)) := by
  refine ⟨fun h => ?_, exists_text_of_run, silent_visit⟩
  have hall : Tree.areCacheable [t] = true := by rw [Tree.areCacheable, h, Tree.areCacheable]; rfl
  exact exists_text_of_run hall

end Execution

end Stencil
