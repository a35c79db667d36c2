import Stencil.Proofs.Execution.Simulation
import Stencil.Proofs.Execution.Regrouping

/-! # Captures

Running a body under a capture comes to running it without one, except that what the body writes is captured
and leaves the output alone. Both runs keep the captures of the body itself on top; below them one has written
to what was open before, the other to the capture. -/

namespace Stencil

namespace Environment

/-- The environment after a text has gone to the innermost capture, or to the output if there is none. -/
def appending (text : String) (env : Environment) : Environment :=
  match env.captures with
  | captured :: outer => { env with captures := (captured ++ text) :: outer }
  | [] => { env with sink := { env.sink with written := env.sink.written ++ text.toUTF8 } }

/-- The environment with more captures on top. -/
def above (inner : List String) (env : Environment) : Environment :=
  { env with captures := inner ++ env.captures }

end Environment

namespace Execution

open Stencil.Action Recorder

/-! ### Between the beginning and the end of a capture -/

/-- Runs a body under a capture: how it ends, what is captured, and what the end of the capture leaves. The
capture of an abandoned body is never ended. -/
def captureOf (body : Action Unit) (env : Environment) : Except TemplateError Unit × String × Environment :=
  match (do beginCapture; body : Action Unit) env with
  | .ok _ env => (.ok (), env.captures.head?.getD "", Enclosure.capture.close env)
  | .error e env => (.error e, env.captures.head?.getD "",
    if e.abandons then env else Enclosure.capture.close env)

/-- A captured body gives its text to a global, unless it fails. -/
theorem runCapture_eq (body : Action Unit) (target : String) (env : Environment) :
    runCapture body target env =
      match captureOf body env with
      | (.ok _, captured, after) => .ok ()
        { after with context := after.context.setGlobal target (.string captured) }
      | (.error e, _, after) => .error e after := by
  simp only [runCapture, captureOf, beginCapture, bind, EStateM.bind, closing, change]
  cases body (put { environment env with captures := "" :: (environment env).captures } env) <;> rfl

/-! ### The two runs -/

/-- Environments that differ in where a text went, below a number of captures: in the first to what a third
has open, in the second to a capture of its own. -/
structure Redirected (base : Environment) (depth : Nat) (env env' : Environment) : Prop where
  context : env'.context = env.context
  macros : env'.macros = env.macros
  loader : env'.loader = env.loader
  running : env'.running = env.running
  nesting : env'.nesting = env.nesting
  output : ∃ inner text, inner.length = depth ∧
    env.captures = inner ++ (base.appending text).captures ∧ env.sink = (base.appending text).sink ∧
    env'.captures = inner ++ text :: base.captures ∧ env'.sink = base.sink

variable {base : Environment}

/-- A text goes to the captures or to the output, and nowhere else. -/
theorem appending_eq (text : String) (env : Environment) : env.appending text =
    { env with captures := (env.appending text).captures, sink := (env.appending text).sink } := by
  unfold Environment.appending
  split <;> rfl

theorem appending_congr {env env' : Environment} (captures : env'.captures = env.captures)
    (sink : env'.sink = env.sink) (text : String) :
    (env'.appending text).captures = (env.appending text).captures ∧
      (env'.appending text).sink = (env.appending text).sink := by
  unfold Environment.appending
  rw [captures]
  cases env.captures with
  | cons captured outer => exact ⟨rfl, sink⟩
  | nil => exact ⟨rfl, by simp only [sink]⟩

/-- What has been written does not depend on where it was written. -/
theorem appending_append (text more : String) :
    (base.appending text).appending more = base.appending (text ++ more) := by
  obtain ⟨sink, context, macros, loader, captures, running, nesting⟩ := base
  cases captures with
  | cons captured outer => simp only [Environment.appending, String.append_assoc]
  | nil => simp only [Environment.appending, String.toUTF8_eq_toByteArray, String.toByteArray_append,
    ByteArray.append_assoc]

theorem appending_empty : base.appending "" = base := by
  obtain ⟨sink, context, macros, loader, captures, running, nesting⟩ := base
  cases captures with
  | cons captured outer => simp only [Environment.appending, String.append_empty]
  | nil => simp only [Environment.appending, String.toUTF8_eq_toByteArray, String.toByteArray_empty,
    ByteArray.append_empty]

theorem limit_appending (text : String) : (base.appending text).sink.limit = base.sink.limit := by
  unfold Environment.appending
  split <;> rfl

theorem write_appending (hlimit : base.sink.limit = none) (text : String) :
    (write text : Action Unit) base = .ok () (base.appending text) := by
  obtain ⟨sink, context, macros, loader, captures, running, nesting⟩ := base
  simp only [write, Environment.appending, environment, put, id]
  cases captures with
  | cons captured outer => rfl
  | nil => simp only [Sink.write_unlimited hlimit, String.toUTF8_eq_toByteArray]

namespace Redirected

variable {depth : Nat} {env env' : Environment}

/-- Texts go to the innermost capture of the body on both sides, and if it has none,
to the two places below. -/
theorem writing (hlimit : base.sink.limit = none) (h : Redirected base depth env env') (more : String) :
    Follows (Redirected base) False depth Whatever ((write more : Action Unit) env)
      ((write more : Action Unit) env') := by
  obtain ⟨inner, text, hdepth, hcaptures, hsink, hcaptures', hsink'⟩ := h.output
  cases inner with
  | cons captured inner =>
    simp only [write, environment, id, hcaptures, hcaptures', List.cons_append]
    exact .ok trivial { h with output := ⟨(captured ++ more) :: inner, text, hdepth, rfl,
      hsink, rfl, hsink'⟩ }
  | nil =>
    obtain ⟨hcaptures₁, hsink₁⟩ := appending_congr hcaptures hsink more
    rw [appending_append] at hcaptures₁ hsink₁
    rw [write_appending (by rw [hsink, limit_appending, hlimit]) more, appending_eq]
    simp only [write, environment, id, hcaptures', List.nil_append]
    exact .ok trivial { h with output := ⟨[], text ++ more, hdepth, hcaptures₁, hsink₁, rfl, hsink'⟩ }

/-- What both runs leave is one environment, with the texts in one place or the other. -/
theorem exists_after (h : Redirected base depth env env') :
    ∃ (inner : List String) (text : String) (after : Environment), inner.length = depth ∧
    after.captures = base.captures ∧ after.sink = base.sink ∧ env = (after.appending text).above inner ∧
    env' = { after with captures := inner ++ text :: base.captures } := by
  obtain ⟨inner, text, hdepth, hcaptures, hsink, hcaptures', hsink'⟩ := h.output
  refine ⟨inner, text, { env with captures := base.captures, sink := base.sink }, hdepth, rfl, rfl, ?_, ?_⟩
  · have hbase : ({ env with captures := base.captures, sink := base.sink } : Environment).captures =
      base.captures := rfl
    obtain ⟨hcaptures₁, hsink₁⟩ := appending_congr hbase rfl text
    rw [appending_eq, Environment.above, hcaptures₁, hsink₁, ← hcaptures, ← hsink]
  · rw [← hcaptures', ← hsink', ← h.context, ← h.macros, ← h.loader, ← h.running, ← h.nesting]

/-- A capture of the body is on top of both, so that what it holds is the same. -/
theorem close (h : Redirected base (depth + 1) env env') : env'.captures.head? = env.captures.head? ∧
    Redirected base depth (Enclosure.capture.close env) (Enclosure.capture.close env') := by
  obtain ⟨inner, text, hdepth, hcaptures, hsink, hcaptures', hsink'⟩ := h.output
  cases inner with
  | nil => cases hdepth
  | cons captured inner =>
    rw [hcaptures, hcaptures']
    refine ⟨rfl, { h with output := ⟨inner, text, Nat.succ.inj hdepth, ?_, hsink, ?_, hsink'⟩ }⟩
    · rw [Enclosure.close, hcaptures]
      rfl
    · rw [Enclosure.close, hcaptures']
      rfl

end Redirected

/-- Writing elsewhere, as a simulation. -/
def redirection (base : Environment) (hlimit : base.sink.limit = none) : Simulation where
  Index := Nat
  Related := Redirected base
  oneSided := False
  context h := h.context
  macros h := h.macros
  nesting_le h := Nat.le_of_eq h.nesting
  nesting_eq _ h := h.nesting
  find name h := .inl (by rw [Environment.find, Environment.find, h.loader])
  withContext _ h := { h with context := rfl }
  withMacros _ h := { h with macros := rfl }
  withRunning f h := { h with running := congrArg f h.running }
  withNesting {_ _ _ f} _ h := { h with nesting := congrArg f h.nesting }
  writing text h := h.writing hlimit text
  capture {depth env env'} h := by
    refine ⟨depth + 1, { h with output := ?_ }, fun _ _ => Redirected.close⟩
    obtain ⟨inner, text, hdepth, hcaptures, hsink, hcaptures', hsink'⟩ := h.output
    exact ⟨"" :: inner, text, congrArg (· + 1) hdepth, congrArg _ hcaptures, hsink,
      congrArg _ hcaptures', hsink'⟩
  inclusion name h := by
    refine ⟨_, { h with loader := congrArg (Option.map fun l : Loader => l.beginInclusion name) h.loader },
      fun _ _ h => ?_⟩
    exact { h with loader := congrArg (Option.map Loader.endInclusion) h.loader }

/-- What running a body from an environment comes to where it stands and under a capture: how it ends is the
same, and so is what it leaves, but for its text. One run has appended the text to the innermost capture or
to the output, the other has captured it and left these as they were. An abandoned body leaves captures of
its own on top in both runs. -/
inductive Transparent (env : Environment) :
    EStateM.Result TemplateError Environment Unit → Except TemplateError Unit × String × Environment → Prop
  | ok (text : String) (after : Environment) (captures : after.captures = env.captures)
    (sink : after.sink = env.sink) :
    Transparent env (.ok () (after.appending text)) (.ok (), text, after)
  | error (e : TemplateError) (text : String) (after : Environment) (returns : e.abandons = false)
    (captures : after.captures = env.captures) (sink : after.sink = env.sink) :
    Transparent env (.error e (after.appending text)) (.error e, text, after)
  | abandoned (e : TemplateError) (text : String) (inner : List String) (captured : String)
    (after : Environment)
    (abandons : e.abandons = true) (captures : after.captures = env.captures) (sink : after.sink = env.sink) :
    Transparent env (.error e ((after.appending text).above inner))
      (.error e, captured, { after with captures := inner ++ text :: env.captures })

/-- Capturing is transparent, whatever the body of the element nests and however it ends. -/
theorem captureOf_visitChildren (t : Tree) (env : Environment) (hlimit : env.sink.limit = none) :
    Transparent env (Environment.visitChildren t env) (captureOf (Environment.visitChildren t) env) := by
  have hstart : Redirected env 0 env { env with captures := "" :: env.captures } :=
    ⟨rfl, rfl, rfl, rfl, rfl, [], "", rfl, by rw [appending_empty]; rfl, by rw [appending_empty], rfl, rfl⟩
  have hrun := (redirection env hlimit).follows_run (i := (0 : Nat)) hstart t.children
  have hcapture : ∀ body : Action Unit, (do beginCapture; body : Action Unit) env =
      body { env with captures := "" :: env.captures } :=
    fun _ => rfl
  simp only [captureOf, hcapture, Environment.visitChildren]
  generalize Environment.run t.children env = direct at hrun ⊢
  generalize Environment.run t.children { env with captures := "" :: env.captures } = captured at hrun ⊢
  cases hrun with
  | ok _ related =>
    obtain ⟨inner, text, after, hdepth, hcaptures, hsink, rfl, rfl⟩ := related.exists_after
    obtain rfl := List.eq_nil_of_length_eq_zero hdepth
    rw [← hcaptures]
    exact .ok text after hcaptures hsink
  | error e related closed =>
    obtain ⟨inner, text, after, hdepth, hcaptures, hsink, rfl, rfl⟩ := related.exists_after
    cases habandons : e.abandons with
    | true =>
      simp only [habandons, if_true]
      exact .abandoned e text inner _ after habandons hcaptures hsink
    | false =>
      obtain rfl := List.eq_nil_of_length_eq_zero (hdepth.trans (closed habandons))
      simp only [habandons, ← hcaptures]
      exact .error e text after habandons hcaptures hsink
  | refused h => exact h.elim

/-- A body with a capture of its own that then fails. -/
theorem captureOf_visitChildren_failing :
    let body : List Tree := [{ (default : Tree) with kind := .text "a" false },
      { (default : Tree) with kind := .capture "x", children :=
        [{ (default : Tree) with kind := .text "b" false }] },
      { (default : Tree) with kind := .call "undefined" [] }]
    let t : Tree := { (default : Tree) with kind := .sequence, children := body }
    (default : Environment).sink.limit = none ∧
      Transparent default (Environment.visitChildren t default)
        (captureOf (Environment.visitChildren t) default) :=
  ⟨rfl, captureOf_visitChildren _ default rfl⟩

end Execution

end Stencil
