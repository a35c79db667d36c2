import Stencil.Proofs.Execution.Simulation
import Stencil.Proofs.Execution.Cutoff
import Stencil.Proofs.Reading.Canonical
import Stencil.Proofs.Reading.Roundtrip

/-! # Guards

The trace, the nesting and the names of the running inclusions only ever refuse to go on. A run that succeeds
does the same where less is running, so that including a template comes to running it. -/

namespace Stencil

/-! ### What guards a run -/

namespace Environment

/-- The names of the running inclusions. -/
def inclusions (env : Environment) : List String :=
  match env.loader with
  | some loader => loader.running
  | none => []

/-- The environment in which nothing is running. -/
def unguarded (env : Environment) : Environment :=
  { env with running := [], nesting := 0, loader := env.loader.map fun loader =>
    { loader with running := [] } }

end Environment

namespace Execution

open Stencil.Action Recorder

/-- Running names are asked for one thing only: whether the name to be loaded is among them. -/
theorem load_agrees (loader : Loader) (name : String) {running running' : List String}
    (h : running' ⊆ running) :
    Agrees True (({ loader with running } : Loader).load name)
      (({ loader with running := running' } : Loader).load name) := by
  unfold Loader.load
  cases Loader.checkName name with
  | error e => exact .inl rfl
  | ok _ =>
    simp only [bind, Except.bind]
    by_cases hname : name ∈ running
    · rw [if_pos hname]
      exact .inr ⟨trivial, _, rfl⟩
    · rw [if_neg hname, if_neg fun hname' => hname (h hname')]
      exact .inl rfl

/-- Environments that differ in what is running: there is no more of it in the second, but for the inclusions
that both have begun since. -/
structure LessGuarded (outer outer' inner : List String) (env env' : Environment) : Prop where
  rest : env'.unguarded = env.unguarded
  nesting : env'.nesting ≤ env.nesting
  inclusions : ∀ loader, env.loader = some loader → loader.running = inner ++ outer
  inclusions' : ∀ loader, env'.loader = some loader → loader.running = inner ++ outer'

namespace LessGuarded

variable {outer outer' inner : List String} {env env' : Environment}

theorem find (hsub : outer' ⊆ outer) (h : LessGuarded outer outer' inner env env') (name : String) :
    Agrees True (env.find name) (env'.find name) := by
  have hrest : env'.unguarded.loader = env.unguarded.loader := congrArg (·.loader) h.rest
  simp only [Environment.unguarded] at hrest
  unfold Environment.find
  cases hloader : env.loader with
  | none =>
    rw [hloader, Option.map_none, Option.map_eq_none_iff] at hrest
    rw [hrest]
    exact .inl rfl
  | some loader =>
    rw [hloader, Option.map_some, Option.map_eq_some_iff] at hrest
    obtain ⟨loader', hloader', hsame⟩ := hrest
    have hrunning := h.inclusions loader hloader
    have hrunning' := h.inclusions' loader' hloader'
    obtain ⟨files, root, extension, strip, running⟩ := loader
    obtain ⟨files', root', extension', strip', running'⟩ := loader'
    obtain ⟨rfl, rfl, rfl, rfl, -⟩ := Loader.mk.inj hsame
    obtain rfl : running = inner ++ outer := hrunning
    obtain rfl : running' = inner ++ outer' := hrunning'
    have hsub : inner ++ outer' ⊆ inner ++ outer := by
      intro name hname
      exact List.mem_append.2 ((List.mem_append.1 hname).imp_right fun h => hsub h)
    rw [hloader']
    exact load_agrees ⟨files', root', extension', strip', []⟩ name hsub

theorem writing (h : LessGuarded outer outer' inner env env') (text : String) :
    Follows (LessGuarded outer outer') True inner Whatever ((write text : Action Unit) env)
      ((write text : Action Unit) env') := by
  have hsink : env'.sink = env.sink := congrArg (·.sink) h.rest
  have hcaptures : env'.captures = env.captures := congrArg (·.captures) h.rest
  simp only [write, environment, id, hsink, hcaptures]
  cases env.captures with
  | cons captured captures =>
    have hwritten := congrArg (fun e : Environment =>
      { e with captures := (captured ++ text) :: captures, sink := env.sink }) h.rest
    exact .ok trivial { h with rest := hwritten }
  | nil =>
    rcases env.sink.write text with ⟨outcome, sink⟩
    have hwritten : LessGuarded outer outer' inner { env with sink, captures := [] }
        { env' with sink, captures := [] } :=
      { h with rest := congrArg (fun e : Environment => { e with sink, captures := [] }) h.rest }
    cases outcome with
    | ok => exact .ok trivial hwritten
    | error fault => exact .error (.io fault) hwritten fun _ => rfl

theorem mapLoader {inner₁ : List String} {f : Loader → Loader}
    (hf : ∀ loader, { f loader with running := [] } = { loader with running := [] })
    (hrunning : ∀ loader outer, loader.running = inner ++ outer → (f loader).running = inner₁ ++ outer)
    (h : LessGuarded outer outer' inner env env') :
    LessGuarded outer outer' inner₁ { env with loader := env.loader.map f }
      { env' with loader := env'.loader.map f } where
  rest := by
    have hloader : ∀ env : Environment,
        ({ env with loader := env.loader.map f } : Environment).unguarded = env.unguarded := by
      intro env
      simp only [Environment.unguarded, Option.map_map]
      congr 1
      exact congrArg (fun g => env.loader.map g) (funext hf)
    rw [hloader, hloader]
    exact h.rest
  nesting := h.nesting
  inclusions loader hloader := by
    obtain ⟨loader₀, hloader₀, rfl⟩ := Option.map_eq_some_iff.1 hloader
    exact hrunning loader₀ outer (h.inclusions loader₀ hloader₀)
  inclusions' loader hloader := by
    obtain ⟨loader₀, hloader₀, rfl⟩ := Option.map_eq_some_iff.1 hloader
    exact hrunning loader₀ outer' (h.inclusions' loader₀ hloader₀)

end LessGuarded

/-- Having less running, as a one-sided simulation. -/
def lessGuarded {outer outer' : List String} (hsub : outer' ⊆ outer) : Simulation where
  Index := List String
  Related := LessGuarded outer outer'
  oneSided := True
  context h := congrArg (·.context) h.rest
  macros h := congrArg (·.macros) h.rest
  nesting_le h := h.nesting
  nesting_eq h := absurd trivial h
  find name h := h.find hsub name
  withContext context h := { h with rest := congrArg (fun e : Environment => { e with context }) h.rest }
  withMacros macros h := { h with rest := congrArg (fun e : Environment => { e with macros }) h.rest }
  withRunning _ h := { h with rest := h.rest }
  withNesting hf h := { h with rest := h.rest, nesting := hf _ _ h.nesting }
  writing text h := h.writing text
  capture {i env env'} h := by
    have hcaptures : ∀ {j : List String} {env env' : Environment}, LessGuarded outer outer' j env env' →
        env'.captures = env.captures :=
      fun h => congrArg (·.captures) h.rest
    refine ⟨i, ?_, fun after after' h => ⟨congrArg _ (hcaptures h), ?_⟩⟩
    · rw [hcaptures h]
      exact { h with rest := congrArg (fun e : Environment =>
        { e with captures := "" :: env.captures }) h.rest }
    · rw [Enclosure.close, Enclosure.close, hcaptures h]
      exact { h with rest := congrArg (fun e : Environment =>
        { e with captures := after.captures.tail }) h.rest }
  inclusion {inner _ _} name h := by
    refine ⟨name :: inner, h.mapLoader (fun _ => rfl) fun _ _ hrunning => congrArg (name :: ·) hrunning,
      fun after after' h => ?_⟩
    have h : LessGuarded outer outer' (name :: inner) after after' := h
    refine h.mapLoader (f := Loader.endInclusion) (fun _ => rfl) fun loader names hrunning => ?_
    exact congrArg List.tail hrunning

/-- A visit that succeeds does so with less running, and leaves the same behind. -/
theorem visit_unguarded (t : Tree) {env env' : Environment} (rest : env'.unguarded = env.unguarded)
    (nesting : env'.nesting ≤ env.nesting) (inclusions : env'.inclusions ⊆ env.inclusions)
    {after : Environment} (h : (Environment.visit t : Action Unit) env = .ok () after) :
    ∃ after', (Environment.visit t : Action Unit) env' = .ok () after' ∧
    after'.unguarded = after.unguarded := by
  have hinclusions : ∀ (env : Environment) (loader : Loader), env.loader = some loader →
      loader.running = [] ++ env.inclusions := by
    intro env loader hloader
    rw [Environment.inclusions, hloader, List.nil_append]
  have hstart : LessGuarded env.inclusions env'.inclusions [] env env' :=
    ⟨rest, nesting, hinclusions env, hinclusions env'⟩
  have hvisit : Follows (LessGuarded env.inclusions env'.inclusions) True [] Whatever _ _ :=
    (lessGuarded inclusions).follows_run hstart [t]
  rw [show Environment.run [t] env = .ok () after from h] at hvisit
  generalize hresult :
    (Environment.run [t] env' : EStateM.Result TemplateError Environment Unit) = r at hvisit
  cases hvisit with
  | ok _ same => exact ⟨_, hresult, same.rest⟩

/-! ### Including -/

section
variable {callee : Tree → List Tree → Action Unit} {t : Tree} {loc : Location} {name : String}
  {env after : Environment}

/-- What the body of an inclusion starts from. -/
def including (t : Tree) (name : String) (p : Template) (loader : Loader) (env : Environment) : Environment :=
  { env with
    running := traceLine t :: env.running
    nesting := env.nesting + 1
    macros := withMacrosOf p.tree env.macros
    loader := some (loader.beginInclusion name) }

theorem runInclusion_eq {loader : Loader} {p : Template} (hloader : env.loader = some loader)
    (hload : loader.load name = .ok p) (hnesting : env.nesting < maxNesting) :
    runInclusion callee t (.string loc name) env =
      closing .level (mapError (·.locatedAt t) (closing .inclusion (callee t [p.tree]))) { env with
        nesting := env.nesting + 1, macros := withMacrosOf p.tree env.macros,
          loader := some (loader.beginInclusion name) } := by
  have hpath : (evaluate (.string loc name) : Action Value) env = .ok (.string name) env := by
    have hvalue : ∀ levels c, (Expr.string loc name).evaluateWithin levels c = .ok (.string name) := by
      intro levels c
      cases levels <;> rfl
    simp only [evaluate, observe, hvalue]
  have henter := enter_closing t (mapError (·.locatedAt t) (includeTemplate callee t name)) env
  rw [if_neg (show ¬ (environment env).nesting ≥ maxNesting from Nat.not_le_of_lt hnesting)] at henter
  simp only [runInclusion, bind, EStateM.bind, hpath] at henter ⊢
  refine henter.trans ?_
  simp only [change, closing, mapError, includeTemplate, observe, bind, EStateM.bind, environment,
    put, id, hloader, hload]
  rfl

theorem recurse_inclusion {path : Expr} (hkind : t.kind = .inclusion path) : recurse callee t env =
    match runInclusion callee t path { env with running := traceLine t :: env.running } with
    | .ok _ after => .ok () { after with running := after.running.tail }
    | .error e after => .error e after := by
  have htraced : t.kind.isTraced = true := by rw [hkind]; rfl
  have hperform : perform callee (recurseAll callee t.children) t =
      (do runInclusion callee t path; return none) := by
    simp only [perform, hkind]
  rw [recurse_of_perform hperform]
  simp only [bind, EStateM.bind, beginElement_listing, endElement_unlisting, listing, unlisting, htraced,
    if_true]
  cases runInclusion callee t path { env with running := traceLine t :: env.running } <;> rfl

/-- An inclusion that succeeds has run the template that goes by its name. -/
theorem exists_of_recurse_inclusion (hkind : t.kind = .inclusion (.string loc name)) {loader : Loader}
    {p : Template} (hloader : env.loader = some loader) (hload : loader.load name = .ok p)
    (hnesting : env.nesting < maxNesting) (h : recurse callee t env = .ok () after) :
    ∃ inside, callee t [p.tree] (including t name p loader env) = .ok () inside ∧
    after.sink = inside.sink := by
  have hentered : runInclusion callee t (.string loc name)
      { env with running := traceLine t :: env.running } = _ :=
    runInclusion_eq hloader hload hnesting
  rw [recurse_inclusion hkind, hentered] at h
  simp only [closing, mapError] at h
  change ∃ inside, callee t [p.tree] _ = _ ∧ _
  unfold including
  generalize callee t [p.tree] _ = r at h ⊢
  cases r with
  | ok _ inside =>
    cases h
    exact ⟨inside, rfl, rfl⟩
  | error e inside => cases h

/-- Processing succeeds when the visit does and the output can be completed. -/
theorem process_ok_iff {t : Tree} {env after : Environment} :
    (Environment.process t : Action Unit) env = .ok () after ↔
    ∃ between, (Environment.visit t : Action Unit) { env with macros := withMacrosOf t env.macros } =
      .ok () between ∧
      between.sink.flush.1 = .ok () ∧ after = { between with sink := between.sink.flush.2 } := by
  have hregister : (do registerMacros t; Environment.visit t : Action Unit) env =
      (Environment.visit t : Action Unit) { env with macros := withMacrosOf t env.macros } := rfl
  rw [Environment.process]
  simp only [hregister]
  cases hvisit : (Environment.visit t : Action Unit) { env with macros := withMacrosOf t env.macros } with
  | ok _ between =>
    simp only [flush, environment, id, put]
    rcases hflush : between.sink.flush with ⟨outcome, sink⟩
    cases outcome with
    | ok =>
      refine ⟨fun h => ⟨between, rfl, by rw [hflush], ?_⟩, ?_⟩
      · cases h
        rw [hflush]
      · rintro ⟨_, hsame, -, rfl⟩
        cases hsame
        rw [hflush]
    | error fault =>
      refine ⟨fun h => ?_, ?_⟩
      · cases h
      · rintro ⟨_, hsame, hok, -⟩
        cases hsame
        rw [hflush] at hok
        cases hok
  | error e between =>
    dsimp only
    refine ⟨fun h => ?_, ?_⟩
    · split at h <;> cases h
    · rintro ⟨_, hsame, -⟩
      cases hsame

/-- A tree that holds one inclusion and nothing else, when it is processed with success: so is the included
template where the name is not running, with the same output. -/
theorem process_included {s : Tree} (hs : s.kind = .sequence) (hchildren : s.children = [t])
    (hkind : t.kind = .inclusion (.string loc name)) (hleaf : t.children = []) {loader : Loader}
    {p : Template} (hloader : env.loader = some loader) (hload : loader.load name = .ok p)
    (hnesting : env.nesting < maxNesting) (h : (Environment.process s : Action Unit) env = .ok () after) :
    ∃ after', (Environment.process p.tree : Action Unit) env = .ok () after' ∧ after'.sink = after.sink := by
  have hmacros : withMacrosOf s env.macros = env.macros := by
    rw [withMacrosOf_eq, definitions_cons, ownDefinition, hs, hchildren, definitions_cons,
      ownDefinition, hkind, hleaf]
    rfl
  obtain ⟨between, hvisit, hflush, rfl⟩ := process_ok_iff.1 h
  rw [hmacros] at hvisit
  have hlevels : maxNesting - env.nesting = (maxNesting - (env.nesting + 1)) + 1 := by omega
  have hrecurse : recurse (fun _ => recurseWithin (maxNesting - (env.nesting + 1))) t env =
      .ok () between := by
    have hrun : recurseWithin (maxNesting - env.nesting) [s] env = .ok () between := by
      rw [Environment.visit, Environment.run_eq] at hvisit
      exact hvisit
    rwa [hlevels, recurseWithin, recurseAll_singleton, recurse_sequence hs, hchildren,
      recurseAll_singleton] at hrun
  obtain ⟨inside, hinside, hsink⟩ := exists_of_recurse_inclusion hkind hloader hload hnesting hrecurse
  have hrunning : (Environment.visit p.tree : Action Unit) (including t name p loader env) =
      .ok () inside := by
    rw [Environment.visit, Environment.run_eq]
    exact hinside
  have hrest : ({ env with macros := withMacrosOf p.tree env.macros } : Environment).unguarded =
      (including t name p loader env).unguarded := by
    simp only [Environment.unguarded, including, hloader]
    rfl
  have hinclusions : ({ env with macros := withMacrosOf p.tree env.macros } : Environment).inclusions ⊆
      (including t name p loader env).inclusions := by
    simp only [Environment.inclusions, including, hloader]
    exact List.subset_cons_self _ _
  obtain ⟨between', hvisit', hrest⟩ := visit_unguarded p.tree hrest (Nat.le_succ _) hinclusions hrunning
  have hsink' : between'.sink = between.sink := (congrArg (·.sink) hrest).trans hsink.symm
  refine ⟨_, process_ok_iff.2 ⟨between', hvisit', by rwa [hsink'], rfl⟩, ?_⟩
  simp only [hsink']

end

/-- Results that differ in their macros are both successes. -/
theorem exists_ok_of_withoutMacros {r : EStateM.Result TemplateError Environment Unit} {after : Environment}
    (h : withoutMacros r = withoutMacros (.ok () after)) :
    ∃ after', r = .ok () after' ∧ after'.sink = after.sink := by
  cases r with
  | ok _ after' =>
    obtain ⟨-, hsame⟩ := EStateM.Result.ok.inj h
    exact ⟨after', rfl, (Environment.mk.inj hsame).1⟩
  | error e after' => cases h

end Execution

/-! ### The template of one inclusion -/

section
open Execution Arena Shape

theorem exists_of_unplaced {c : Tree} {name : String}
    (h : c.unplaced = ⟨.inclusion (.string {} name), {}, false, []⟩) :
    ∃ loc, c.kind = .inclusion (.string loc name) ∧ c.children = [] := by
  rw [Tree.unplaced_eq] at h
  obtain ⟨hkind, -, -, hchildren⟩ := Tree.mk.inj h
  cases hk : c.kind with
  | inclusion path =>
    rw [hk] at hkind
    cases path with
    | string loc s =>
      cases hkind
      exact ⟨loc, rfl, Tree.eq_nil_of_unplaceds hchildren⟩
    | _ => cases hkind
  | _ =>
    rw [hk] at hkind
    cases hkind

/-- The tag of an inclusion is read as a template, which is processed like an inclusion and nothing else. -/
theorem exists_of_inclusionTag (origin : Option String) (strip : Bool) (name : String) :
    ∃ t, Template.parse origin (Kind.tag ("#include " ++ quote name)) strip = .ok t ∧
      ∃ (s c : Tree) (loc : Location), s.kind = .sequence ∧ s.children = [c] ∧
        c.kind = .inclusion (.string loc name) ∧ c.children = [] ∧
        ∀ env, withoutMacros ((Environment.process s : Action Unit) env) =
          withoutMacros ((Environment.process t.tree : Action Unit) env) := by
  have hread : Tree.AsRead false false [⟨.inclusion (.string {} name), {}, false, []⟩] :=
    .element nofun nofun (.string {} name) (fun _ => rfl) nofun rfl .nil .nil
  obtain ⟨u, hparse, hsequence, -, hchildren⟩ :=
    Tree.parse_markups hread.written hread.placed (hread.hasSeams fun _ => rfl) origin
  rw [hread.rereadAfter_eq fun _ => rfl] at hchildren
  obtain ⟨c, hc, hsame⟩ := Tree.eq_singleton_of_unplaceds hchildren
  obtain ⟨loc, hkind, hleaf⟩ := exists_of_unplaced hsame
  have htag : Tree.markups true [⟨.inclusion (.string {} name), {}, false, []⟩] =
      Kind.tag ("#include " ++ quote name) := by
    simp [Tree.markups, Tree.markup, Kind.openTag, Tree.showsChildren, Tree.closeTag, Expr.canonical]
  rw [htag] at hparse
  obtain ⟨t, parts, us, ht, hfinished⟩ := exists_finished hparse strip
  have hholds := hfinished.holds
  have huncleaned := hfinished.uncleaned
  rw [Holds] at hholds
  obtain ⟨hroot, -, hparts, -⟩ := hholds
  rw [hc] at hparts
  -- The element that was read has one child, and so has its shape.
  have hnone : ∀ ss, Holds (Arena.load {} u).1 ss [] → ss = [] := by
    intro ss hss
    cases ss with
    | nil => rfl
    | cons s ss => simp only [Holds] at hss
  obtain ⟨part, rfl, hpart⟩ : ∃ part, parts = [⟨part, []⟩] ∧
      ((Arena.load {} u).1.get part).kind = c.kind := by
    cases parts with
    | nil => simp only [Holds] at hparts
    | cons part rest =>
      obtain ⟨part, inner⟩ := part
      rw [Holds, hleaf] at hparts
      obtain ⟨hpart, -, hinner, hrest⟩ := hparts
      exact ⟨part, by rw [hnone inner hinner, hnone rest hrest], hpart⟩
  rw [trees_singleton, trees_singleton, hroot, hpart, hsequence, hkind] at huncleaned
  refine ⟨t, ht, _, _, loc, rfl, rfl, ?_, ?_,
    process_eq_of_sameRun ((List.cons.inj huncleaned).1 ▸ hfinished.sameRun)⟩
  · rfl
  · simp only [trees_nil]

/-- What guards a run never changes its result: an element that is visited with success, is so where less is
running, and leaves the same behind but for what is running. And so including a template comes to running it:
if the template of one inclusion renders, so does the template that it includes, with the same output. -/
theorem Environment.visit_ignores_guards :
    (∀ (t : Tree) (env env' after : Environment), env'.unguarded = env.unguarded →
      env'.nesting ≤ env.nesting →
      env'.inclusions ⊆ env.inclusions → (Environment.visit t : Action Unit) env = .ok () after →
      ∃ after', (Environment.visit t : Action Unit) env' = .ok () after' ∧
      after'.unguarded = after.unguarded) ∧
    ∀ (origin : Option String) (strip : Bool) (name : String),
      ∃ t, Template.parse origin (Kind.tag ("#include " ++ quote name)) strip = .ok t ∧
        ∀ (files : FileSystem) (settings : Settings) (data : Json) (sink : Sink) (env : Environment)
          (loader : Loader) (p : Template),
          Environment.make files settings data sink = .ok env → env.loader = some loader →
          loader.load name = .ok p →
          ∀ written, t.renderTo files settings data sink = (.ok (), written) →
            p.renderTo files settings data sink = (.ok (), written) := by
  refine ⟨fun t env env' after rest nesting inclusions h => visit_unguarded t rest nesting inclusions h,
    fun origin strip name => ?_⟩
  obtain ⟨t, hparse, s, c, loc, hs, hchildren, hkind, hleaf, hsame⟩ :=
    exists_of_inclusionTag origin strip name
  refine ⟨t, hparse, fun files settings data sink env loader p hmake hloader hload written hrender => ?_⟩
  obtain ⟨entries, loader, -, rfl⟩ := Environment.exists_of_make hmake
  rw [Template.renderTo_eq, hmake] at hrender ⊢
  dsimp only at hrender ⊢
  cases hprocess : (Environment.process t.tree : Action Unit)
    { sink, context := { root := ⟨entries⟩ }, loader } with
  | error e after =>
    rw [hprocess] at hrender
    cases hrender
  | ok _ after =>
    rw [hprocess] at hrender
    cases hrender
    obtain ⟨after', hprocess', hsink'⟩ :=
      exists_ok_of_withoutMacros ((hsame _).trans (congrArg withoutMacros hprocess))
    obtain ⟨after'', hprocess'', hsink''⟩ :=
      process_included hs hchildren hkind hleaf hloader hload (show 0 < maxNesting by decide) hprocess'
    rw [hprocess'', ← hsink', ← hsink'']
    rfl

/-- A folder with one file, which binds a name and writes its value. -/
def oneFile : FileSystem :=
  ⟨[(["r"], .folder), (["r", "a.t"], .file "\x7b[#assign x = 1]\x7dy\x7b[ x ]\x7d".toUTF8)]⟩

/-- An evaluated text below five levels of nesting, and the inclusion of a file. -/
theorem Environment.visit_ignores_guards_included :
    let evaluated : Tree := { (default : Tree) with kind := .interpolation (.eval {} (.string {} "1")) }
    let nested : Environment := { (default : Environment) with nesting := 5, running := ["call"] }
    let settings : Settings := { includeRoot := some "/r", templateExtension := "t" }
    let loader : Loader := { files := oneFile, root := ["r"], extension := "t", strip := true }
    (∃ after after', (Environment.visit evaluated : Action Unit) nested = .ok () after ∧
      (Environment.visit evaluated : Action Unit) default = .ok () after' ∧
      after'.unguarded = after.unguarded) ∧
    ∃ t p written, Template.parse none (Kind.tag ("#include " ++ quote "/a")) true = .ok t ∧
      loader.load "/a" = .ok p ∧
      t.renderTo oneFile settings (.object []) {} = (.ok (), written) ∧
      p.renderTo oneFile settings (.object []) {} = (.ok (), written) := by
  intro evaluated nested settings loader
  constructor
  · cases hvisit : (Environment.visit evaluated : Action Unit) nested with
    | error e after =>
      have hsucceeds : succeeds ((Environment.visit evaluated : Action Unit) nested) =
        true := by decide +kernel
      rw [hvisit] at hsucceeds
      cases hsucceeds
    | ok _ after =>
      obtain ⟨after', hvisit', hsame⟩ :=
        Environment.visit_ignores_guards.1 evaluated nested default after rfl (by decide) (by decide) hvisit
      exact ⟨after, after', rfl, hvisit', hsame⟩
  · obtain ⟨t, ht, hrenders⟩ := Environment.visit_ignores_guards.2 none true "/a"
    obtain ⟨p, hload⟩ := exists_of_isSome (show (loader.load "/a").toOption.isSome = true by decide +kernel)
    have hrender : (Template.parse none (Kind.tag ("#include " ++ quote "/a")) true).toOption.any
        (fun t => (t.renderTo oneFile settings (.object []) {}).1.toOption.isSome) = true := by decide +kernel
    rw [ht] at hrender
    obtain ⟨_, hok⟩ := exists_of_isSome hrender
    have hwritten : t.renderTo oneFile settings (.object []) {} =
        (.ok (), (t.renderTo oneFile settings (.object []) {}).2) :=
      Prod.ext hok rfl
    exact ⟨t, p, _, ht, hload, hwritten,
      hrenders oneFile settings (.object []) {} _ loader p rfl rfl hload _ hwritten⟩

end

end Stencil
