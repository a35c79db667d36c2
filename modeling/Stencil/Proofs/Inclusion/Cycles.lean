import Stencil.Proofs.Execution.Balance
import Stencil.Proofs.Execution.Calm

/-! # Circular inclusions

A loader keeps the names of the running inclusions, and refuses a name that is among them. Which inclusions
are running can be read off the history of a run without the loader: an inclusion is running from when its
template begins to when it is closed. The two agree at every moment of a run, whatever calls, inclusions and
faults come together in it. -/

namespace Stencil

open Execution TemplateError

/-! ### What a loader refuses -/

namespace Loader

variable {l : Loader} {name : String} {e : TemplateError} {t : Template}

/-- The same loader while other inclusions are running. -/
def including (l : Loader) (names : List String) : Loader := { l with running := names }

theorem chainTo_eq {inner outer : List String} (hrunning : l.running = inner ++ name :: outer)
    (houter : name ∉ outer) :
    l.chainTo name = name :: inner.reverse ++ [name] := by
  have hskipped : ∀ other ∈ outer.reverse, decide (other ≠ name) = true := by
    intro other hother
    exact decide_eq_true fun h => houter (List.mem_reverse.1 (h ▸ hother))
  have hreverse : l.running.reverse = outer.reverse ++ name :: inner.reverse := by
    rw [hrunning, List.reverse_append, List.reverse_cons, List.append_assoc]
    rfl
  rw [chainTo, hreverse, List.dropWhile_append_of_pos hskipped, List.dropWhile_cons_of_neg (by simp)]

/-- A name is refused for a circular inclusion just when it is running, and the chain goes from there to the
innermost inclusion and back to the name. -/
theorem load_circular_iff (hname : checkName name = .ok ()) (hnodup : l.running.Nodup) (chain : List String) :
    l.load name = .error (.inclusion (.circular chain) none) ↔
      ∃ inner outer, l.running = inner ++ name :: outer ∧ chain = name :: inner.reverse ++ [name] := by
  have houter : ∀ {inner outer : List String}, l.running = inner ++ name :: outer → name ∉ outer := by
    intro inner outer hrunning
    rw [hrunning] at hnodup
    exact (List.nodup_cons.1 (List.nodup_append.1 hnodup).2.1).1
  unfold load
  simp only [hname, Bind.bind, Except.bind]
  split
  · next hmem =>
    obtain ⟨inner, outer, hrunning⟩ := List.append_of_mem hmem
    constructor
    · intro h
      cases h
      exact ⟨inner, outer, hrunning, chainTo_eq hrunning (houter hrunning)⟩
    · rintro ⟨inner', outer', hrunning', rfl⟩
      rw [← chainTo_eq hrunning' (houter hrunning')]
      rfl
  · next hmem =>
    constructor
    · intro h
      repeat' split at h
      all_goals cases h
    · rintro ⟨inner, outer, hrunning, -⟩
      exact absurd (hrunning ▸ List.mem_append_right inner List.mem_cons_self) hmem

/-- A run is abandoned only for an extension that no file can have. -/
theorem mem_extension_of_load (h : l.load name = .error e) (he : e.abandons = true) :
    '/' ∈ l.extension.toList := by
  cases refusal_of_load h with
  | extension slash => exact slash
  | inclusion | notText => cases he

end Loader

/-! ### What a history tells -/

/-- The name of the template that an element asks for when it begins. -/
def Environment.asked? (env : Environment) (t : Tree) : Option String :=
  match t.kind with
  | .inclusion path =>
    match path.evaluateWithin (maxNesting - env.nesting) env.context with
    | .ok (.string name) => some name
    | _ => none
  | _ => none

theorem Environment.asked?_eq_none (env : Environment) {t : Tree} (h : ∀ path, t.kind ≠ .inclusion path) :
    env.asked? t = none := by
  unfold asked?
  split
  · next path hkind => exact absurd hkind (h path)
  · rfl

/-- What can be told about inclusions from what has happened. -/
structure Inclusions where
  /-- The name that was asked for, if an inclusion has just begun. -/
  asked : Option String := none
  /-- The names of the running inclusions, innermost first. -/
  running : List String := []

namespace Inclusions

/-- The names of the inclusions that are running when something happens. Where an element begins right after
an inclusion it is that of the template, which is running from then on. -/
def during (s : Inclusions) : Event → List String
  | .begins _ => s.asked.toList ++ s.running
  | _ => s.running

/-- What can be told when one more thing has happened. -/
def next (s : Inclusions) (m : Moment) : Inclusions :=
  match m.event with
  | .begins t => ⟨m.environment.asked? t, s.during m.event⟩
  | .closes .inclusion => ⟨none, (s.during m.event).tail⟩
  | _ => ⟨none, s.during m.event⟩

/-- What a history tells. -/
def after (ms : List Moment) : Inclusions := ms.foldl next {}

theorem after_concat (ms : List Moment) (m : Moment) : after (ms ++ [m]) = (after ms).next m :=
  List.foldl_concat next {} m ms

end Inclusions

/-- An environment in which the inclusions of some names are running, innermost first. -/
structure Environment.Includes (env : Environment) (names : List String) : Prop where
  running : (env.loader.map (·.running)).getD [] = names
  nodup : names.Nodup
  nested : names.length ≤ env.nesting
  /-- A name that is in order is refused for a circular inclusion just when it is running, and the chain has
  the names from there to the innermost one, and the name again. -/
  circular : ∀ l, env.loader = some l → ∀ name, Loader.checkName name = .ok () → ∀ chain,
    l.load name = .error (.inclusion (.circular chain) none) ↔
      ∃ inner outer, names = inner ++ name :: outer ∧ chain = name :: inner.reverse ++ [name]

namespace Execution

open Stencil.Action Recorder

/-! ### States whose history is told -/

/-- A state with such names in its loader and such a history. At all moments of the history the loader had
the names that the history tells. -/
structure Told (base : Option Loader) (s : Inclusions) (names : List String) (h : History) : Prop where
  moments : ∀ before m after, h.moments = before ++ m :: after →
    m.environment.Includes ((Inclusions.after before).during m.event)
  after : Inclusions.after h.moments = s
  loader : h.environment.loader = base.map (·.including names)
  nodup : names.Nodup
  nested : names.length ≤ h.environment.nesting
  /-- Inclusions run only where no run is abandoned. -/
  extension : names ≠ [] → ∃ l, base = some l ∧ '/' ∉ l.extension.toList

section
variable {base : Option Loader} {s : Inclusions} {asked : Option String} {name : String}
  {names : List String} {h h' : History}

theorem Told.includes (ht : Told base s names h) : h.environment.Includes names where
  running := by
    rw [ht.loader]
    cases hbase : base with
    | some l => rfl
    | none =>
      by_contra hnames
      obtain ⟨l, hl, -⟩ := ht.extension (Ne.symm hnames)
      rw [hbase] at hl
      cases hl
  nodup := ht.nodup
  nested := ht.nested
  circular l hl name hname chain := by
    rw [ht.loader] at hl
    obtain ⟨l, -, rfl⟩ := Option.map_eq_some_iff.1 hl
    exact Loader.load_circular_iff hname ht.nodup chain

/-- Only the history, the loader and the level of nesting count. -/
theorem Told.of_same (ht : Told base s names h) (moments : h'.moments = h.moments)
    (loader : h'.environment.loader = h.environment.loader)
    (nesting : h'.environment.nesting = h.environment.nesting) :
    Told base s names h' := by
  refine ⟨?_, ?_, loader.trans ht.loader, ht.nodup, nesting ▸ ht.nested, ht.extension⟩
  · rw [moments]
    exact ht.moments
  · rw [moments, ht.after]

theorem Told.still (ht : Told base s names h) (hstill : Still h h') : Told base s names h' :=
  ht.of_same hstill.moments hstill.loader hstill.nesting

/-- One more thing happens. -/
theorem Told.note (ht : Told base s names h) (e : Event) (hnames : s.during e = names) :
    Told base (s.next ⟨e, h.environment⟩) names (note e h) where
  moments := by
    refine forall_splits_concat ht.moments ?_
    rw [ht.after, hnames]
    exact ht.includes
  after := by
    change Inclusions.after (h.moments ++ [⟨e, h.environment⟩]) = _
    rw [Inclusions.after_concat, ht.after]
  loader := ht.loader
  nodup := ht.nodup
  nested := ht.nested
  extension := ht.extension

/-- An enclosure other than an inclusion is closed. -/
theorem Told.closed (ht : Told base ⟨asked, names⟩ names h) {e : Enclosure} (he : e ≠ .inclusion)
    (hnested : names.length ≤ (e.close h.environment).nesting) :
    Told base ⟨none, names⟩ names (closed e h) := by
  have hnoted := ht.note (.closes e) rfl
  have hnext : Inclusions.next ⟨asked, names⟩ ⟨.closes e, h.environment⟩ = ⟨none, names⟩ := by
    cases e with
    | inclusion => exact absurd rfl he
    | level | scope | capture => rfl
  have hloader : (e.close h.environment).loader = h.environment.loader := by
    cases e with
    | inclusion => exact absurd rfl he
    | level | scope | capture => rfl
  rw [hnext] at hnoted
  exact ⟨hnoted.moments, hnoted.after, hloader.trans ht.loader, ht.nodup, hnested, ht.extension⟩

/-- The innermost inclusion is closed. -/
theorem Told.closedInclusion (ht : Told base ⟨asked, name :: names⟩ (name :: names) h) :
    Told base ⟨none, names⟩ names (Action.closed .inclusion h) := by
  have hnoted := ht.note (.closes .inclusion) rfl
  have hloader : (Enclosure.inclusion.close h.environment).loader = base.map (·.including names) := by
    change h.environment.loader.map _ = _
    rw [ht.loader, Option.map_map]
    rfl
  refine ⟨hnoted.moments, hnoted.after, hloader, (List.nodup_cons.1 ht.nodup).2, ?_, fun _ =>
    ht.extension (List.cons_ne_nil _ _)⟩
  exact Nat.le_of_succ_le ht.nested

end

/-- A state in which such inclusions are running, at such a level of nesting. -/
structure Settled (base : Option Loader) (names : List String) (n : Nat) (h : History) : Prop where
  told : Told base ⟨none, names⟩ names h
  nesting : h.environment.nesting = n

/-- A state in which an element can begin: the template of an inclusion can, too. -/
structure Ready (base : Option Loader) (names : List String) (n : Nat) (h : History) : Prop where
  told : ∃ s : Inclusions, s.asked.toList ++ s.running = names ∧ Told base s names h
  nesting : h.environment.nesting = n

theorem Settled.ready {base : Option Loader} {names : List String} {n : Nat} {h : History}
    (hs : Settled base names n h) :
    Ready base names n h := ⟨⟨_, rfl, hs.told⟩, hs.nesting⟩

/-- A result that leaves the same inclusions running. An inclusion that could not be loaded may just have
been asked for, and a run that is abandoned leaves levels of nesting open, but no inclusion. -/
inductive Settles {α : Type} (base : Option Loader) (names : List String) (n : Nat) :
    EStateM.Result TemplateError History α → Prop
  | ok {x : α} {h : History} (settled : Settled base names n h) : Settles base names n (.ok x h)
  | error {e : TemplateError} {h : History} {asked : Option String} (told : Told base ⟨asked, names⟩ names h)
    (nesting : e.abandons = false → h.environment.nesting = n) (abandoned : e.abandons = true → names = []) :
    Settles base names n (.error e h)

section
variable {α β : Type} {base : Option Loader} {asked : Option String} {names : List String} {n : Nat}
  {h : History} {t : Tree}

theorem Settles.plain {e : TemplateError} (he : e.Plain) (ht : Told base ⟨asked, names⟩ names h)
    (hnesting : h.environment.nesting = n) :
    Settles base names n (.error e h : EStateM.Result TemplateError History α) :=
  .error ht (fun _ => hnesting) fun habandons => absurd (habandons.symm.trans he.returns) nofun

theorem Settles.quiet {act : Run History α} (hact : Quiet act) (hs : Settled base names n h) :
    Settles base names n (act h) := by
  have hresult := hact h
  generalize act h = r at hresult
  cases hresult with
  | ok still => exact .ok ⟨hs.told.still still, still.nesting.trans hs.nesting⟩
  | error still plain => exact .plain plain (hs.told.still still) (still.nesting.trans hs.nesting)

theorem Settles.bind {act : Run History α} {f : α → Run History β} (hact : Settles base names n (act h))
    (hf : ∀ x h', Settled base names n h' → Settles base names n (f x h')) :
    Settles base names n ((act >>= f) h) := by
  simp only [Bind.bind, EStateM.bind]
  generalize act h = r at hact
  cases hact with
  | ok settled => exact hf _ _ settled
  | error told nesting abandoned => exact .error told nesting abandoned

theorem Settles.mapError {act : Run History α} {f : TemplateError → TemplateError}
    (hf : ∀ e, (f e).abandons = e.abandons) (hact : Settles base names n (act h)) :
    Settles base names n (mapError f act h) := by
  unfold Action.mapError
  generalize act h = r at hact
  cases hact with
  | ok settled => exact .ok settled
  | @error e _ _ told nesting abandoned => exact .error told (hf e ▸ nesting) (hf e ▸ abandoned)

/-- Closing an enclosure other than an inclusion leaves as many levels open as `close` says. -/
theorem Settles.closing {m : Nat} {act : Run History α} (e : Enclosure) (he : e ≠ .inclusion)
    (hact : Settles base names m (act h))
    (hclose : ∀ env : Environment, env.nesting = m → (e.close env).nesting = n)
    (hn : names.length ≤ m → names.length ≤ n) :
    Settles base names n (closing e act h) := by
  unfold Action.closing
  generalize act h = r at hact
  cases hact with
  | @ok _ h' settled =>
    have hnesting := hclose h'.environment settled.nesting
    exact .ok ⟨settled.told.closed he (hnesting ▸ hn (settled.nesting ▸ settled.told.nested)), hnesting⟩
  | @error err h' _ told nesting abandoned =>
    dsimp only
    split
    · next habandons => exact .error told (fun h => absurd (habandons.symm.trans h) nofun) abandoned
    · next habandons =>
      have hinner := nesting (Bool.eq_false_iff.2 habandons)
      have hnesting := hclose h'.environment hinner
      exact .error (told.closed he (hnesting ▸ hn (hinner ▸ told.nested))) (fun _ => hnesting) abandoned

/-- Opening a level of nesting, unless there are too many. -/
theorem Settles.enter {act : Run History α} (ht : Told base ⟨asked, names⟩ names h)
    (hn : h.environment.nesting = n)
    (hact : n < maxNesting → ∀ h', Told base ⟨asked, names⟩ names h' → h'.environment.nesting = n + 1 →
      Settles base names (n + 1) (act h')) :
    Settles base names n ((do enter t; Action.closing .level act : Run History α) h) := by
  rw [enter_closing]
  split
  · exact .plain (plain_of_site rfl rfl rfl) ht hn
  · next hfits =>
    have hopened : Told base ⟨asked, names⟩ names
        (put { h.environment with nesting := h.environment.nesting + 1 } h) :=
      ⟨ht.moments, ht.after, ht.loader, ht.nodup, Nat.le_succ_of_le ht.nested, ht.extension⟩
    have hinner := hact (hn ▸ Nat.lt_of_not_le hfits) _ hopened (congrArg (· + 1) hn)
    exact .closing .level nofun hinner (fun _ h => congrArg (· - 1) h) fun _ => hn ▸ ht.nested

/-- The discipline of runs that leave the same inclusions running. -/
def settling (base : Option Loader) (names : List String) (n : Nat) : Discipline where
  begins := Settled base names n
  allows := Settles base names n
  calm hact hs := .quiet hact.quiet hs
  bind hact hf := hact.bind hf
  closing he hact := by rcases he with rfl | rfl <;> exact hact.closing _ nofun (fun _ h => h) id

/-! ### Actions of an element -/

/-- What running bodies elsewhere leaves: it begins with an element if there is one. -/
structure Steady (base : Option Loader) (n : Nat) (run : List Tree → Run History Unit) : Prop where
  settled {names : List String} {h : History} : Settled base names n h → ∀ ts, Settles base names n (run ts h)
  ready {names : List String} {h : History} : Ready base names n h → ∀ t, Settles base names n (run [t] h)

/-- What running bodies one level deeper leaves, if there is such a level. -/
def CalleeSteady (base : Option Loader) (n : Nat) (callee : Tree → List Tree → Run History Unit) : Prop :=
  n < maxNesting → ∀ site, Steady base (n + 1) (callee site)

section
variable {callee : Tree → List Tree → Run History Unit} {body : Run History Unit}

theorem settles_callMacro (hcallee : CalleeSteady base n callee) (t : Tree) (name : String)
    (arguments : List Expr) (hs : Settled base names n h) :
    Settles base names n (callMacro callee t name arguments h) := by
  refine Settles.bind (.quiet quiet_current hs) fun env h₁ hs₁ => ?_
  cases env.macros.get? name with
  | none => exact .quiet (quiet_throw (plain_of_site rfl rfl rfl)) hs₁
  | some d =>
    dsimp only
    cases d.kind with
    | definition _ parameters =>
      by_cases hmany : arguments.length > parameters.length
      · simp only [hmany, if_true]
        exact .quiet (quiet_throw (plain_of_site rfl rfl rfl)) hs₁
      · simp only [hmany, if_false]
        refine Settles.bind (.quiet (quiet_bindParameters _ _ _) hs₁) fun bindings h₂ hs₂ => ?_
        refine .enter hs₂.told hs₂.nesting fun hfits h₃ ht₃ hn₃ => ?_
        refine Settles.bind (.quiet (quiet_pushScope _ _) ⟨ht₃, hn₃⟩) fun _ h₄ hs₄ => ?_
        exact .closing .scope nofun ((hcallee hfits t).settled hs₄ _) (fun _ h => h) id
    | _ => exact .quiet (quiet_throw (plain_of_site rfl rfl rfl)) hs₁

theorem includeTemplate_eq (callee : Tree → List Tree → Run History Unit) (t : Tree)
    (name : String) (h : History) :
    includeTemplate callee t name h =
      match (match h.environment.loader with
        | some loader => loader.load name
        | none => Loader.fail (.noRoot name)) with
      | .ok template =>
        (do registerMacros template.tree; beginInclusion name; closing .inclusion (callee t
          [template.tree]) : Run History Unit) h
      | .error e => .error e h := by
  simp only [includeTemplate, Bind.bind, EStateM.bind, observe, environment]
  cases h.environment.loader with
  | none => rfl
  | some loader =>
    dsimp only
    cases loader.load name <;> rfl

/-- Closing an inclusion leaves those around it. -/
theorem Settles.closingInclusion {act : Run History α} {name : String}
    (hact : Settles base (name :: names) n (act h)) :
    Settles base names n (Action.closing .inclusion act h) := by
  unfold Action.closing
  generalize act h = r at hact
  cases hact with
  | ok settled => exact .ok ⟨settled.told.closedInclusion, settled.nesting⟩
  | @error e _ _ told nesting abandoned =>
    cases habandons : e.abandons with
    | true => exact absurd (abandoned habandons) (List.cons_ne_nil name names)
    | false =>
      simp only [habandons]
      exact .error told.closedInclusion (fun _ => nesting habandons) fun h =>
        absurd (habandons.symm.trans h) nofun

/-- A template that was asked for runs in an inclusion of its name, if it can be loaded. -/
theorem settles_includeTemplate (hcallee : Steady base n (callee t)) {name : String}
    (ht : Told base ⟨some name, names⟩ names h)
    (hn : h.environment.nesting = n) (hnested : names.length < n) : Settles base names n
    (includeTemplate callee t name h) := by
  have hloader := ht.loader
  rw [includeTemplate_eq, hloader]
  cases base with
  | none => exact .error ht (fun _ => hn) nofun
  | some l =>
    change Settles (some l) names n
      (match (l.including names).load name with | .ok _ => _ | .error e => .error e h)
    cases hload : (l.including names).load name with
    | error e =>
      refine .error ht (fun _ => hn) fun habandons => by_contra fun hnames => ?_
      obtain ⟨l', hl', hextension⟩ := ht.extension hnames
      cases hl'
      have hslash : '/' ∈ (l.including names).extension.toList := Loader.mem_extension_of_load hload habandons
      exact hextension hslash
    | ok template =>
      obtain ⟨-, hfresh, hextension, -⟩ := Loader.exists_of_load hload
      have hbegun : Told (some l) ⟨some name, names⟩ (name :: names) (put { h.environment with
          macros := withMacrosOf template.tree h.environment.macros,
            loader := h.environment.loader.map (·.beginInclusion name) } h) :=
        ⟨ht.moments, ht.after, congrArg (Option.map _) hloader,
          List.nodup_cons.2 ⟨hfresh, ht.nodup⟩, hn.symm ▸ hnested,
          fun _ => ⟨l, rfl, hextension⟩⟩
      exact .closingInclusion (hcallee.ready ⟨⟨_, rfl, hbegun⟩, hn⟩ template.tree)

/-- The element asks for a template as it is told. -/
theorem settles_runInclusion (hcallee : CalleeSteady base n callee) {path : Expr}
    (hkind : t.kind = .inclusion path) (ht : Told base ⟨h.environment.asked? t, names⟩ names h)
    (hn : h.environment.nesting = n) :
    Settles base names n (runInclusion callee t path h) := by
  simp only [runInclusion, Bind.bind, EStateM.bind, evaluate, observe, environment]
  cases hvalue : path.evaluateWithin (maxNesting - h.environment.nesting) h.environment.context with
  | error e => exact .plain (Expr.plain_evaluateWithin _ path hvalue) ht hn
  | ok v =>
    cases v with
    | string name =>
      have hasked : h.environment.asked? t = some name := by
        simp only [Environment.asked?, hkind, hvalue]
      rw [hasked] at ht
      refine Settles.enter ht hn fun hfits h₁ ht₁ hn₁ => ?_
      refine .mapError (fun e => e.abandons_locatedAt t)
        (settles_includeTemplate (hcallee hfits t) ht₁ hn₁ ?_)
      exact Nat.lt_succ_of_le (hn ▸ ht.nested)
    | _ => exact .plain (plain_of_site rfl rfl rfl) ht hn

/-- An element's own action. -/
theorem settles_perform (hcallee : CalleeSteady base n callee) (hbody : (settling base names n).Keeps body)
    (ht : Told base ⟨h.environment.asked? t, names⟩ names h) (hn : h.environment.nesting = n) :
    Settles base names n (perform callee body t h) := by
  have thenNothing : ∀ {act : Run History Unit}, Settles base names n (act h) →
      Settles base names n ((do act; return (none : Handed t)) h) :=
    fun hact => hact.bind fun _ _ hs => .quiet (quiet_pure _) hs
  have settled (hother : ∀ path, t.kind ≠ .inclusion path) : Settled base names n h :=
    ⟨h.environment.asked?_eq_none hother ▸ ht, hn⟩
  rcases t.kind.elsewhere_or_ne with ⟨name, arguments, hkind⟩ | ⟨path, hkind⟩ | ⟨hcall, hinclusion⟩
  · simp only [perform, hkind]
    exact thenNothing (settles_callMacro hcallee t name arguments (settled (by simp [hkind])))
  · simp only [perform, hkind]
    exact thenNothing (settles_runInclusion hcallee hkind ht hn)
  · exact (settling base names n).keeps_perform hcall hinclusion (fun _ => hbody) h (settled hinclusion)

/-! ### Elements with what they hand back -/

theorem Ready.begun (hr : Ready base names n h) (t : Tree) :
    Told base ⟨(listing t h.environment).asked? t, names⟩ names
      ⟨listing t h.environment, h.moments ++ [⟨.begins t, h.environment⟩]⟩ := by
  obtain ⟨⟨s, hnames, ht⟩, -⟩ := hr
  have hnext : s.next ⟨.begins t, h.environment⟩ = ⟨(listing t h.environment).asked? t, names⟩ := by
    rw [← hnames]
    rfl
  exact hnext ▸ (ht.note (.begins t) hnames).of_same rfl rfl rfl

theorem Settled.ended (hs : Settled base names n h) (t : Tree) :
    Settled base names n ⟨unlisting t h.environment,
      h.moments ++ [⟨.ends t, unlisting t h.environment⟩]⟩ := by
  have hlisted : Told base ⟨none, names⟩ names ⟨unlisting t h.environment, h.moments⟩ :=
    hs.told.of_same rfl rfl rfl
  exact ⟨hlisted.note (.ends t) rfl, hs.nesting⟩

/-- An element begins and ends, or fails, and leaves the inclusions that were running when it began. -/
theorem settles_execute (hcallee : CalleeSteady base n callee) (t : Tree)
    (hbody : (settling base names n).Keeps body) (hr : Ready base names n h) :
    Settles base names n (execute callee body t h) := by
  have hperform : Settles base names n
      (perform callee body t ⟨listing t h.environment, h.moments ++ [⟨.begins t, h.environment⟩]⟩) :=
    settles_perform hcallee hbody (hr.begun t) hr.nesting
  simp only [execute, Bind.bind, EStateM.bind, beginElement_eq, telling]
  generalize perform callee body t _ = r at hperform ⊢
  cases hperform with
  | ok settled =>
    simp only [endElement_eq]
    exact .ok (settled.ended t)
  | error told nesting abandoned => exact .error (told.note (.fails t _) rfl) nesting abandoned

theorem steady_recurseAll (hcallee : CalleeSteady base n callee) : Steady base n (recurseAll callee) := by
  have hkeeps (names : List String) (ts : List Tree) : (settling base names n).Keeps (recurseAll callee ts) :=
    Discipline.keeps_recurseAll (fun t body hbody h hs => settles_execute hcallee t hbody hs.ready) ts
  refine ⟨fun hs ts => hkeeps _ ts _ hs, fun {names h} hr t => ?_⟩
  rw [recurseAll_singleton]
  exact (settling base names n).allows_recurse (fun hbody => settles_execute hcallee t hbody hr) fun ts _ =>
    hkeeps names ts

end

/-- The levels that are left when some are open are as many as are counted down. -/
theorem steady_recurseWithin (levels : Nat) (hlevels : maxNesting - n = levels) :
    Steady base n (recurseWithin levels) := by
  induction levels generalizing n with
  | zero =>
    refine steady_recurseAll fun hfits => ?_
    omega
  | succ levels ih => exact steady_recurseAll fun _ _ => ih (by omega)

end

/-! ### Whole templates -/

/-- Before anything has happened. -/
theorem settled_start {env : Environment} (hloader : ∀ l, env.loader = some l → l.running = []) :
    Settled env.loader [] env.nesting ⟨env, []⟩ where
  told := {
    moments := by simp
    after := rfl
    loader := by
      cases h : env.loader with
      | none => rfl
      | some l =>
        obtain ⟨files, root, extension, strip, running⟩ := l
        obtain rfl : running = [] := hloader _ h
        rfl
    nodup := .nil
    nested := Nat.zero_le _
    extension := fun h => absurd rfl h }
  nesting := rfl

theorem settles_visit {base : Option Loader} {names : List String} {n : Nat} {h : History}
    (hs : Settled base names n h) (t : Tree) :
    Settles base names n ((Environment.visit t : Run History Unit) h) := by
  obtain ⟨ht, rfl⟩ := hs
  rw [Environment.visit, Environment.run_eq]
  exact (steady_recurseWithin _ rfl).settled ⟨ht, rfl⟩ [t]

/-- A whole run leaves no inclusion running. -/
theorem told_process {base : Option Loader} {n : Nat} {h : History} (hs : Settled base [] n h) (t : Tree) :
    ∃ asked, Told base ⟨asked, []⟩ [] (stateOf ((Environment.process t : Run History Unit) h)) := by
  have hrun : Settles base [] n ((do registerMacros t; Environment.visit t : Run History Unit) h) :=
    (Settles.quiet (quiet_registerMacros t) hs).bind fun _ _ hs => settles_visit hs t
  simp only [Environment.process]
  generalize (do registerMacros t; Environment.visit t : Run History Unit) h = r at hrun
  cases hrun with
  | @ok _ h' settled =>
    simp only [flush]
    rcases (environment h').sink.flush with ⟨outcome, sink⟩
    cases outcome <;> exact ⟨none, settled.told.of_same rfl rfl rfl⟩
  | @error e h' asked told _ _ =>
    dsimp only
    split
    · exact ⟨asked, told⟩
    · exact ⟨asked, told.of_same rfl rfl rfl⟩

end Execution

namespace Environment

/-- At every moment of a run the names in the loader are those of the inclusions that the history tells are
running: none is there twice, there are no more of them than levels of nesting, and just those are refused
for a circular inclusion. In the end the loader is what it was. -/
theorem includes_of_process (t : Tree) (env : Environment)
    (hloader : ∀ l, env.loader = some l → l.running = []) :
    ∃ ms, (process t : Run History Unit) ⟨env, []⟩ = mapState (⟨·, ms⟩) ((process t : Action Unit) env) ∧
      (∀ before m after, ms = before ++ m :: after →
        m.environment.Includes ((Inclusions.after before).during m.event)) ∧
      (stateOf ((process t : Action Unit) env)).loader = env.loader := by
  have hsame : mapState History.environment ((process t : Run History Unit) ⟨env, []⟩) =
      (process t : Action Unit) env :=
    mapState_process t (⟨env, []⟩ : History)
  have hstart := settled_start hloader
  obtain ⟨asked, ht⟩ := told_process hstart t
  have hrestored := ht.loader.trans hstart.told.loader.symm
  rw [← hsame]
  generalize (process t : Run History Unit) ⟨env, []⟩ = r at ht hrestored
  refine ⟨(stateOf r).moments, ?_, ht.moments, ?_⟩
  · cases r <;> rfl
  · cases r <;> exact hrestored

/-- Two files that include each other. -/
def circle : FileSystem :=
  ⟨[(["r"], .folder), (["r", "a.t"], .file "\x7b[#include \"/b\"]\x7d".toUTF8),
    (["r", "b.t"], .file "\x7b[#include \"/a\"]\x7d".toUTF8)]⟩

def circling : Environment :=
  { sink := {}, context := { root := {} },
    loader := some { files := circle, root := ["r"], extension := "t", strip := true } }

/-- The file that is included first is asked for again in the one that it includes. -/
theorem includes_of_process_circle :
    let t : Tree := { (default : Tree) with kind := .inclusion (.string {} "/a") }
    ∃ ms before m after,
      (process t : Run History Unit) ⟨circling, []⟩ =
      mapState (⟨·, ms⟩) ((process t : Action Unit) circling) ∧
      ms = before ++ m :: after ∧ m.environment.Includes ["/b", "/a"] ∧
      (stateOf ((process t : Action Unit) circling)).loader = circling.loader := by
  intro t
  obtain ⟨ms, hwatched, hincludes, hrestored⟩ := includes_of_process t circling (fun l hl => by cases hl; rfl)
  have hms : ms = (stateOf ((process t : Run History Unit) ⟨circling, []⟩)).moments := by
    rw [hwatched]
    cases (process t : Action Unit) circling <;> rfl
  have hcircle : (match ms.drop 2 with
      | m :: _ => decide ((Inclusions.after (ms.take 2)).during m.event = ["/b", "/a"])
      | [] => false) = true := by
    rw [hms]
    decide +kernel
  have hsplit := List.take_append_drop 2 ms
  cases hrest : ms.drop 2 with
  | nil =>
    rw [hrest] at hcircle
    cases hcircle
  | cons m after =>
    rw [hrest] at hcircle hsplit
    have hthere := hincludes _ m after hsplit.symm
    rw [of_decide_eq_true hcircle] at hthere
    exact ⟨ms, ms.take 2, m, after, hwatched, hsplit.symm, hthere, hrestored⟩

end Environment

end Stencil
