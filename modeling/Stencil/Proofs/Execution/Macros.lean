import Stencil.Proofs.Execution.Registered
import Stencil.Proofs.Inclusion.Cycles

/-! # Callable macros

What can be called at a moment of a run can be told from what has happened before: the macros of the main
template, with those of each template that was included since then in place of what had their names. An
inclusion registers its template before anything of it begins, so a template whose first element begins, or
whose inclusion is closed, has been registered. -/

namespace Stencil

open Execution TemplateError

/-! ### What a history tells -/

/-- The template that an element includes when it begins, if it can be loaded. -/
def Environment.loaded? (env : Environment) (t : Tree) : Option Template :=
  (env.asked? t).bind fun name => env.loader.bind fun l => (l.load name).toOption

/-- What can be told about macros from what has happened. -/
structure Registrations where
  /-- The template that is to be registered, if an inclusion has just begun. -/
  loaded : Option Template := none
  /-- The macros that have been registered. -/
  table : Bindings MacroRef := {}

namespace Registrations

/-- The macros once the template that was loaded last is registered, too. -/
def settled (s : Registrations) : Bindings MacroRef :=
  match s.loaded with
  | some t => t.register s.table
  | none => s.table

/-- The macros that are registered when something happens. Where an element begins right after an inclusion
it is that of the template, which has been registered. -/
def during (s : Registrations) : Event → Bindings MacroRef
  | .begins _ | .closes .inclusion => s.settled
  | _ => s.table

/-- What can be told when one more thing has happened. -/
def next (s : Registrations) (m : Moment) : Registrations :=
  match m.event with
  | .begins t => ⟨m.environment.loaded? t, s.during m.event⟩
  | _ => ⟨none, s.during m.event⟩

/-- What a history tells that begins with some macros. -/
def after (base : Bindings MacroRef) (ms : List Moment) : Registrations := ms.foldl next ⟨none, base⟩

theorem after_concat (base : Bindings MacroRef) (ms : List Moment) (m : Moment) :
    after base (ms ++ [m]) = (after base ms).next m :=
  List.foldl_concat next _ m ms

end Registrations

/-- A moment at which what is called is what a table has under its name. -/
structure Moment.CallsThrough (m : Moment) (table : Bindings MacroRef) : Prop where
  refers : Refers table m.environment.macros
  /-- No element fails because what it calls is no macro. -/
  found (t : Tree) (e : TemplateError) : m.event = .fails t e → e.isNotMacro = false
  /-- Whoever watches, a call that begins is a call through the table. -/
  calls {σ : Type} [Recorder σ] (s : σ) (callee : Tree → List Tree → Run σ Unit) (t : Tree) (name : String)
    (arguments : List Expr) : m.event = .begins t → t.kind = .call name arguments →
      (Recorder.environment s).macros = m.environment.macros →
      callMacro callee t name arguments s = callThrough table callee t name arguments s

namespace Execution

open Stencil.Action Recorder

/-! ### States whose history is told -/

/-- A state with such macros and such a history. At all moments of the history calls went through the macros
that the history tells. -/
structure Accounted (base : Bindings MacroRef) (s : Registrations) (table : Bindings MacroRef) (h : History) :
    Prop where
  moments : ∀ before m after, h.moments = before ++ m :: after →
    m.CallsThrough ((Registrations.after base before).during m.event)
  after : Registrations.after base h.moments = s
  refers : Refers table h.environment.macros

/-- A state in which no inclusion has just begun: whatever was loaded is registered, and has begun itself. -/
def Idle (base : Bindings MacroRef) (h : History) : Prop := ∃ table, Accounted base ⟨none, table⟩ table h

/-- A state in which an element can begin: that of a template that has just been registered can, too. -/
def CanBegin (base : Bindings MacroRef) (h : History) : Prop :=
  ∃ s : Registrations, Accounted base s s.settled h

/-- A state in which an element can fail: an inclusion whose template has not been registered can, too. -/
def CanFail (base : Bindings MacroRef) (h : History) : Prop := ∃ s : Registrations, Accounted base s s.table h

section
variable {α β : Type} {base table : Bindings MacroRef} {s : Registrations} {h h' : History} {t : Tree}

theorem Idle.canBegin (hi : Idle base h) : CanBegin base h := by
  obtain ⟨table, ha⟩ := hi
  exact ⟨⟨none, table⟩, ha⟩

theorem Idle.canFail (hi : Idle base h) : CanFail base h := by
  obtain ⟨table, ha⟩ := hi
  exact ⟨⟨none, table⟩, ha⟩

/-- Only the history and the macros count. -/
theorem Accounted.of_same (ha : Accounted base s table h) (moments : h'.moments = h.moments)
    (macros : h'.environment.macros = h.environment.macros) : Accounted base s table h' where
  moments := moments ▸ ha.moments
  after := moments ▸ ha.after
  refers := macros ▸ ha.refers

theorem Idle.of_same (hi : Idle base h) (moments : h'.moments = h.moments)
    (macros : h'.environment.macros = h.environment.macros) :
    Idle base h' := by
  obtain ⟨table, ha⟩ := hi
  exact ⟨table, ha.of_same moments macros⟩

/-- One more thing happens, which is not that an element fails because what it calls is no macro. -/
theorem Accounted.note (ha : Accounted base s table h) (e : Event) (hduring : s.during e = table)
    (hfound : ∀ t err, e = .fails t err → err.isNotMacro = false) :
    Accounted base (s.next ⟨e, h.environment⟩) table (note e h) where
  moments := by
    refine forall_splits_concat ha.moments ?_
    rw [ha.after, hduring]
    exact ⟨ha.refers, hfound, fun s callee t name arguments _ _ hmacros =>
      callMacro_eq (hmacros ▸ ha.refers) callee t name arguments⟩
  after := by
    change Registrations.after base (h.moments ++ [⟨e, h.environment⟩]) = _
    rw [Registrations.after_concat, ha.after]
  refers := ha.refers

/-- Where an element fails its template, if it was to include one, has not been registered. -/
theorem CanFail.note_fails (hf : CanFail base h) (t : Tree) {e : TemplateError} (he : e.isNotMacro = false) :
    Idle base (note (.fails t e) h) := by
  obtain ⟨s, ha⟩ := hf
  refine ⟨s.table, ha.note (.fails t e) rfl fun t' e' hsame => ?_⟩
  cases hsame
  exact he

theorem Idle.note_ends (hi : Idle base h) (t : Tree) : Idle base (note (.ends t) h) := by
  obtain ⟨table, ha⟩ := hi
  exact ⟨table, ha.note (.ends t) rfl fun _ _ hsame => by cases hsame⟩

theorem CanFail.closed (hf : CanFail base h) {e : Enclosure} (he : e ≠ .inclusion) :
    Idle base (Action.closed e h) := by
  obtain ⟨s, ha⟩ := hf
  have hduring : s.during (.closes e) = s.table := by
    cases e with
    | inclusion => exact absurd rfl he
    | level | scope | capture => rfl
  have hnext : s.next ⟨.closes e, h.environment⟩ = ⟨none, s.table⟩ := by rw [← hduring]; rfl
  have hnoted := ha.note (.closes e) hduring fun _ _ hsame => by cases hsame
  rw [hnext] at hnoted
  refine ⟨s.table, hnoted.of_same rfl ?_⟩
  cases e <;> rfl

/-- Where an inclusion is closed its template has been registered. -/
theorem CanBegin.closed (hb : CanBegin base h) : Idle base (Action.closed .inclusion h) := by
  obtain ⟨s, ha⟩ := hb
  exact ⟨s.settled, (ha.note (.closes .inclusion) rfl fun _ _ hsame => by cases hsame).of_same rfl rfl⟩

theorem Idle.closed (hi : Idle base h) (e : Enclosure) : Idle base (Action.closed e h) := by
  by_cases he : e = .inclusion
  · exact he ▸ hi.canBegin.closed
  · exact hi.canFail.closed he

/-! ### What is left by actions -/

/-- A result after which no inclusion has just begun, or an error, which does not say that what was called
is no macro, in a state as described. -/
inductive Accounts {α : Type} (base : Bindings MacroRef) (failed : TemplateError → History → Prop) :
    EStateM.Result TemplateError History α → Prop
  | ok {x : α} {h : History} (idle : Idle base h) : Accounts base failed (.ok x h)
  | error {e : TemplateError} {h : History} (found : e.isNotMacro = false) (state : failed e h) :
    Accounts base failed (.error e h)

/-- A result after which no inclusion has just begun, be it an error or not. -/
abbrev Rested {α : Type} (base : Bindings MacroRef) (r : EStateM.Result TemplateError History α) : Prop :=
  Accounts base (fun _ => Idle base) r

variable {failed failed' : TemplateError → History → Prop}

theorem Accounts.weaken {r : EStateM.Result TemplateError History α} (hr : Accounts base failed r)
    (hfailed : ∀ e h, failed e h → failed' e h) : Accounts base failed' r := by
  cases hr with
  | ok idle => exact .ok idle
  | error found failed => exact .error found (hfailed _ _ failed)

theorem Accounts.calm {act : Run History α} (hact : Calm act) (hi : Idle base h) : Rested base (act h) := by
  have hresult := hact h
  generalize act h = r at hresult
  cases hresult with
  | ok still macros => exact .ok (hi.of_same still.moments macros)
  | error still macros harmless => exact .error harmless.other (hi.of_same still.moments macros)

theorem Accounts.bind {act : Run History α} {f : α → Run History β} (hact : Accounts base failed (act h))
    (hf : ∀ x h', Idle base h' → Accounts base failed (f x h')) : Accounts base failed ((act >>= f) h) := by
  simp only [Bind.bind, EStateM.bind]
  generalize act h = r at hact
  cases hact with
  | ok idle => exact hf _ _ idle
  | error found failed => exact .error found failed

theorem Accounts.locatedAt {act : Run History α} (t : Tree)
    (hact : Accounts base (fun _ => CanFail base) (act h)) :
    Accounts base (fun _ => CanFail base) (mapError (·.locatedAt t) act h) := by
  unfold Action.mapError
  generalize act h = r at hact
  cases hact with
  | ok idle => exact .ok idle
  | error found failed => exact .error ((isNotMacro_locatedAt t _).trans found) failed

theorem Accounts.closing {act : Run History α} (e : Enclosure) (hact : Accounts base failed (act h))
    (hclosed : ∀ err h', failed err h' → failed' err (Action.closed e h'))
    (habandoned : ∀ err h', err.abandons = true → failed err h' → failed' err h') :
    Accounts base failed' (closing e act h) := by
  unfold Action.closing
  generalize act h = r at hact
  cases hact with
  | ok idle => exact .ok (idle.closed e)
  | @error err h' found failed =>
    dsimp only
    split
    · next habandons => exact .error found (habandoned err h' habandons failed)
    · exact .error found (hclosed err h' failed)

/-- A body in an enclosure leaves what it left without. -/
theorem Accounts.closingIdle {act : Run History α} (e : Enclosure) (hact : Rested base (act h)) :
    Rested base (Action.closing e act h) :=
  hact.closing e (fun _ _ hi => hi.closed e) fun _ _ _ hi => hi

theorem Accounts.enter {act : Run History α} (hdeep : failed (.tooDeep maxNesting (.ofTree t)) h)
    (hact : ∀ h', h'.moments = h.moments → h'.environment.macros = h.environment.macros →
      h'.environment.loader = h.environment.loader →
      Accounts base failed (Action.closing .level act h')) :
    Accounts base failed ((do enter t; Action.closing .level act : Run History α) h) := by
  rw [enter_closing]
  split
  · exact .error rfl hdeep
  · exact hact _ rfl rfl rfl

/-- The discipline of runs after which no inclusion has just begun. -/
def resting (base : Bindings MacroRef) : Discipline where
  begins := Idle base
  allows := Rested base
  calm hact hi := .calm hact hi
  bind hact hf := hact.bind hf
  closing _ hact := hact.closingIdle _

/-! ### Actions of an element -/

/-- What running bodies elsewhere leaves: it begins with an element if there is one. An inclusion whose
template does not begin at all is not abandoned. -/
structure Dependable (base : Bindings MacroRef) (run : List Tree → Run History Unit) : Prop where
  idle {h : History} : Idle base h → ∀ ts, Rested base (run ts h)
  canBegin {h : History} : CanBegin base h → ∀ t,
    Accounts base (fun e h' => CanBegin base h' ∧ (e.abandons = true → Idle base h')) (run [t] h)

section
variable {callee : Tree → List Tree → Run History Unit} {body : Run History Unit}

/-- A call goes through the table, in which there are only macros. -/
theorem accounts_callMacro (hcallee : Dependable base (callee t)) (name : String) (arguments : List Expr)
    (hi : Idle base h) :
    Rested base (callMacro callee t name arguments h) := by
  obtain ⟨table, ha⟩ := hi
  have hi : Idle base h := ⟨table, ha⟩
  rw [callMacro_eq ha.refers, callThrough]
  cases table.get? name with
  | none => exact .calm (calm_throw (harmless_of_site rfl rfl rfl rfl)) hi
  | some r =>
    dsimp only
    split
    · exact .calm (calm_throw (harmless_of_site rfl rfl rfl rfl)) hi
    · refine Accounts.bind (.calm (calm_bindParameters _ _ _) hi) fun bindings h₁ hi₁ => ?_
      refine .enter hi₁ fun h₂ hmoments hmacros _ => .closingIdle .level ?_
      refine Accounts.bind (.calm (calm_modifyContext _) (hi₁.of_same hmoments hmacros)) fun _ h₃ hi₃ => ?_
      exact .closingIdle .scope (hcallee.idle hi₃ _)

/-- The template that is included is the one that the history tells. -/
theorem accounts_includeTemplate (hcallee : Dependable base (callee t)) {name : String}
    (ha : Accounted base ⟨h.environment.loader.bind fun l => (l.load name).toOption, table⟩ table h) :
    Accounts base (fun _ => CanFail base) (includeTemplate callee t name h) := by
  rw [includeTemplate_eq]
  cases hloader : h.environment.loader with
  | none => exact .error rfl ⟨_, ha⟩
  | some l =>
    dsimp only
    cases hload : l.load name with
    | error e => exact .error (isNotMacro_of_siteless (Loader.site?_load hload)) ⟨_, ha⟩
    | ok template =>
      have hloaded : (h.environment.loader.bind fun l => (l.load name).toOption) = some template := by
        rw [hloader, Option.bind_some, hload]
        rfl
      rw [hloaded] at ha
      -- The template has been registered, and nothing else has happened since the element began.
      have hbegun : Accounted base ⟨some template, table⟩ (template.register table) (put { h.environment with
          macros := withMacrosOf template.tree h.environment.macros,
            loader := h.environment.loader.map (·.beginInclusion name) } h) :=
        ⟨ha.moments, ha.after, ha.refers.register (Loader.sound_of_load hload)⟩
      exact (hcallee.canBegin ⟨_, hbegun⟩ template.tree).closing .inclusion
        (fun _ _ hb => hb.1.closed.canFail)
        fun _ _ habandons hb => (hb.2 habandons).canFail

theorem accounts_runInclusion (hcallee : Dependable base (callee t)) {path : Expr}
    (hkind : t.kind = .inclusion path) (ha : Accounted base ⟨h.environment.loaded? t, table⟩ table h) :
    Accounts base (fun _ => CanFail base) (runInclusion callee t path h) := by
  simp only [runInclusion, Bind.bind, EStateM.bind, evaluate, observe, environment]
  cases hvalue : path.evaluateWithin (maxNesting - h.environment.nesting) h.environment.context with
  | error e => exact .error (Expr.harmless_evaluateWithin _ path hvalue).other ⟨_, ha⟩
  | ok v =>
    cases v with
    | string name =>
      have hloaded : h.environment.loaded? t = h.environment.loader.bind fun l => (l.load name).toOption := by
        simp only [Environment.loaded?, Environment.asked?, hkind, hvalue, Option.bind_some]
      rw [hloaded] at ha
      refine Accounts.enter ⟨_, ha⟩ fun h₁ hmoments hmacros hloader => ?_
      have hentered := hloader ▸ ha.of_same hmoments hmacros
      have hlevel : Enclosure.level ≠ .inclusion := by decide
      exact ((accounts_includeTemplate hcallee hentered).locatedAt t).closing .level
        (fun _ _ hf => (hf.closed hlevel).canFail)
        fun _ _ _ hf => hf
    | _ => exact .error rfl ⟨_, ha⟩

/-- An element's own action. -/
theorem accounts_perform (hcallee : ∀ site, Dependable base (callee site)) (hbody : (resting base).Keeps body)
    (ha : Accounted base ⟨h.environment.loaded? t, table⟩ table h) :
    Accounts base (fun _ => CanFail base) (perform callee body t h) := by
  have thenNothing : ∀ {act : Run History Unit}, Accounts base (fun _ => CanFail base) (act h) →
      Accounts base (fun _ => CanFail base) ((do act; return (none : Handed t)) h) :=
    fun hact => hact.bind fun _ _ hi => .ok hi
  have idle (hother : ∀ path, t.kind ≠ .inclusion path) : Idle base h := by
    have hloaded : h.environment.loaded? t = none := by
      rw [Environment.loaded?, Environment.asked?_eq_none _ hother, Option.bind_none]
    exact ⟨table, hloaded ▸ ha⟩
  rcases t.kind.elsewhere_or_ne with ⟨name, arguments, hkind⟩ | ⟨path, hkind⟩ | ⟨hcall, hinclusion⟩
  · simp only [perform, hkind]
    exact thenNothing ((accounts_callMacro (hcallee t) name arguments (idle (by simp [hkind]))).weaken
      fun _ _ hi => hi.canFail)
  · simp only [perform, hkind]
    exact thenNothing (accounts_runInclusion (hcallee t) hkind ha)
  · have hrested : Rested base (perform callee body t h) :=
      (resting base).keeps_perform hcall hinclusion (fun _ => hbody) h (idle hinclusion)
    exact hrested.weaken fun _ _ hi => hi.canFail

/-! ### Elements with what they hand back -/

theorem CanBegin.begun (hb : CanBegin base h) (t : Tree) :
    ∃ table, Accounted base ⟨(listing t h.environment).loaded? t, table⟩ table
    ⟨listing t h.environment, h.moments ++ [⟨.begins t, h.environment⟩]⟩ := by
  obtain ⟨s, ha⟩ := hb
  exact ⟨s.settled, (ha.note (.begins t) rfl fun _ _ hsame => by cases hsame).of_same rfl rfl⟩

theorem Idle.ended (hi : Idle base h) (t : Tree) :
    Idle base ⟨unlisting t h.environment, h.moments ++ [⟨.ends t, unlisting t h.environment⟩]⟩ := by
  have hlisted : Idle base ⟨unlisting t h.environment, h.moments⟩ := hi.of_same rfl rfl
  exact hlisted.note_ends t

/-- An element begins and ends, or fails, and nothing that it includes is left to begin. -/
theorem accounts_execute (hcallee : ∀ site, Dependable base (callee site)) (t : Tree)
    (hbody : (resting base).Keeps body) (hb : CanBegin base h) : Rested base (execute callee body t h) := by
  obtain ⟨table, ha⟩ := hb.begun t
  have hperform : Accounts base (fun _ => CanFail base)
      (perform callee body t ⟨listing t h.environment, h.moments ++ [⟨.begins t, h.environment⟩]⟩) :=
    accounts_perform hcallee hbody ha
  simp only [execute, Bind.bind, EStateM.bind, beginElement_eq, telling]
  generalize perform callee body t _ = r at hperform ⊢
  cases hperform with
  | ok idle =>
    simp only [endElement_eq]
    exact .ok (idle.ended t)
  | error found failed => exact .error found (failed.note_fails t found)

theorem dependable_recurseAll (hcallee : ∀ site, Dependable base (callee site)) :
    Dependable base (recurseAll callee) := by
  have hkeeps (ts : List Tree) : (resting base).Keeps (recurseAll callee ts) :=
    Discipline.keeps_recurseAll (fun t body hbody h hi => accounts_execute hcallee t hbody hi.canBegin) ts
  refine ⟨fun hi ts => hkeeps ts _ hi, fun {h} hb t => ?_⟩
  have hrun : Rested base (recurse callee t h) :=
    (resting base).allows_recurse (fun hbody => accounts_execute hcallee t hbody hb) fun ts _ => hkeeps ts
  rw [recurseAll_singleton]
  exact hrun.weaken fun _ _ hi => ⟨hi.canBegin, fun _ => hi⟩

end

theorem dependable_recurseWithin (levels : Nat) : Dependable base (recurseWithin levels) := by
  induction levels with
  | zero =>
    -- Where no level is left a template does not begin, but its inclusion is closed all the same.
    refine dependable_recurseAll fun site =>
      ⟨fun hi _ => .error rfl hi, fun hb t => .error rfl ⟨hb, fun habandons => ?_⟩⟩
    cases habandons
  | succ levels ih => exact dependable_recurseAll fun _ => ih

/-- A whole run begins with the macros of its template, and what it includes does not
stay behind unregistered. -/
theorem accounts_process {t : Template} {env : Environment} (ht : t.Sound) (henv : Refers table env.macros) :
    Rested (t.register table) ((Environment.process t.tree : Run History Unit) ⟨env, []⟩) := by
  have hstart : Idle (t.register table) ⟨{ env with macros := withMacrosOf t.tree env.macros }, []⟩ := by
    refine ⟨t.register table, fun before m after hmoments => ?_, rfl, henv.register ht⟩
    exact absurd hmoments.symm (List.append_ne_nil_of_right_ne_nil before (List.cons_ne_nil m after))
  have hrun : Rested (t.register table)
      ((do registerMacros t.tree; Environment.visit t.tree : Run History Unit) ⟨env, []⟩) := by
    change Accounts _ _ ((Environment.run [t.tree] : Run History Unit) _)
    rw [Environment.run_eq]
    exact (dependable_recurseWithin _).idle hstart [t.tree]
  simp only [Environment.process]
  generalize (do registerMacros t.tree; Environment.visit t.tree : Run History Unit) ⟨env, []⟩ = r at hrun
  cases hrun with
  | @ok _ h' idle =>
    simp only [flush]
    rcases (environment h').sink.flush with ⟨outcome, sink⟩
    cases outcome with
    | ok _ => exact .ok (idle.of_same rfl rfl)
    | error fault => exact .error rfl (idle.of_same rfl rfl)
  | @error e h' found idle =>
    dsimp only
    split
    · exact .error found idle
    · exact .error ((isNotMacro_attachTrace _ e).trans found) (idle.of_same rfl rfl)

end

end Execution

namespace Environment

/-- The elements of a template are visited each once, in the order of the document, and after its macros are
registered each name stands for its last definition there, or for what it stood for before. Wherever a run
is, there are only macros to be called, each one by its own name; no call finds anything else, and one that
begins calls what was registered last under its name, whether that stands before it or after it or in a file
that has been included. -/
theorem callsThrough_of_process {name : Option String} {text : String} {strip : Bool} {t : Template}
    (ht : Template.parse name text strip = .ok t) {table : Bindings MacroRef} {env : Environment}
    (henv : Refers table env.macros) :
    t.Visited ∧
    (∀ called, (t.register table).get? called =
      ((t.definitions called).getLast?.map (⟨t, ·⟩)).or (table.get? called)) ∧
    Refers (t.register table) (Action.withMacrosOf t.tree env.macros) ∧
    ∃ ms, (process t.tree : Run History Unit) ⟨env, []⟩ =
      mapState (⟨·, ms⟩) ((process t.tree : Action Unit) env) ∧
      (∀ before m after, ms = before ++ m :: after →
        m.CallsThrough ((Registrations.after (t.register table) before).during m.event)) ∧
      (∀ e env', (process t.tree : Action Unit) env = .error e env' → e.isNotMacro = false) ∧
      Refers (Registrations.after (t.register table) ms).table
        (stateOf ((process t.tree : Action Unit) env)).macros := by
  have hsound := Template.sound_of_parse ht
  have hsame : mapState History.environment ((process t.tree : Run History Unit) ⟨env, []⟩) =
      (process t.tree : Action Unit) env :=
    mapState_process t.tree (⟨env, []⟩ : History)
  have hrun := accounts_process hsound henv
  refine ⟨hsound.visited, t.get?_register table, henv.register hsound, ?_⟩
  rw [← hsame]
  generalize (process t.tree : Run History Unit) ⟨env, []⟩ = r at hrun
  cases hrun with
  | @ok _ h idle =>
    obtain ⟨final, ha⟩ := idle
    refine ⟨h.moments, rfl, ha.moments, fun e env' herror => (by cases herror), ?_⟩
    rw [ha.after]
    exact ha.refers
  | @error e h found idle =>
    obtain ⟨final, ha⟩ := idle
    refine ⟨h.moments, rfl, ha.moments, fun e env' herror => ?_, ?_⟩
    · cases herror
      exact found
    · rw [ha.after]
      exact ha.refers

/-- The file that is included defines a macro. -/
def redefining : Environment where
  sink := {}
  context := { root := {} }
  loader := some {
    files := ⟨[(["r"], .folder), (["r", "b.t"], .file "\x7b[#macro m]\x7db\x7b[/macro]\x7d".toUTF8)]⟩
    root := ["r"]
    extension := "t"
    strip := true }

end Environment

/-- The name of the template and the number of the element that a call which begins finds in a table. -/
def Moment.called? (m : Moment) (table : Bindings MacroRef) : Option (Option String × ElementId) :=
  match m.event with
  | .begins t => match t.kind with
    | .call name _ => (table.get? name).map fun r => (r.template.name?, r.id)
    | _ => none
  | _ => none

/-- What the `i`th moment of a history calls, if it begins a call. -/
def Registrations.calledAt (base : Bindings MacroRef) (ms : List Moment) (i : Nat) :
    Option (Option String × ElementId) :=
  ms[i]?.bind fun m => m.called? ((after base (ms.take i)).during m.event)

/-- A call before a definition finds it, and after a file was included that defines the name it
finds the definition there. -/
theorem Environment.callsThrough_of_process_redefining :
    ∃ t ms, Template.parse none
        "\x7b[@m]\x7d\x7b[#macro m]\x7da\x7b[/macro]\x7d\x7b[#include \"/b\"]\x7d\x7b[@m]\x7d" true = .ok t ∧
      (process t.tree : Run History Unit) ⟨redefining, []⟩ =
      mapState (⟨·, ms⟩) ((process t.tree : Action Unit) redefining) ∧
      (∀ before m after, ms = before ++ m :: after →
        m.CallsThrough ((Registrations.after (t.register {}) before).during m.event)) ∧
      Registrations.calledAt (t.register {}) ms 2 = some (none, 2) ∧
      Registrations.calledAt (t.register {}) ms 16 = some (some "/b", 1) := by
  obtain ⟨t, ht, hcheck⟩ := Template.exists_of_parses none
    "\x7b[@m]\x7d\x7b[#macro m]\x7da\x7b[/macro]\x7d\x7b[#include \"/b\"]\x7d\x7b[@m]\x7d" true
    (fun t =>
      let ms := (stateOf ((process t.tree : Run History Unit) ⟨redefining, []⟩)).moments
      Registrations.calledAt (t.register {}) ms 2 == some (none, 2) &&
        Registrations.calledAt (t.register {}) ms 16 == some (some "/b", 1)) (by decide +kernel)
  have hnone : Refers {} redefining.macros := refers_empty
  obtain ⟨-, -, -, ms, hwatched, hcalls, -, -⟩ := callsThrough_of_process ht hnone
  have hms : (stateOf ((process t.tree : Run History Unit) ⟨redefining, []⟩)).moments = ms := by
    rw [hwatched]
    cases (process t.tree : Action Unit) redefining <;> rfl
  simp only [hms, Bool.and_eq_true, beq_iff_eq] at hcheck
  exact ⟨t, ms, ht, hwatched, hcalls, hcheck⟩

end Stencil
