import Stencil.Proofs.Execution.Calm

/-! # The turns of elements

What the history of a run looks like follows from the recursion: the elements of a body begin one after the
other, each once, and nothing begins after an element has failed. -/

namespace Stencil

namespace Execution

open Stencil.Action Recorder Stencil.TemplateError

/-! ### What histories look like -/

/-- What a stretch of a history can be the record of. -/
inductive Span
  /-- Some elements, one after the other. -/
  | turns (ts : List Tree)
  /-- An element, with the children it hands back. -/
  | turn (t : Tree)
  /-- What an element does itself, begun in an environment. -/
  | deed (t : Tree) (env : Environment)

/-- The bodies that an element hands back to be run after it. -/
inductive HandsBack (t : Tree) : List Tree → Prop
  | nothing : HandsBack t []
  | sequence (h : t.kind = .sequence) : HandsBack t t.children
  | conditional (branch : Branch) (condition : Option Expr) (h : t.kind = .conditional branch condition) :
    HandsBack t t.children
  | branch (h : t.kind = .ifBlock) {b : Tree} (member : b ∈ t.children) : HandsBack t b.children

theorem HandsBack.sizes_lt {t : Tree} {body : List Tree} (h : HandsBack t body) :
    Tree.sizes body < t.size := by
  have hlt := t.sizes_children_lt
  cases h with
  | nothing => exact t.size_pos
  | sequence | conditional => exact hlt
  | @branch _ b member =>
    have := b.sizes_children_lt
    have := Tree.size_le_sizes member
    omega

/-- The bodies that an element begun in an environment runs itself. -/
inductive Activates (t : Tree) (env : Environment) : List Tree → Prop
  | list (source : Expr) (item : String) (h : t.kind = .list source item) : Activates t env t.children
  | capture (target : String) (h : t.kind = .capture target) : Activates t env t.children
  | call (name : String) (arguments : List Expr) (h : t.kind = .call name arguments) {d : Tree}
    (hd : env.macros.get? name = some d) : Activates t env d.children
  | inclusion (path : Expr) (h : t.kind = .inclusion path) {loader : Loader} (hl : env.loader = some loader)
    {name : String} {template : Template} (ht : loader.load name = .ok template) :
    Activates t env [template.tree]

/-- The moments of a stretch that runs to its end, or up to an error. Whenever a body is activated its
elements take their turns in order, each once. -/
inductive Recorded : Span → List Moment → (ended : Bool) → Prop
  | none : Recorded (.turns []) [] true
  | next {t : Tree} {ts : List Tree} {l l' : List Moment} {ended : Bool} (first : Recorded (.turn t) l true)
    (others : Recorded (.turns ts) l' ended) : Recorded (.turns (t :: ts)) (l ++ l') ended
  | fault {t : Tree} {ts : List Tree} {l : List Moment} (first : Recorded (.turn t) l false) :
    Recorded (.turns (t :: ts)) l false
  | ends {t : Tree} {env : Environment} {body : List Tree} {l l' : List Moment} {ended : Bool}
    (env' : Environment) (deed : Recorded (.deed t env) l true) (hands : HandsBack t body)
    (handed : Recorded (.turns body) l' ended) :
    Recorded (.turn t) (⟨.begins t, env⟩ :: l ++ ⟨.ends t, env'⟩ :: l') ended
  | fails {t : Tree} {env : Environment} {l : List Moment} {ended : Bool} (env' : Environment)
    (e : TemplateError) (deed : Recorded (.deed t env) l ended) :
    Recorded (.turn t) (⟨.begins t, env⟩ :: l ++ [⟨.fails t e, env'⟩]) false
  | start {t : Tree} {env : Environment} : Recorded (.deed t env) [] true
  | body {t : Tree} {env : Environment} {body : List Tree} {l l' : List Moment} {ended : Bool}
    (deed : Recorded (.deed t env) l true) (activates : Activates t env body)
    (turns : Recorded (.turns body) l' ended) : Recorded (.deed t env) (l ++ l') ended
  | closes {t : Tree} {env env' : Environment} {l : List Moment} {e : Enclosure} {ended : Bool}
    (deed : Recorded (.deed t env) l ended) : Recorded (.deed t env) (l ++ [⟨.closes e, env'⟩]) ended

theorem Recorded.no_fault {span : Span} {l : List Moment} (h : Recorded span l true) :
    ∀ m ∈ l, ¬ m.IsFault := by
  generalize hended : true = ended at h
  induction h with
  | none | start => simp
  | next _ _ ih₁ ih₂ =>
    intro m hm
    exact (List.mem_append.1 hm).elim (ih₁ rfl m) (ih₂ hended m)
  | fault | fails => cases hended
  | ends _ _ _ _ ih₁ ih₂ =>
    intro m hm
    simp only [List.mem_append, List.mem_cons] at hm
    rcases hm with (rfl | hm) | rfl | hm
    · rintro ⟨_, _, h⟩
      cases h
    · exact ih₁ rfl m hm
    · rintro ⟨_, _, h⟩
      cases h
    · exact ih₂ hended m hm
  | body _ _ _ ih₁ ih₂ =>
    intro m hm
    exact (List.mem_append.1 hm).elim (ih₁ rfl m) (ih₂ hended m)
  | closes _ ih =>
    intro m hm
    rcases List.mem_append.1 hm with hm | hm
    · exact ih hended m hm
    · rintro ⟨_, _, h⟩
      rw [List.mem_singleton.1 hm] at h
      cases h

/-- No element begins after one has failed. -/
theorem Recorded.pairwise {span : Span} {l : List Moment} {ended : Bool} (h : Recorded span l ended) :
    l.Pairwise fun m m' => m.IsFault → ¬ m'.IsBegin := by
  have harmless : ∀ {l l' : List Moment}, (∀ m ∈ l, ¬ m.IsFault) →
      ∀ m ∈ l, ∀ m' ∈ l', m.IsFault → ¬ m'.IsBegin := fun hl m hm _ _ hf => absurd hf (hl m hm)
  induction h with
  | none | start => exact .nil
  | next first _ ih₁ ih₂ => exact List.pairwise_append.2 ⟨ih₁, ih₂, harmless first.no_fault⟩
  | fault _ ih => exact ih
  | ends _ deed _ _ ih₁ ih₂ =>
    refine List.pairwise_append.2 ⟨List.pairwise_cons.2 ⟨?_, ih₁⟩, List.pairwise_cons.2 ⟨?_, ih₂⟩, ?_⟩
    · rintro m' _ ⟨_, _, h⟩
      cases h
    · rintro m' _ ⟨_, _, h⟩
      cases h
    · refine harmless fun m hm => ?_
      rcases List.mem_cons.1 hm with rfl | hm
      · rintro ⟨_, _, h⟩
        cases h
      · exact deed.no_fault m hm
  | fails _ _ _ ih =>
    refine List.pairwise_append.2 ⟨List.pairwise_cons.2 ⟨?_, ih⟩, List.pairwise_singleton _ _, ?_⟩
    · rintro m' _ ⟨_, _, h⟩
      cases h
    · rintro m _ m' hm' _ ⟨_, h⟩
      rw [List.mem_singleton.1 hm'] at h
      cases h
  | body deed _ _ ih₁ ih₂ => exact List.pairwise_append.2 ⟨ih₁, ih₂, harmless deed.no_fault⟩
  | closes _ ih =>
    refine List.pairwise_append.2 ⟨ih, List.pairwise_singleton _ _, ?_⟩
    rintro m _ m' hm' _ ⟨_, h⟩
    rw [List.mem_singleton.1 hm'] at h
    cases h

/-! ### Every run is so recorded -/

/-- A state whose history goes on from `base` with a record of a span. -/
def Since (base : List Moment) (span : Span) (ended : Bool) (h : History) : Prop :=
  ∃ l, h.moments = base ++ l ∧ Recorded span l ended

/-- With so many levels of nesting open, an action adds the record of a span, which ends as the action
does, and leaves as many levels open when it succeeds. -/
def Records {α : Type} (nesting : Nat) (span : Span) (act : Run History α) : Prop :=
  ∀ h, h.environment.nesting = nesting → Since h.moments span (succeeds (act h)) (stateOf (act h)) ∧
    (succeeds (act h) → (stateOf (act h)).environment.nesting = nesting)

/-- A state in which an element is at work, with so many levels of nesting open. -/
structure AtWork (base : List Moment) (t : Tree) (env : Environment) (nesting : Nat) (h : History) :
    Prop where
  record : Since base (.deed t env) true h
  nesting : h.environment.nesting = nesting

/-- A result after which an element goes on with its work or has failed at it. -/
def GoesOn {α : Type} (base : List Moment) (t : Tree) (env : Environment) (nesting : Nat)
    (r : EStateM.Result TemplateError History α) : Prop :=
  match r with
  | .ok _ h => AtWork base t env nesting h
  | .error _ h => ∃ ended, Since base (.deed t env) ended h

section
variable {α β : Type} {base : List Moment} {t : Tree} {env : Environment} {n : Nat} {h : History}

theorem GoesOn.quiet {act : Run History α} (hact : Quiet act) (hs : AtWork base t env n h) :
    GoesOn base t env n (act h) := by
  obtain ⟨⟨l, hl, hr⟩, hn⟩ := hs
  have hresult := hact h
  generalize act h = r at hresult
  cases hresult with
  | ok still => exact ⟨⟨l, still.moments.trans hl, hr⟩, still.nesting.trans hn⟩
  | error still => exact ⟨true, l, still.moments.trans hl, hr⟩

/-- An element that looks around goes on with its work. -/
theorem GoesOn.observed (f : Environment → Except TemplateError α) (hs : AtWork base t env n h) :
    GoesOn base t env n (observe f h) := by
  unfold observe
  split
  · exact hs
  · exact ⟨true, hs.record⟩

theorem GoesOn.bind {m : Nat} {act : Run History α} {f : α → Run History β}
    (hact : GoesOn base t env m (act h))
    (hf : ∀ x h', act h = .ok x h' → AtWork base t env m h' → GoesOn base t env n (f x h')) :
    GoesOn base t env n ((act >>= f) h) := by
  simp only [Bind.bind, EStateM.bind]
  cases hresult : act h with
  | ok x h' =>
    rw [hresult] at hact
    exact hf x h' hresult hact
  | error e h' =>
    rw [hresult] at hact
    exact hact

theorem Since.closed {ended : Bool} (hs : Since base (.deed t env) ended h) (e : Enclosure) :
    Since base (.deed t env) ended (closed e h) := by
  obtain ⟨l, hl, hr⟩ := hs
  refine ⟨l ++ [⟨.closes e, h.environment⟩], ?_, hr.closes⟩
  rw [← List.append_assoc, ← hl]
  rfl

/-- Closing an enclosure leaves as many levels open as `close` says. -/
theorem GoesOn.closing {m : Nat} {act : Run History α} (e : Enclosure) (hact : GoesOn base t env m (act h))
    (hclose : ∀ env' : Environment, env'.nesting = m → (e.close env').nesting = n) :
    GoesOn base t env n (closing e act h) := by
  unfold Action.closing
  cases hresult : act h with
  | ok x h' =>
    rw [hresult] at hact
    exact ⟨hact.record.closed e, hclose _ hact.nesting⟩
  | error err h' =>
    rw [hresult] at hact
    obtain ⟨ended, hs⟩ := hact
    refine ⟨ended, ?_⟩
    split
    · exact hs
    · exact hs.closed e

theorem GoesOn.mapError {act : Run History α} (f : TemplateError → TemplateError)
    (hact : GoesOn base t env n (act h)) :
    GoesOn base t env n (mapError f act h) := by
  unfold Action.mapError
  cases hresult : act h with
  | ok x h' => rwa [hresult] at hact
  | error err h' => rwa [hresult] at hact

theorem GoesOn.body {act : Run History Unit} {body : List Tree} (hact : Records n (.turns body) act)
    (hbody : Activates t env body) (hs : AtWork base t env n h) : GoesOn base t env n (act h) := by
  obtain ⟨⟨l, hl, hr⟩, hn⟩ := hs
  obtain ⟨⟨l', hl', hr'⟩, hn'⟩ := hact h hn
  cases hresult : act h with
  | ok x h' =>
    rw [hresult] at hl' hr' hn'
    exact ⟨⟨l ++ l', by rw [← List.append_assoc, ← hl]; exact hl', hr.body hbody hr'⟩, hn' rfl⟩
  | error e h' =>
    rw [hresult] at hl' hr'
    exact ⟨false, l ++ l', by rw [← List.append_assoc, ← hl]; exact hl', hr.body hbody hr'⟩

/-- The discipline of an element that is at work. -/
def working (base : List Moment) (t : Tree) (env : Environment) (n : Nat) : Discipline where
  begins := AtWork base t env n
  allows := GoesOn base t env n
  calm hact hs := .quiet hact.quiet hs
  bind hact hf := hact.bind fun x h' _ hs => hf x h' hs
  closing he hact := by rcases he with rfl | rfl <;> exact hact.closing _ fun _ h => h

/-! ### Levels of nesting -/

theorem enter_eq {h' : History} {x : Unit} (henter : enter t h = .ok x h') :
    h.environment.nesting < maxNesting ∧
    h' = { h with environment := { h.environment with nesting := h.environment.nesting + 1 } } := by
  simp only [enter, current, Bind.bind, EStateM.bind] at henter
  split at henter
  · cases henter
  · next hfits =>
    cases henter
    exact ⟨Nat.lt_of_not_le hfits, rfl⟩

/-- Opening a level of nesting, when there is one left. -/
theorem GoesOn.enter (site : Tree) (hs : AtWork base t env n h) :
    GoesOn base t env (n + 1) (enter site h) := by
  cases hresult : Action.enter site h with
  | ok x h' =>
    obtain ⟨-, rfl⟩ := enter_eq hresult
    exact ⟨hs.record, congrArg (· + 1) hs.nesting⟩
  | error e h' =>
    have hsame : h' = h := by
      simp only [Action.enter, current, Bind.bind, EStateM.bind] at hresult
      split at hresult
      · cases hresult
        rfl
      · cases hresult
    exact ⟨true, hsame ▸ hs.record⟩

/-! ### Actions of an element -/

/-- What running bodies elsewhere adds to the history when it is reached with so many levels open. -/
def CalleeRecords (n : Nat) (callee : Tree → List Tree → Run History Unit) : Prop :=
  n < maxNesting → ∀ site ts, Records (n + 1) (.turns ts) (callee site ts)

section
variable {callee : Tree → List Tree → Run History Unit}

theorem GoesOn.callMacro (hcallee : CalleeRecords n callee) (name : String) (arguments : List Expr)
    (hkind : t.kind = .call name arguments) (hmacros : h.environment.macros = env.macros)
    (hs : AtWork base t env n h) : GoesOn base t env n (callMacro callee t name arguments h) := by
  refine GoesOn.bind (.quiet quiet_current hs) fun current h₁ hcurrent hs₁ => ?_
  obtain ⟨rfl, rfl⟩ : h.environment = current ∧ h = h₁ := by
    cases hcurrent
    exact ⟨rfl, rfl⟩
  rw [hmacros]
  cases hd : env.macros.get? name with
  | none => exact .quiet (quiet_throw (plain_of_site rfl rfl rfl)) hs₁
  | some d =>
    dsimp only
    cases d.kind with
    | definition _ parameters =>
      by_cases hmany : arguments.length > parameters.length
      · simp only [hmany, if_true]
        exact .quiet (quiet_throw (plain_of_site rfl rfl rfl)) hs₁
      · simp only [hmany, if_false]
        refine GoesOn.bind (.quiet (quiet_bindParameters _ _ _) hs₁) fun bindings h₂ _ hs₂ => ?_
        refine GoesOn.bind (.enter t hs₂) fun _ h₃ henter hs₃ => ?_
        have hfits : n < maxNesting := hs₂.nesting ▸ (enter_eq henter).1
        refine .closing (m := n + 1) .level ?_ fun _ h => congrArg (· - 1) h
        refine GoesOn.bind (.quiet (quiet_pushScope _ _) hs₃) fun _ h₄ _ hs₄ =>
          .closing .scope ?_ fun _ h => h
        exact .body (hcallee hfits t d.children) (.call name arguments hkind hd) hs₄
    | _ => exact .quiet (quiet_throw (plain_of_site rfl rfl rfl)) hs₁

theorem GoesOn.includeTemplate (hcallee : ∀ site ts, Records n (.turns ts) (callee site ts)) (name : String)
    (path : Expr) (hkind : t.kind = .inclusion path) (hloader : h.environment.loader = env.loader)
    (hs : AtWork base t env n h) : GoesOn base t env n (includeTemplate callee t name h) := by
  refine GoesOn.bind (.observed _ hs) fun template h₁ hload hs₁ => ?_
  refine GoesOn.bind (.quiet (quiet_registerMacros _) hs₁) fun _ h₂ _ hs₂ => ?_
  refine GoesOn.bind ⟨hs₂.record, hs₂.nesting⟩ fun _ h₃ _ hs₃ => .closing .inclusion ?_ fun _ h => h
  have hactivates : Activates t env [template.tree] := by
    simp only [observe, environment, hloader] at hload
    cases hl : env.loader with
    | none => simp [hl, Loader.fail] at hload
    | some loader =>
      cases ht : loader.load name with
      | error e => simp [hl, ht] at hload
      | ok found =>
        simp only [hl, ht, EStateM.Result.ok.injEq] at hload
        exact hload.1 ▸ .inclusion path hkind hl ht
  exact .body (hcallee t _) hactivates hs₃

theorem GoesOn.runInclusion (hcallee : CalleeRecords n callee) (path : Expr)
    (hkind : t.kind = .inclusion path) (hloader : h.environment.loader = env.loader)
    (hs : AtWork base t env n h) : GoesOn base t env n (runInclusion callee t path h) := by
  refine GoesOn.bind (.quiet (quiet_evaluate path) hs) fun v h₁ hvalue hs₁ => ?_
  have hsame : h₁ = h := by
    unfold evaluate observe at hvalue
    split at hvalue
    · cases hvalue
      rfl
    · cases hvalue
  split
  · refine GoesOn.bind (.enter t hs₁) fun _ h₂ henter hs₂ => ?_
    obtain ⟨hfits, hentered⟩ := enter_eq henter
    refine .closing .level (.mapError _
      (.includeTemplate (hcallee (hs₁.nesting ▸ hfits)) _ path hkind ?_ hs₂))
      fun _ h => congrArg (· - 1) h
    rw [hentered, hsame]
    exact hloader
  · exact .quiet (quiet_throw (plain_of_site rfl rfl rfl)) hs₁

/-- An element that runs a body itself, but none from elsewhere, runs its own. -/
theorem Activates.children (hlisted : t.kind.isTraced = true)
    (hcall : ∀ name arguments, t.kind ≠ .call name arguments)
    (hinclusion : ∀ path, t.kind ≠ .inclusion path) : Activates t env t.children := by
  cases hkind : t.kind with
  | list source item => exact .list source item hkind
  | capture target => exact .capture target hkind
  | call name arguments => exact absurd hkind (hcall name arguments)
  | inclusion path => exact absurd hkind (hinclusion path)
  | _ =>
    rw [hkind] at hlisted
    cases hlisted

/-- What an element itself adds to the history. -/
theorem goesOn_perform (hcallee : CalleeRecords n callee) {act : Run History Unit}
    (hact : Records n (.turns t.children) act) (hs : AtWork base t env n h)
    (hmacros : h.environment.macros = env.macros) (hloader : h.environment.loader = env.loader) :
    GoesOn base t env n (perform callee act t h) := by
  have thenNothing : ∀ {a : Run History Unit}, GoesOn base t env n (a h) →
      GoesOn base t env n ((do a; return (none : Handed t)) h) :=
    fun ha => ha.bind fun _ _ _ hs => .quiet (quiet_pure _) hs
  rcases t.kind.elsewhere_or_ne with ⟨name, arguments, hkind⟩ | ⟨path, hkind⟩ | ⟨hcall, hinclusion⟩
  · simp only [perform, hkind]
    exact thenNothing (.callMacro hcallee name arguments hkind hmacros hs)
  · simp only [perform, hkind]
    exact thenNothing (.runInclusion hcallee path hkind hloader hs)
  · refine (working base t env n).keeps_perform hcall hinclusion (fun hlisted h hs => ?_) h hs
    exact .body hact (.children hlisted hcall hinclusion) hs

/-- What an element hands back is a body that it can hand back. -/
theorem handsBack_of_perform {act : Run History Unit}
    {handed : { body : List Tree // Tree.sizes body < t.size }} {h' : History}
    (hresult : perform callee act t h = .ok (some handed) h') : HandsBack t handed.1 := by
  cases hkind : t.kind with
  | sequence =>
    simp only [perform, hkind] at hresult
    cases hresult
    exact .sequence hkind
  | ifBlock =>
    simp only [perform, hkind, Bind.bind, EStateM.bind] at hresult
    split at hresult
    · next found _ _ =>
      cases found with
      | none => cases hresult
      | some b =>
        cases hresult
        exact .branch hkind b.2
    · cases hresult
  | conditional branch condition =>
    simp only [perform, hkind, Bind.bind, EStateM.bind] at hresult
    split at hresult
    · next taken _ _ =>
      cases taken with
      | true =>
        cases hresult
        exact .conditional branch condition hkind
      | false => cases hresult
    · cases hresult
  | definition | comment =>
    simp only [perform, hkind] at hresult
    cases hresult
  | _ =>
    simp only [perform, hkind, Bind.bind, EStateM.bind] at hresult
    split at hresult <;> cases hresult

/-- An element with what it hands back takes its turn, if the bodies it runs do. -/
theorem records_recurse (hcallee : CalleeRecords n callee) (t : Tree)
    (hbody : Records n (.turns t.children) (recurseAll callee t.children))
    (hhanded : ∀ body, HandsBack t body → Records n (.turns body) (recurseAll callee body)) :
    Records n (.turn t) (recurse callee t) := by
  intro h hn
  have hstart : AtWork (h.moments ++ [⟨.begins t, h.environment⟩]) t h.environment n
      ⟨listing t h.environment, h.moments ++ [⟨.begins t, h.environment⟩]⟩ :=
    ⟨⟨[], (List.append_nil _).symm, .start⟩, hn⟩
  have hgoes := goesOn_perform hcallee hbody hstart rfl rfl
  rw [recurse_eq]
  simp only [execute, Bind.bind, EStateM.bind, beginElement_eq, telling]
  cases hresult : perform callee (recurseAll callee t.children) t
    ⟨listing t h.environment, h.moments ++ [⟨.begins t, h.environment⟩]⟩ with
  | error e h₂ =>
    rw [hresult] at hgoes
    obtain ⟨ended, l, hl, hr⟩ := hgoes
    refine ⟨⟨_, ?_, hr.fails h₂.environment e⟩, fun h => by cases h⟩
    simp only [stateOf, note, hl, List.append_assoc, List.cons_append, List.nil_append]
  | ok handed h₂ =>
    rw [hresult] at hgoes
    obtain ⟨⟨l, hl, hr⟩, hn₂⟩ := hgoes
    simp only [endElement_eq, Pure.pure, EStateM.pure]
    have hprefix : ∀ l' : List Moment, h₂.moments ++ [⟨.ends t, unlisting t h₂.environment⟩] ++ l' =
        h.moments ++ (⟨.begins t, h.environment⟩ :: l ++ ⟨.ends t, unlisting t h₂.environment⟩ :: l') := by
      intro l'
      simp only [hl, List.append_assoc, List.cons_append, List.nil_append]
    cases handed with
    | none =>
      refine ⟨⟨_, ?_, hr.ends (unlisting t h₂.environment) .nothing .none⟩, fun _ => hn₂⟩
      rw [← hprefix, List.append_nil]
      rfl
    | some handed =>
      have hbody := handsBack_of_perform hresult
      obtain ⟨⟨l', hl', hr'⟩, hn'⟩ := hhanded handed.1 hbody
        ⟨unlisting t h₂.environment, h₂.moments ++ [⟨.ends t, unlisting t h₂.environment⟩]⟩ hn₂
      refine ⟨⟨_, ?_, hr.ends (unlisting t h₂.environment) hbody hr'⟩, hn'⟩
      rw [← hprefix, ← hl']

theorem records_nil : Records n (.turns []) (recurseAll callee []) := by
  intro h hn
  rw [recurseAll_nil]
  exact ⟨⟨[], (List.append_nil _).symm, .none⟩, fun _ => hn⟩

theorem records_cons {t : Tree} {ts : List Tree} (first : Records n (.turn t) (recurse callee t))
    (others : Records n (.turns ts) (recurseAll callee ts)) :
    Records n (.turns (t :: ts)) (recurseAll callee (t :: ts)) := by
  intro h hn
  rw [recurseAll_cons]
  obtain ⟨⟨l, hl, hr⟩, hn₁⟩ := first h hn
  simp only [Bind.bind, EStateM.bind]
  cases hresult : recurse callee t h with
  | error e h₁ =>
    rw [hresult] at hl hr
    exact ⟨⟨l, hl, hr.fault⟩, fun h => by cases h⟩
  | ok _ h₁ =>
    rw [hresult] at hl hr hn₁
    obtain ⟨⟨l', hl', hr'⟩, hn₂⟩ := others h₁ (hn₁ rfl)
    refine ⟨⟨l ++ l', ?_, hr.next hr'⟩, hn₂⟩
    rw [hl', ← List.append_assoc, ← hl]
    rfl

/-- Some elements take their turns, one after the other. The induction is on their size: the bodies that
an element runs or hands back are smaller. -/
theorem records_recurseAll (hcallee : CalleeRecords n callee) (ts : List Tree) :
    Records n (.turns ts) (recurseAll callee ts) := by
  induction ts using Tree.sizes_induction with
  | nil => exact records_nil
  | cons t ts smaller ih =>
    have hturn := records_recurse hcallee t (smaller _ t.sizes_children_lt) fun body hbody =>
      smaller body hbody.sizes_lt
    exact records_cons hturn ih

end

/-- The levels that are left when some are open are as many as are counted down. -/
theorem records_recurseWithin (levels : Nat) (hlevels : maxNesting - n = levels) (ts : List Tree) :
    Records n (.turns ts) (recurseWithin levels ts) := by
  induction levels generalizing n ts with
  | zero =>
    refine records_recurseAll (fun hfits => ?_) ts
    omega
  | succ levels ih => exact records_recurseAll (fun _ _ us => ih (by omega) us) ts

end

/-- Visiting an element is running it by recursion, whoever watches, and changes the environment as it
does when nobody watches. Its history is one turn of the element: of every body that is activated or
handed back the elements begin in order, each once, up to the first error, after which nothing begins. -/
theorem visit_refines_recursion (t : Tree) :
    (∀ (σ : Type) [Recorder σ], (Environment.visit t : Run σ Unit) = Environment.visitRecursively t) ∧
      ∀ env : Environment, ∃ moments,
        (Environment.visit t : Run History Unit) ⟨env, []⟩ =
          mapState (fun env' => ⟨env', moments⟩) ((Environment.visit t : Action Unit) env) ∧
        Recorded (.turns [t]) moments (succeeds ((Environment.visit t : Action Unit) env)) ∧
        moments.Pairwise fun m m' => m.IsFault → ¬ m'.IsBegin := by
  refine ⟨fun σ _ => Environment.run_eq [t], fun env => ?_⟩
  have herase : mapState History.environment ((Environment.visit t : Run History Unit) ⟨env, []⟩) =
      (Environment.visit t : Action Unit) env := mapState_run [t] (⟨env, []⟩ : History)
  have hrun : (Environment.visit t : Run History Unit) ⟨env, []⟩ =
      recurseWithin (maxNesting - env.nesting) [t] ⟨env, []⟩ :=
    congrFun (Environment.run_eq [t]) (⟨env, []⟩ : History)
  obtain ⟨⟨moments, hmoments, hrecorded⟩, -⟩ := records_recurseWithin _ rfl [t] (⟨env, []⟩ : History) rfl
  rw [← hrun] at hmoments hrecorded
  rw [List.nil_append] at hmoments
  refine ⟨moments, ?_, ?_, hrecorded.pairwise⟩
  · rw [← herase]
    cases hresult : (Environment.visit t : Run History Unit) ⟨env, []⟩ with
    | ok x h => rw [hresult] at hmoments; rw [← hmoments]; rfl
    | error e h => rw [hresult] at hmoments; rw [← hmoments]; rfl
  · rw [← herase]
    cases hresult : (Environment.visit t : Run History Unit) ⟨env, []⟩ with
    | ok x h => rw [hresult] at hrecorded; exact hrecorded
    | error e h => rw [hresult] at hrecorded; exact hrecorded

end Execution

end Stencil
