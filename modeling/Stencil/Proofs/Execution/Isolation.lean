import Stencil.Proofs.Execution.Balance

/-! # Isolated scopes

What runs above an isolated scope does not depend on the scopes below it. Two runs that differ only there
are compared step by step: the scopes above are the same on both sides, and one of them is isolated. -/

namespace Stencil

/-! ### Names above an isolated scope -/

theorem Context.lookupLocal_append {inner : List Scope} (h : ∃ s ∈ inner, s.isolated = true)
    (outer outer' : List Scope) (name : String) :
    lookupLocal name (inner ++ outer) = lookupLocal name (inner ++ outer') := by
  induction inner with
  | nil =>
    obtain ⟨s, hs, -⟩ := h
    cases hs
  | cons s inner ih =>
    simp only [List.cons_append, lookupLocal]
    cases s.bindings.get? name with
    | some v => rfl
    | none =>
      by_cases hisolated : s.isolated = true
      · simp only [hisolated, if_true]
      · simp only [hisolated]
        obtain ⟨s', hs', hs''⟩ := h
        rcases List.mem_cons.1 hs' with rfl | hs'
        · exact absurd hs'' hisolated
        · exact ih ⟨s', hs', hs''⟩

namespace Expr

theorem evaluateWith_congr {c c' : Context} (h : ∀ name, c.lookup name = c'.lookup name)
    (run : Expr → String → Except TemplateError Value) (e : Expr) :
    evaluateWith c run e = evaluateWith c' run e := by
  induction e with
  | string | integer | boolean | null => simp only [evaluateWith]
  | var loc name => simp only [evaluateWith, h]
  | dot loc target key ih => simp only [evaluateWith, ih]
  | binary loc op left right ihLeft ihRight => simp only [evaluateWith, ihLeft, ihRight]
  | not loc operand ih => simp only [evaluateWith, ih]
  | group loc inner ih => simp only [evaluateWith, ih]
  | eval loc target ih => simp only [evaluateWith, ih]

/-- The value of an expression depends on what names stand for, and on nothing else in the context. -/
theorem evaluateWithin_congr {c c' : Context} (h : ∀ name, c.lookup name = c'.lookup name)
    (levels : Nat) (e : Expr) :
    evaluateWithin levels c e = evaluateWithin levels c' e := by
  induction levels generalizing e with
  | zero => exact evaluateWith_congr h _ e
  | succ levels ih =>
    rw [evaluateWithin, evaluateWithin, evaluateWith_congr h]
    simp only [ih]

end Expr

def Environment.withScopes (scopes : List Scope) (env : Environment) : Environment :=
  { env with context := { env.context with scopes } }

namespace Execution

open Stencil.Action Recorder

section
variable (outer outer' : List Scope)

/-- Results that differ only in the scopes at the bottom. Those on top of them are as given, unless the
run was abandoned. -/
inductive SameAbove {α β : Type} (V : α → β → Prop) (inner : List Scope) :
    EStateM.Result TemplateError Environment α → EStateM.Result TemplateError Environment β → Prop
  | ok {x : α} {x' : β} (value : V x x') (env : Environment) :
    SameAbove V inner (.ok x (env.withScopes (inner ++ outer))) (.ok x' (env.withScopes (inner ++ outer')))
  | error (e : TemplateError) (env : Environment) {left : List Scope}
    (scopes : e.abandons = false → left = inner) :
    SameAbove V inner (.error e (env.withScopes (left ++ outer))) (.error e (env.withScopes (left ++ outer')))

/-- Actions with such results wherever one of the scopes on top is isolated. -/
def Apart {α β : Type} (V : α → β → Prop) (act : Action α) (act' : Action β) : Prop :=
  ∀ (inner : List Scope) (env : Environment), (∃ s ∈ inner, s.isolated = true) →
    SameAbove outer outer' V inner (act (env.withScopes (inner ++ outer)))
      (act' (env.withScopes (inner ++ outer')))

end

section
variable {outer outer' inner : List Scope} {α β : Type} {V : α → β → Prop}

/-! ### Steps -/

theorem apart_pure {x : α} {x' : β} (h : V x x') : Apart outer outer' V (pure x) (pure x') :=
  fun _ env _ => .ok h env

theorem apart_throw (e : TemplateError) : Apart outer outer' V (throw e) (throw e) :=
  fun _ env _ => .error e env fun _ => rfl

theorem apart_bind {α' β' : Type} {W : α' → β' → Prop} {act : Action α} {act' : Action β} {f : α → Action α'}
    {f' : β → Action β'} (h : Apart outer outer' V act act')
    (hf : ∀ x x', V x x' → Apart outer outer' W (f x) (f' x')) :
    Apart outer outer' W (act >>= f) (act' >>= f') := by
  intro inner env hisolated
  have hact := h inner env hisolated
  simp only [bind, EStateM.bind]
  generalize act _ = r at hact
  generalize act' _ = r' at hact
  cases hact with
  | ok value env => exact hf _ _ value inner env hisolated
  | error e env scopes => exact .error e env scopes

theorem apart_change {f : Environment → Environment}
    (hf : ∀ env scopes, f (env.withScopes scopes) = (f env).withScopes scopes) :
    Apart outer outer' Whatever (change f) (change f) := by
  intro inner env _
  change SameAbove outer outer' Whatever inner (.ok () (f (env.withScopes _))) (.ok () (f (env.withScopes _)))
  rw [hf, hf]
  exact .ok trivial (f env)

theorem apart_observe {f : Environment → Except TemplateError α}
    (hf : ∀ (inner : List Scope) (env : Environment), (∃ s ∈ inner, s.isolated = true) →
      f (env.withScopes (inner ++ outer)) = f (env.withScopes (inner ++ outer'))) :
    Apart outer outer' Eq (observe f) (observe f) := by
  intro inner env hisolated
  simp only [observe, environment, id, hf inner env hisolated]
  cases f (env.withScopes (inner ++ outer')) with
  | ok x => exact .ok rfl env
  | error e => exact .error e env fun _ => rfl

theorem apart_evaluate (e : Expr) : Apart outer outer' Eq (evaluate e) (evaluate e) := by
  refine apart_observe fun inner env hisolated => Expr.evaluateWithin_congr (fun name => ?_) _ e
  have hlocal := Context.lookupLocal_append hisolated outer outer' name
  simp only [Environment.withScopes, Context.lookup, hlocal]

theorem apart_write (text : String) : Apart outer outer' Whatever (write text) (write text) := by
  intro inner env _
  have hcaptures : ∀ scopes, (env.withScopes scopes).captures = env.captures := fun _ => rfl
  have hsink : ∀ scopes, (env.withScopes scopes).sink = env.sink := fun _ => rfl
  simp only [write, environment, id, hcaptures, hsink]
  cases env.captures with
  | cons captured outerCaptures =>
    exact .ok trivial { env with captures := (captured ++ text) :: outerCaptures }
  | nil =>
    generalize env.sink.write text = r
    obtain ⟨outcome, sink⟩ := r
    cases outcome with
    | ok =>
      dsimp only
      exact .ok trivial { env with sink := sink, captures := [] }
    | error fault =>
      dsimp only
      exact .error (.io fault) { env with sink := sink, captures := [] } fun _ => rfl

/-- Closing anything but a scope. -/
theorem apart_closing {e : Enclosure} (he : e ≠ .scope) {act : Action α} {act' : Action β}
    (h : Apart outer outer' V act act') :
    Apart outer outer' V (closing e act) (closing e act') := by
  have hclose : ∀ (env : Environment) scopes, e.close (env.withScopes scopes) =
      (e.close env).withScopes scopes := by
    intro env scopes
    cases e with
    | scope => exact absurd rfl he
    | _ => rfl
  intro inner env hisolated
  have hact := h inner env hisolated
  simp only [closing]
  generalize act _ = r at hact
  generalize act' _ = r' at hact
  cases hact with
  | ok value env =>
    simp only [closed, environment, put, note, id, hclose]
    exact .ok value (e.close env)
  | error err env scopes =>
    cases habandons : err.abandons with
    | true =>
      simp only [habandons, if_true]
      exact .error err env fun h => absurd (habandons.symm.trans h) (by decide)
    | false =>
      simp only [habandons, closed, environment, put, note, id, hclose, Bool.false_eq_true, if_false]
      exact .error err (e.close env) scopes

theorem SameAbove.closing {s : Scope} {act : Action α} {act' : Action β} {env env' : Environment}
    (h : SameAbove outer outer' V (s :: inner) (act env) (act' env')) :
    SameAbove outer outer' V inner (closing .scope act env) (closing .scope act' env') := by
  simp only [Action.closing]
  generalize act env = r at h
  generalize act' env' = r' at h
  cases h with
  | ok value env => exact .ok value env
  | error e env scopes =>
    cases habandons : e.abandons with
    | true =>
      simp only [habandons, if_true]
      exact .error e env fun h => absurd (habandons.symm.trans h) (by decide)
    | false =>
      obtain rfl := scopes habandons
      simp only [habandons, Bool.false_eq_true, if_false]
      exact .error e env fun _ => rfl

theorem apart_mapError {f : TemplateError → TemplateError} (hf : ∀ e, (f e).abandons = e.abandons)
    {act : Action α} {act' : Action β} (h : Apart outer outer' V act act') :
    Apart outer outer' V (mapError f act) (mapError f act') := by
  intro inner env hisolated
  have hact := h inner env hisolated
  simp only [mapError]
  generalize act _ = r at hact
  generalize act' _ = r' at hact
  cases hact with
  | ok value env => exact .ok value env
  | error e env scopes => exact .error (f e) env (hf e ▸ scopes)

theorem apart_beginElement (t : Tree) : Apart outer outer' Whatever (beginElement t) (beginElement t) := by
  have htell : Apart outer outer' Whatever (tell (.begins t)) (tell (.begins t)) :=
    apart_change (f := id) fun _ _ => rfl
  refine apart_bind htell fun _ _ _ => ?_
  split
  · exact apart_change fun _ _ => rfl
  · exact apart_pure trivial

theorem apart_endElement (t : Tree) : Apart outer outer' Whatever (endElement t) (endElement t) := by
  have htell : Apart outer outer' Whatever (tell (.ends t)) (tell (.ends t)) :=
    apart_change (f := id) fun _ _ => rfl
  unfold endElement
  split
  · exact apart_bind (apart_change fun _ _ => rfl) fun _ _ _ => htell
  · exact htell

theorem apart_enter {t t' : Tree} (h : ErrorSite.ofTree t = ErrorSite.ofTree t') :
    Apart outer outer' Whatever (enter t) (enter t') := by
  unfold enter
  rw [h]
  intro inner env hisolated
  simp only [bind, EStateM.bind, current, environment, id]
  by_cases hdeep : env.nesting ≥ maxNesting
  · have hdeep' : ∀ scopes, (env.withScopes scopes).nesting ≥ maxNesting := fun _ => hdeep
    simp only [hdeep', if_true]
    exact .error _ env fun _ => rfl
  · have hdeep' : ∀ scopes, ¬ (env.withScopes scopes).nesting ≥ maxNesting := fun _ => hdeep
    simp only [hdeep', if_false]
    exact .ok trivial { env with nesting := env.nesting + 1 }

theorem apart_includeTemplate {callee callee' : Tree → List Tree → Action Unit} {t t' : Tree} (name : String)
    (h : ∀ u, Apart outer outer' Whatever (callee t [u]) (callee' t' [u])) :
    Apart outer outer' Whatever (includeTemplate callee t name) (includeTemplate callee' t' name) := by
  refine apart_bind (apart_observe fun _ _ _ => rfl) ?_
  rintro template _ rfl
  have hregister : Apart outer outer' Whatever (registerMacros template.tree)
      (registerMacros template.tree) :=
    apart_change fun _ _ => rfl
  have hbegin : Apart outer outer' Whatever (beginInclusion name) (beginInclusion name) :=
    apart_change fun _ _ => rfl
  have hclosing := apart_closing (e := .inclusion) nofun (h template.tree)
  exact apart_bind hregister fun _ _ _ => apart_bind hbegin fun _ _ _ => hclosing

end

/-! ### Bodies -/

/-- Differing only in the scopes at the bottom, construct by construct. -/
def apart (outer outer' : List Scope) : Correspondence Environment Environment where
  node := Eq
  rewrites _ _ := False
  expr := Eq
  site := Eq
  value _ := True
  relates := Apart outer outer'
  node_kind := kind_like_of_eq
  node_site := site_eq_of_eq
  expr_site := expr_site_eq_of_eq
  expr_canonical := canonical_eq_of_eq
  value_inherited := Value.inherited_true
  pure := apart_pure
  bind := apart_bind
  raise h := h.eq ▸ apart_throw _
  evaluate h := by simpa only [and_true] using h ▸ apart_evaluate _
  write := apart_write
  setGlobal _ _ _ := apart_change fun _ _ => rfl
  macros _ env _ := by
    refine .ok ?_ env
    exact MacrosAlike.self (fun _ => rfl) env.macros
  inScope {bindings} isolated _ _ _ hbody := by
    intro inner env hisolated
    obtain ⟨s, hs, hs'⟩ := hisolated
    exact (hbody (⟨bindings, isolated⟩ :: inner) env ⟨s, List.mem_cons_of_mem _ hs, hs'⟩).closing
  inLevel {t t' act act'} hsite h := by
    have hclosing := apart_closing (e := .level) nofun h
    exact apart_bind (apart_enter hsite) fun _ _ _ => hclosing
  inCapture {body body'} hbody := by
    have hread : Apart outer outer' Eq (do return (← current).captures.head?.getD "")
        (do return (← current).captures.head?.getD "") :=
      fun _ env _ => .ok rfl env
    have hinner : Apart outer outer' Eq (do body; return (← current).captures.head?.getD "")
        (do body'; return (← current).captures.head?.getD "") := apart_bind hbody fun _ _ _ => hread
    have hclosing := apart_closing (e := .capture) nofun hinner
    have hbegin : Apart outer outer' Whatever beginCapture beginCapture := apart_change fun _ _ => rfl
    exact apart_bind hbegin fun _ _ _ => hclosing
  inInclusion {t t' _ _} name hsite h := by
    have hinclude := apart_includeTemplate name fun u => h u u (Alike.self (fun _ => rfl) false [u])
    rw [TemplateError.locatedAt_congr hsite]
    exact apart_mapError (fun e => e.abandons_locatedAt t) hinclude
  listed := by
    rintro t _ α β V act act' rfl hact
    rw [telling_eq, telling_eq]
    exact apart_bind (apart_beginElement t) fun _ _ _ => apart_bind hact fun _ _ hx =>
      apart_bind (apart_endElement t) fun _ _ _ => apart_pure hx
  rewriting h := h.elim

/-! ### Macros -/

/-- What a call runs once its level of nesting is open: the body of a macro in a scope with the bindings. -/
def callBody (d : Tree) (bindings : Bindings Value) : Action Unit := do
  pushScope bindings true
  closing .scope (Environment.visitChildren d)

/-- Binding parameters leaves the environment as it is. -/
theorem bindParameters_outcome (ps : List String) (es : List Expr) (bindings : Bindings Value)
    (env : Environment) :
    (∃ bound, (bindParameters ps es bindings : Action _) env = .ok bound env) ∨
      ∃ e, (bindParameters ps es bindings : Action _) env = .error e env := by
  induction ps generalizing es bindings with
  | nil => exact .inl ⟨bindings, rfl⟩
  | cons p ps ih =>
    cases es with
    | nil => exact ih [] _
    | cons e es =>
      cases hvalue : e.evaluateWithin (maxNesting - env.nesting) env.context with
      | error err => exact .inr ⟨err,
        by simp only [bindParameters, evaluate, observe, bind, EStateM.bind, environment, id, hvalue]⟩
      | ok v =>
        have hrest : (bindParameters (p :: ps) (e :: es) bindings : Action _) env =
            bindParameters ps es (bindings.insert p v) env := by
          simp only [bindParameters, evaluate, observe, bind, EStateM.bind, environment, id, hvalue]
        rw [hrest]
        exact ih es _

section
variable {callee : Tree → List Tree → Action Unit} {t d : Tree} {name defined : String}
  {arguments : List Expr} {parameters : List String} {env : Environment}

/-- A call of a macro runs its body, one level of nesting deeper, in a scope with the
values of the arguments. -/
theorem callMacro_eq_callBody
    (hcallee : env.nesting < maxNesting → callee t = recurseWithin (maxNesting - (env.nesting + 1)))
    (hfound : env.macros.get? name = some d) (hkind : d.kind = .definition defined parameters)
    (hcount : arguments.length ≤ parameters.length) :
    callMacro callee t name arguments env = (do
      let bindings ← bindParameters parameters arguments {}
      enter t
      closing .level (callBody d bindings) : Action Unit) env := by
  have hcall : callMacro callee t name arguments env = (do
      let bindings ← bindParameters parameters arguments {}
      enter t
      closing .level do
        pushScope bindings true
        closing .scope (callee t d.children) : Action Unit) env := by
    simp only [callMacro, bind, EStateM.bind, current, environment, id, hfound, hkind,
      if_neg (Nat.not_lt.2 hcount)]
  rw [hcall]
  rcases bindParameters_outcome parameters arguments {} env with ⟨bindings, hbound⟩ | ⟨e, hbound⟩
  · simp only [bind, EStateM.bind, hbound, enter, current, environment, id]
    by_cases hdeep : env.nesting ≥ maxNesting
    · simp only [if_pos hdeep]
      rfl
    · simp only [if_neg hdeep, hcallee (Nat.lt_of_not_ge hdeep), callBody,
        Environment.visitChildren, Environment.run_eq]
      rfl
  · simp only [bind, EStateM.bind, hbound]

/-- Whatever the element of a call runs in, it runs the body of the macro there. -/
theorem visit_call (hcall : t.kind = .call name arguments) (hfound : env.macros.get? name = some d)
    (hkind : d.kind = .definition defined parameters) (hcount : arguments.length ≤ parameters.length) :
    Environment.visit t env = (do
      beginElement t
      let bindings ← bindParameters parameters arguments {}
      enter t
      closing .level (callBody d bindings)
      endElement t : Action Unit) env := by
  have hrecurse (callee : Tree → List Tree → Action Unit)
      (hcallee : env.nesting < maxNesting → callee t = recurseWithin (maxNesting - (env.nesting + 1))) :
      recurse callee t env = (do
        beginElement t
        let bindings ← bindParameters parameters arguments {}
        enter t
        closing .level (callBody d bindings)
        endElement t : Action Unit) env := by
    have hmacro : callMacro callee t name arguments (listing t env) = _ :=
      callMacro_eq_callBody hcallee hfound hkind hcount
    have hperform : perform callee (recurseAll callee t.children) t =
        (do callMacro callee t name arguments; return none) := by
      simp only [perform, hcall]
    rw [recurse_of_perform hperform]
    simp only [bind, EStateM.bind] at hmacro
    simp only [bind, EStateM.bind, beginElement_listing, hmacro]
    cases (bindParameters parameters arguments {} : Action _) (listing t env) with
    | error e after => rfl
    | ok bindings after =>
      dsimp only
      cases (enter t : Action Unit) after <;> rfl
  rw [Environment.visit, Environment.run_eq]
  change recurseWithin (maxNesting - env.nesting) [t] env = _
  cases hlevels : maxNesting - env.nesting with
  | zero =>
    rw [recurseWithin, recurseAll_singleton]
    exact hrecurse _ fun h => by omega
  | succ levels =>
    rw [recurseWithin, recurseAll_singleton]
    exact hrecurse _ fun h => by rw [show maxNesting - (env.nesting + 1) = levels by omega]

end

/-- Calling a macro runs its body in a scope with the values of the arguments. There the body does the same
whatever local scopes the caller has, and leaves these as they are. Only a run that is abandoned leaves scopes
of its own on top of them. -/
theorem callBody_ignores_scopes (d : Tree) (bindings : Bindings Value) (env : Environment)
    (outer outer' : List Scope) :
    (∀ (t : Tree) (name defined : String) (arguments : List Expr) (parameters : List String),
      t.kind = .call name arguments → env.macros.get? name = some d →
      d.kind = .definition defined parameters →
      arguments.length ≤ parameters.length →
      Environment.visit t env = (do
        beginElement t
        let bindings ← bindParameters parameters arguments {}
        enter t
        closing .level (callBody d bindings)
        endElement t : Action Unit) env) ∧
    ((∃ env' : Environment, callBody d bindings (env.withScopes outer) = .ok () (env'.withScopes outer) ∧
        callBody d bindings (env.withScopes outer') = .ok () (env'.withScopes outer')) ∨
      ∃ (e : TemplateError) (env' : Environment) (left : List Scope), (e.abandons = false → left = []) ∧
        callBody d bindings (env.withScopes outer) = .error e (env'.withScopes (left ++ outer)) ∧
        callBody d bindings (env.withScopes outer') = .error e (env'.withScopes (left ++ outer'))) := by
  refine ⟨fun _ _ _ _ _ => visit_call, ?_⟩
  have hrun : ∀ scopes, callBody d bindings (env.withScopes scopes) =
      closing .scope (recurseWithin (maxNesting - env.nesting) d.children : Action Unit)
        (env.withScopes (⟨bindings, true⟩ :: scopes)) := by
    intro scopes
    rw [callBody, Environment.visitChildren, Environment.run_eq]
    rfl
  have hsame : (apart outer outer').Bodies d.children d.children := Alike.self (fun _ => rfl) false d.children
  have hbody := (apart outer outer').relates_recurseWithin (maxNesting - env.nesting) hsame
    [⟨bindings, true⟩] env ⟨_, List.mem_singleton_self _, rfl⟩
  have hclosed := SameAbove.closing hbody
  rw [hrun, hrun]
  simp only [List.cons_append, List.nil_append] at hclosed
  generalize closing .scope _ (env.withScopes (_ :: outer)) = r at hclosed ⊢
  generalize closing .scope _ (env.withScopes (_ :: outer')) = r' at hclosed ⊢
  cases hclosed with
  | ok _ env' => exact .inl ⟨env', rfl, rfl⟩
  | error e env' scopes => exact .inr ⟨e, env', _, scopes, rfl, rfl⟩

/-- A macro that prints its parameter, called where the caller has a local of that name. -/
theorem callBody_ignores_scopes_shadowed :
    let d : Tree := { (default : Tree) with
      kind := .definition "greet" ["name"], children :=
        [{ (default : Tree) with kind := .interpolation (.var default "name") }] }
    let t : Tree := { (default : Tree) with kind := .call "greet" [.string default "you"] }
    let caller : Scope := ⟨({} : Bindings Value).insert "name" (.string "me"), false⟩
    let env : Environment :=
      { (default : Environment) with macros := ({} : Bindings Tree).insert "greet" d }.withScopes [caller]
    t.kind = .call "greet" [.string default "you"] ∧ env.macros.get? "greet" = some d ∧
      d.kind = .definition "greet" ["name"] ∧ [Expr.string default "you"].length ≤ ["name"].length ∧
      Environment.visit t env = (do
        beginElement t
        let bindings ← bindParameters ["name"] [.string default "you"] {}
        enter t
        closing .level (callBody d bindings)
        endElement t : Action Unit) env :=
  ⟨rfl, rfl, rfl, Nat.le_refl 1,
    (callBody_ignores_scopes _ {} _ [] []).1 _ _ _ _ _ rfl rfl rfl (Nat.le_refl 1)⟩

end Execution

end Stencil
