import Stencil.Render
import Stencil.Proofs.Execution.Regrouping
import Stencil.Proofs.Execution.Balance

/-! # Output that is cut off

A run into an output that takes only so many bytes is compared with the same run into one that takes
everything. The two go together as long as what was written fits. Then the limited one stops: it fails
with the fault of its output, whatever it is in the middle of, and writes no more, while the other goes
on. -/

namespace Stencil

/-! ### Limited outputs -/

/-- How much an output takes, and what it does beyond that. -/
structure Limit where
  size : Nat
  overflow : Overflow
  fault : IoFault
  completes : Bool

/-- The same output so far, limited from here on. -/
def Sink.under (l : Limit) (s : Sink) : Sink :=
  { s with limit := some l.size, overflow := l.overflow, fault := l.fault, completes := l.completes }

def Environment.under (l : Limit) (env : Environment) : Environment := { env with sink := env.sink.under l }

/-- What a limited output has of a whole one that is too long for it: its beginning, as far as the limit if
texts are cut there. -/
structure Cut (l : Limit) (whole limited : Sink) : Prop where
  past : l.size < whole.written.size
  beginning : ∃ n ≤ l.size, (l.overflow = .cut → n = l.size) ∧ limited.written = whole.written.extract 0 n
  flushes : limited.flushes = whole.flushes

theorem Cut.append {l : Limit} {whole limited : Sink} (h : Cut l whole limited) (bytes : ByteArray) :
    Cut l { whole with written := whole.written ++ bytes } limited := by
  obtain ⟨n, hn, hcut, hwritten⟩ := h.beginning
  have hpast := h.past
  refine ⟨?_, ⟨n, hn, hcut, ?_⟩, h.flushes⟩
  · rw [ByteArray.size_append]
    omega
  · have hnothing : bytes.extract (0 - whole.written.size) (n - whole.written.size) = .empty :=
      ByteArray.extract_eq_empty_iff.2 (by omega)
    rw [ByteArray.extract_append, hnothing, ByteArray.append_empty]
    exact hwritten

/-- A limited output takes a text that fits like an unlimited one, and of a text that does not it takes the
beginning, if anything, and fails. -/
theorem Sink.write_under (l : Limit) {s : Sink} (hlimit : s.limit = none)
    (fits : s.written.size ≤ l.size) (text : String) :
    (s.write text).2.written.size ≤ l.size ∧ (s.under l).write text = (.ok (), (s.write text).2.under l) ∨
    ∃ limited, (s.under l).write text = (.error l.fault, limited) ∧ Cut l (s.write text).2 limited := by
  rw [Execution.Sink.write_unlimited hlimit, Sink.write]
  split
  · next hempty =>
    obtain rfl := String.isEmpty_iff.1 hempty
    exact .inl ⟨by simpa using fits, by simp⟩
  · simp only [Sink.under, String.toUTF8_eq_toByteArray, ByteArray.size_append]
    split
    · next hfits => exact .inl ⟨hfits, rfl⟩
    · next hfits =>
      have hpast : l.size < (s.written ++ text.toByteArray).size := by
        rw [ByteArray.size_append]
        omega
      split
      · next hoverflow =>
        refine .inr ⟨_, rfl, hpast, ⟨s.written.size, fits, by simp [hoverflow], ?_⟩, rfl⟩
        rw [ByteArray.extract_append_eq_left rfl]
      · refine .inr ⟨_, rfl, hpast, ⟨l.size, Nat.le_refl _, fun _ => rfl, ?_⟩, rfl⟩
        have hall : s.written.extract 0 l.size = s.written := by
          rw [← Nat.max_eq_left fits, ByteArray.extract_zero_max_size]
        rw [ByteArray.extract_append, hall, Nat.zero_sub]

namespace Execution

open Stencil.Action Recorder

/-! ### What a run writes -/

/-- Output is only appended, and only when no capture is open. -/
def Wrote (env env' : Environment) : Prop :=
  ∃ bytes, env'.sink = { env.sink with written := env.sink.written ++ bytes } ∧
    (env.captures ≠ [] → bytes = .empty)

theorem Wrote.of_sink {env env' : Environment} (h : env'.sink = env.sink) : Wrote env env' :=
  ⟨.empty, by rw [h, ByteArray.append_empty], fun _ => rfl⟩

theorem Wrote.trans {env env' env'' : Environment} (h : Wrote env env') (h' : Wrote env' env'')
    (captures : env.captures ≠ [] → env'.captures ≠ []) : Wrote env env'' := by
  obtain ⟨bytes, hsink, hnothing⟩ := h
  obtain ⟨bytes', hsink', hnothing'⟩ := h'
  refine ⟨bytes ++ bytes', by rw [hsink', hsink, ByteArray.append_assoc], fun hcaptures => ?_⟩
  rw [hnothing hcaptures, hnothing' (captures hcaptures), ByteArray.append_empty]

/-- A result of a run: something was written, and as many captures are open as before if it is no error. -/
inductive Writes {α : Type} (V : α → Prop) (env : Environment) :
    EStateM.Result TemplateError Environment α → Prop
  | ok {x : α} {env' : Environment} (value : V x) (wrote : Wrote env env')
    (captures : env'.captures.length = env.captures.length) : Writes V env (.ok x env')
  | error {e : TemplateError} {env' : Environment} (wrote : Wrote env env') : Writes V env (.error e env')

theorem Writes.wrote {α : Type} {V : α → Prop} {env : Environment}
    {r : EStateM.Result TemplateError Environment α} (h : Writes V env r) : Wrote env (stateOf r) := by
  cases h with
  | ok _ wrote _ => exact wrote
  | error wrote => exact wrote

theorem captures_ne_nil {env env' : Environment} (h : env'.captures.length = env.captures.length) :
    env.captures ≠ [] → env'.captures ≠ [] := by
  rw [← List.length_pos_iff, ← List.length_pos_iff, h]
  exact id

/-! ### Whole runs and limited ones -/

/-- Results of a whole run and of a limited one: they are the same if the output fits, and otherwise the
limited one has failed with the fault of its output. -/
inductive CutOff (l : Limit) {α β : Type} (V : α → β → Prop) :
    EStateM.Result TemplateError Environment α → EStateM.Result TemplateError Environment β → Prop
  | ok {x : α} {x' : β} {env : Environment} (value : V x x') (fits : env.sink.written.size ≤ l.size) :
    CutOff l V (.ok x env) (.ok x' (env.under l))
  | error {e : TemplateError} {env : Environment} (fits : env.sink.written.size ≤ l.size) :
    CutOff l V (.error e env) (.error e (env.under l))
  | stopped {r : EStateM.Result TemplateError Environment α} {env' : Environment}
    (cut : Cut l (stateOf r).sink env'.sink) :
    CutOff l V r (.error (.io l.fault) env')

/-- Actions of which the second does under a limit what the first does without. -/
structure Limited (l : Limit) {α β : Type} (V : α → β → Prop) (act : Action α) (act' : Action β) : Prop where
  writes (env : Environment) : Writes (fun x => ∃ x', V x x') env (act env)
  cutOff (env : Environment) : env.sink.limit = none → env.sink.written.size ≤ l.size →
    CutOff l V (act env) (act' (env.under l))

section
variable {l : Limit} {α β : Type} {V : α → β → Prop} {act : Action α} {act' : Action β}

theorem limited_pure {x : α} {x' : β} (h : V x x') : Limited l V (pure x) (pure x') where
  writes _ := .ok ⟨x', h⟩ (.of_sink rfl) rfl
  cutOff _ _ fits := .ok h fits

theorem limited_throw (e : TemplateError) : Limited l V (throw e) (throw e) where
  writes _ := .error (.of_sink rfl)
  cutOff _ _ fits := .error fits

/-- What goes on after the limited run has stopped only adds to an output that is too long already. -/
theorem limited_bind {α' β' : Type} {W : α' → β' → Prop} {f : α → Action α'} {f' : β → Action β'}
    (h : Limited l V act act') (hf : ∀ x x', V x x' → Limited l W (f x) (f' x')) :
    Limited l W (act >>= f) (act' >>= f') where
  writes env := by
    have hact := h.writes env
    simp only [bind, EStateM.bind]
    generalize act env = r at hact
    cases hact with
    | error wrote => exact .error wrote
    | @ok x env₁ value wrote captures =>
      obtain ⟨x', hx⟩ := value
      have hrest := (hf x x' hx).writes env₁
      dsimp only
      generalize f x env₁ = r at hrest
      cases hrest with
      | ok value' wrote' captures' =>
        exact .ok value' (wrote.trans wrote' (captures_ne_nil captures)) (captures'.trans captures)
      | error wrote' => exact .error (wrote.trans wrote' (captures_ne_nil captures))
  cutOff env hlimit fits := by
    have hwrites := h.writes env
    have hact := h.cutOff env hlimit fits
    simp only [bind, EStateM.bind]
    generalize act env = r at hact hwrites
    generalize act' (env.under l) = r' at hact
    cases hact with
    | error fits' => exact .error fits'
    | @ok x x' env₁ value fits' =>
      obtain ⟨bytes, hsink, -⟩ := hwrites.wrote
      have hlimit' : env₁.sink.limit = none := (congrArg Sink.limit hsink).trans hlimit
      exact (hf x x' value).cutOff env₁ hlimit' fits'
    | stopped cut =>
      refine .stopped ?_
      cases hwrites with
      | error _ => exact cut
      | @ok x env₁ value wrote captures =>
        obtain ⟨x', hx⟩ := value
        obtain ⟨bytes, hsink, -⟩ := ((hf x x' hx).writes env₁).wrote
        change Cut l (stateOf (f x env₁)).sink _
        rw [hsink]
        exact cut.append bytes

/-! ### Steps -/

theorem limited_change {f : Environment → Environment} (sink : ∀ env, (f env).sink = env.sink)
    (captures : ∀ env, (f env).captures = env.captures) (under : ∀ env, f (env.under l) = (f env).under l) :
    Limited l Whatever (change f) (change f) where
  writes env := .ok ⟨(), trivial⟩ (.of_sink (sink env)) (congrArg List.length (captures env))
  cutOff env _ fits := by
    change CutOff l Whatever (.ok () (f env)) (.ok () (f (env.under l)))
    rw [under]
    exact .ok trivial ((sink env).symm ▸ fits)

theorem limited_observe {f : Environment → Except TemplateError α} (under : ∀ env, f (env.under l) = f env) :
    Limited l Eq (observe f) (observe f) where
  writes env := by
    unfold observe
    split
    · exact .ok ⟨_, rfl⟩ (.of_sink rfl) rfl
    · exact .error (.of_sink rfl)
  cutOff env _ fits := by
    simp only [observe, environment, id, under]
    cases f env with
    | ok x => exact .ok rfl fits
    | error e => exact .error fits

theorem limited_write (text : String) : Limited l Whatever (write text) (write text) where
  writes env := by
    simp only [write, environment, id, put]
    cases hcaptures : env.captures with
    | cons captured outer =>
      dsimp only
      exact .ok ⟨(), trivial⟩ (.of_sink rfl) (by rw [hcaptures]; rfl)
    | nil =>
      obtain ⟨bytes, hbytes⟩ := Sink.written_write env.sink text
      have hwrote : Wrote env { env with sink := (env.sink.write text).2 } :=
        ⟨bytes, hbytes, fun h => absurd hcaptures h⟩
      generalize env.sink.write text = r at hwrote
      obtain ⟨outcome, sink⟩ := r
      cases outcome with
      | ok => exact .ok ⟨(), trivial⟩ (hcaptures ▸ hwrote) (by rw [hcaptures])
      | error fault => exact .error (hcaptures ▸ hwrote)
  cutOff env hlimit fits := by
    have hcaptures : (env.under l).captures = env.captures := rfl
    simp only [write, environment, id, put, hcaptures]
    cases env.captures with
    | cons captured outer => exact .ok trivial fits
    | nil =>
      have hok : (env.sink.write text).1 = .ok () := by rw [Sink.write_unlimited hlimit]
      have hwrite := Sink.write_under l hlimit fits text
      change _ ∨ ∃ limited, (env.under l).sink.write text = _ ∧ _ at hwrite
      generalize env.sink.write text = r at hok hwrite
      obtain ⟨outcome, sink⟩ := r
      obtain rfl : outcome = .ok () := hok
      rcases hwrite with ⟨hfits, hwrite⟩ | ⟨limited, hwrite, hcut⟩
      · change (env.under l).sink.write text = _ at hwrite
        rw [hwrite]
        exact .ok trivial hfits
      · rw [hwrite]
        exact .stopped hcut

theorem limited_mapError {f : TemplateError → TemplateError} (hf : ∀ fault, f (.io fault) = .io fault)
    (h : Limited l V act act') : Limited l V (mapError f act) (mapError f act') where
  writes env := by
    have hact := h.writes env
    simp only [mapError]
    generalize act env = r at hact
    cases hact with
    | ok value wrote captures => exact .ok value wrote captures
    | error wrote => exact .error wrote
  cutOff env hlimit fits := by
    have hact := h.cutOff env hlimit fits
    simp only [mapError]
    generalize act env = r at hact
    generalize act' (env.under l) = r' at hact
    cases hact with
    | ok value fits => exact .ok value fits
    | error fits => exact .error fits
    | stopped cut =>
      dsimp only
      rw [hf]
      refine .stopped ?_
      cases r <;> exact cut

theorem sink_close (e : Enclosure) (env : Environment) : (e.close env).sink = env.sink := by
  cases e <;> rfl

theorem close_under (e : Enclosure) (env : Environment) : e.close (env.under l) = (e.close env).under l := by
  cases e <;> rfl

/-- Opening something, an action, and closing it again. -/
theorem limited_enclosed {e : Enclosure} {opening : Environment → Environment}
    (sink : ∀ env, (opening env).sink = env.sink)
    (under : ∀ env, opening (env.under l) = (opening env).under l)
    (captures : ∀ env, env.captures ≠ [] → (opening env).captures ≠ [])
    (close : ∀ env env', env'.captures.length = (opening env).captures.length →
      (e.close env').captures.length = env.captures.length)
    (h : Limited l V act act') :
    Limited l V (do change opening; closing e act) (do change opening; closing e act') where
  writes env := by
    have hact := h.writes (opening env)
    have hwrote : ∀ env', Wrote (opening env) env' → ∀ env'', env''.sink = env'.sink → Wrote env env'' := by
      intro env' hwrote env'' hsink
      have hopened : Wrote env env' := (Wrote.of_sink (sink env)).trans hwrote (captures env)
      obtain ⟨bytes, hbytes, hnothing⟩ := hopened
      exact ⟨bytes, hsink.trans hbytes, hnothing⟩
    change Writes _ env (closing e act (opening env))
    simp only [closing]
    generalize act (opening env) = r at hact
    cases hact with
    | ok value wrote captures => exact .ok value (hwrote _ wrote _ (sink_close e _)) (close env _ captures)
    | error wrote =>
      refine .error (hwrote _ wrote _ ?_)
      split
      · rfl
      · exact sink_close e _
  cutOff env hlimit fits := by
    have hact := h.cutOff (opening env) ((sink env).symm ▸ hlimit) ((sink env).symm ▸ fits)
    change CutOff l V (closing e act (opening env)) (closing e act' (opening (env.under l)))
    rw [under]
    simp only [closing]
    generalize act (opening env) = r at hact
    generalize act' ((opening env).under l) = r' at hact
    cases hact with
    | @ok x x' env₁ value fits =>
      change CutOff l V (.ok x (e.close env₁)) (.ok x' (e.close (env₁.under l)))
      rw [close_under]
      exact .ok value ((sink_close e env₁).symm ▸ fits)
    | @error err env₁ fits =>
      change CutOff l V (.error err (if err.abandons then env₁ else e.close env₁))
        (.error err (if err.abandons then env₁.under l else e.close (env₁.under l)))
      split
      · exact .error fits
      · rw [close_under]
        exact .error ((sink_close e env₁).symm ▸ fits)
    | @stopped _ env₁ cut =>
      change CutOff l V _ (.error (.io l.fault) (e.close env₁))
      refine .stopped ?_
      rw [sink_close]
      cases r with
      | ok x env₂ =>
        change Cut l (e.close env₂).sink _
        rw [sink_close]
        exact cut
      | error err env₂ =>
        change Cut l (if err.abandons then env₂ else e.close env₂).sink _
        split
        · exact cut
        · rw [sink_close]
          exact cut

theorem limited_enter {t t' : Tree} (hsite : ErrorSite.ofTree t = ErrorSite.ofTree t')
    {act act' : Action Unit} (h : Limited l Whatever act act') :
    Limited l Whatever (do enter t; closing .level act) (do enter t'; closing .level act') := by
  have hentered : Limited l Whatever
      (do change fun env => { env with nesting := env.nesting + 1 }; closing .level act : Action Unit)
      (do change fun env => { env with nesting := env.nesting + 1 }; closing .level act') :=
    limited_enclosed (fun _ => rfl) (fun _ => rfl) (fun _ => id) (fun _ _ h => h) h
  constructor
  · intro env
    rw [enter_closing]
    split
    · exact .error (.of_sink rfl)
    · exact hentered.writes env
  · intro env hlimit fits
    have hnesting : (environment (env.under l)).nesting = (environment env).nesting := rfl
    rw [enter_closing, enter_closing, hnesting, ← hsite]
    split
    · exact .error fits
    · exact hentered.cutOff env hlimit fits

theorem limited_beginElement (t : Tree) : Limited l Whatever (beginElement t) (beginElement t) := by
  have htell : Limited l Whatever (tell (.begins t)) (tell (.begins t)) :=
    limited_change (f := id) (fun _ => rfl) (fun _ => rfl) fun _ => rfl
  refine limited_bind htell fun _ _ _ => ?_
  split
  · exact limited_change (fun _ => rfl) (fun _ => rfl) fun _ => rfl
  · exact limited_pure trivial

theorem limited_endElement (t : Tree) : Limited l Whatever (endElement t) (endElement t) := by
  have htell : Limited l Whatever (tell (.ends t)) (tell (.ends t)) :=
    limited_change (f := id) (fun _ => rfl) (fun _ => rfl) fun _ => rfl
  unfold endElement
  split
  · exact limited_bind (limited_change (fun _ => rfl) (fun _ => rfl) fun _ => rfl) fun _ _ _ => htell
  · exact htell

theorem limited_includeTemplate {callee callee' : Tree → List Tree → Action Unit} {t t' : Tree}
    (name : String) (h : ∀ u, Limited l Whatever (callee t [u]) (callee' t' [u])) :
    Limited l Whatever (includeTemplate callee t name) (includeTemplate callee' t' name) := by
  refine limited_bind (limited_observe fun _ => rfl) ?_
  rintro template _ rfl
  have hregister : Limited l Whatever (registerMacros template.tree) (registerMacros template.tree) :=
    limited_change (fun _ => rfl) (fun _ => rfl) fun _ => rfl
  refine limited_bind hregister fun _ _ _ => ?_
  exact limited_enclosed (e := .inclusion) (fun _ => rfl) (fun _ => rfl) (fun _ => id)
    (fun _ _ h => h) (h template.tree)

end

/-- A whole run and a limited one, construct by construct. -/
def limited (l : Limit) : Correspondence Environment Environment where
  node := Eq
  rewrites _ _ := False
  expr := Eq
  site := Eq
  value _ := True
  relates := Limited l
  node_kind := kind_like_of_eq
  node_site := site_eq_of_eq
  expr_site := expr_site_eq_of_eq
  expr_canonical := canonical_eq_of_eq
  value_inherited := Value.inherited_true
  pure := limited_pure
  bind := limited_bind
  raise h := h.eq ▸ limited_throw _
  evaluate h := by simpa only [and_true] using h ▸ limited_observe fun _ => rfl
  write := limited_write
  setGlobal _ _ _ := limited_change (fun _ => rfl) (fun _ => rfl) fun _ => rfl
  macros :=
    { writes := fun env => .ok ⟨env, MacrosAlike.self (fun _ => rfl) env.macros⟩ (.of_sink rfl) rfl
      cutOff := fun env _ fits => .ok (MacrosAlike.self (fun _ => rfl) env.macros) fits }
  inScope {bindings} isolated _ _ _ h := by
    rw [pushScope, modifyContext]
    exact limited_enclosed (fun _ => rfl) (fun _ => rfl) (fun _ => id) (fun _ _ h => h) h
  inLevel hsite h := limited_enter hsite h
  inCapture {body body'} hbody := by
    have hread : Limited l Eq (do return (← current).captures.head?.getD "")
        (do return (← current).captures.head?.getD "") :=
      limited_observe (f := fun env => .ok (env.captures.head?.getD "")) fun _ => rfl
    refine limited_enclosed (fun _ => rfl) (fun _ => rfl) (fun _ _ => List.cons_ne_nil _ _)
      (fun env env' h => ?_)
      (limited_bind hbody fun _ _ _ => hread)
    rw [Enclosure.close, List.length_tail, h, List.length_cons, Nat.add_sub_cancel]
  inInclusion {t t' _ _} name hsite h := by
    rw [TemplateError.locatedAt_congr hsite]
    exact limited_mapError (fun _ => rfl)
      (limited_includeTemplate name fun u => h u u (Alike.self (fun _ => rfl) false [u]))
  listed := by
    rintro t _ α β V act act' rfl hact
    rw [telling_eq, telling_eq]
    exact limited_bind (limited_beginElement t) fun _ _ _ => limited_bind hact fun _ _ hx =>
      limited_bind (limited_endElement t) fun _ _ _ => limited_pure hx
  rewriting h := h.elim

/-- Whatever runs under a limit does what it does without, as far as its output fits. -/
theorem limited_run (l : Limit) (levels : Nat) (ts : List Tree) :
    Limited l Whatever (runWithin levels ts) (runWithin levels ts) := by
  rw [runWithin_eq]
  exact (limited l).relates_recurseWithin levels (Alike.self (fun _ => rfl) false ts)

/-- Nothing is written to the output while a capture is open. -/
theorem sink_of_captures (levels : Nat) (ts : List Tree) {env : Environment} (h : env.captures ≠ []) :
    (stateOf ((runWithin levels ts : Action Unit) env)).sink = env.sink := by
  obtain ⟨bytes, hsink, hnothing⟩ := ((limited_run ⟨0, .cut, .closed, true⟩ levels ts).writes env).wrote
  rw [hsink, hnothing h, ByteArray.append_empty]

/-! ### Whole templates -/

/-- What is seen of a run from outside: whether it failed, and the output. -/
def answerOf : EStateM.Result TemplateError Environment Unit → Except TemplateError Unit × Sink
  | .ok _ env => (.ok (), env.sink)
  | .error e env => (.error e, env.sink)

/-- A whole output and a limited one, each with the answer of the run that wrote it. Output that fits is the
same and can only fail to be completed. Otherwise the limited output has the beginning of the whole one, and
it is not even tried to complete it. -/
inductive Answers (l : Limit) : Except TemplateError Unit × Sink → Except TemplateError Unit × Sink → Prop
  | fits (answer : Except TemplateError Unit) {sink : Sink} (fits : sink.written.size ≤ l.size) :
    Answers l (answer, sink)
      (answer.bind fun _ => if l.completes then .ok () else .error (.io .flushFailed), sink.under l)
  | stopped {answer : Except TemplateError Unit} {sink limited : Sink} (past : l.size < sink.written.size)
    (beginning : ∃ n ≤ l.size, (l.overflow = .cut → n = l.size) ∧ limited.written = sink.written.extract 0 n)
    (flushes : limited.flushes = 0) : Answers l (answer, sink) (.error (.io l.fault), limited)

theorem answerOf_process (t : Tree) (env : Environment) :
    answerOf ((Environment.process t : Action Unit) env) =
    match (do registerMacros t; Environment.visit t : Action Unit) env with
    | .ok _ env' => (if env'.sink.completes then .ok () else .error (.io .flushFailed),
        { env'.sink with flushes := env'.sink.flushes + 1 })
    | .error e env' => (.error (if e.abandons then e else e.attachTrace env'.running), env'.sink) := by
  simp only [Environment.process]
  generalize (do registerMacros t; Environment.visit t : Action Unit) env = r
  cases r with
  | ok _ env' =>
    simp only [flush, Sink.flush, environment, id]
    by_cases hcompletes : env'.sink.completes <;> simp only [hcompletes] <;> rfl
  | error e env' =>
    dsimp only
    split <;> rfl

theorem process_answers (l : Limit) (t : Tree) {env : Environment} (hsink : env.sink = {}) :
    Answers l (answerOf ((Environment.process t : Action Unit) env))
      (answerOf ((Environment.process t : Action Unit) (env.under l))) := by
  have hvisit : Limited l Whatever (Environment.visit t : Action Unit) (Environment.visit t) :=
    ⟨fun env => (limited_run l (maxNesting - env.nesting) [t]).writes env,
      fun env => (limited_run l (maxNesting - env.nesting) [t]).cutOff env⟩
  have hregister : Limited l Whatever (registerMacros t) (registerMacros t) :=
    limited_change (fun _ => rfl) (fun _ => rfl) fun _ => rfl
  have hrun := limited_bind hregister fun _ _ _ => hvisit
  have hwrites := hrun.writes env
  have hcut := hrun.cutOff env (by rw [hsink]) (by rw [hsink]; exact Nat.zero_le _)
  rw [answerOf_process, answerOf_process]
  generalize (do registerMacros t; Environment.visit t : Action Unit) env = r at hwrites hcut
  generalize (do registerMacros t; Environment.visit t : Action Unit) (env.under l) = r' at hcut
  obtain ⟨bytes, hbytes, -⟩ := hwrites.wrote
  have hflushes : (stateOf r).sink.flushes = 0 := by rw [hbytes, hsink]
  cases hcut with
  | @ok _ _ env' _ fits =>
    have hcompletes : env'.sink.completes = true := by
      change env'.sink = _ at hbytes
      rw [hbytes, hsink]
    dsimp only
    rw [if_pos hcompletes]
    exact @Answers.fits l (.ok ()) { env'.sink with flushes := env'.sink.flushes + 1 } fits
  | error fits => exact Answers.fits (.error _) fits
  | @stopped _ env' cut =>
    cases r with
    | ok _ env₁ => exact .stopped cut.past cut.beginning (cut.flushes.trans hflushes)
    | error _ env₁ => exact .stopped cut.past cut.beginning (cut.flushes.trans hflushes)

end Execution

/-- An environment is made in the same way for every output. -/
theorem Environment.make_eq (files : FileSystem) (settings : Settings) (data : Json) (sink : Sink) :
    Environment.make files settings data sink =
      (Environment.make files settings data {}).map fun env => { env with sink } := by
  simp only [Environment.make, bind, Except.bind, pure, Except.pure]
  cases (Value.ofJson data).mapError TemplateError.data with
  | error e => rfl
  | ok value =>
    cases settings.includeRoot with
    | none =>
      dsimp only
      cases (Context.ofValue value).mapError TemplateError.data <;> rfl
    | some root =>
      dsimp only
      cases Loader.open? files (folderNames root) settings.templateExtension settings.stripWhitespace with
      | error e => rfl
      | ok loader =>
        dsimp only
        cases (Context.ofValue value).mapError TemplateError.data <;> rfl

namespace Template

open Execution

theorem renderTo_eq (t : Template) (files : FileSystem) (settings : Settings) (data : Json) (sink : Sink) :
    t.renderTo files settings data sink =
      match Environment.make files settings data sink with
      | .error e => (.error e, sink)
      | .ok env => answerOf ((Environment.process t.tree : Action Unit) env) := by
  unfold renderTo
  cases Environment.make files settings data sink with
  | error e => rfl
  | ok env =>
    dsimp only
    cases (Environment.process t.tree : Action Unit) env <;> rfl

theorem renderTo_answers (l : Limit) (t : Template) (files : FileSystem) (settings : Settings) (data : Json) :
    Answers l (t.renderTo files settings data {}) (t.renderTo files settings data (Sink.under l {})) := by
  rw [renderTo_eq, renderTo_eq, Environment.make_eq, Environment.make_eq _ _ _ (Sink.under l {})]
  cases Environment.make files settings data {} with
  | error e => exact Answers.fits (.error e) (Nat.zero_le _)
  | ok env =>
    have hsink : ({ env with sink := {} } : Environment).sink = {} := rfl
    exact process_answers l t.tree hsink

/-- An output that refuses a text that does not fit might still take a shorter one. It is not given any: what
it has is the beginning of the whole output. -/
theorem renderTo_refused (t : Template) (files : FileSystem) (settings : Settings) (data : Json) (k : Nat)
    (fault : IoFault) (completes : Bool) :
    let whole := t.renderTo files settings data {}
    let limited := t.renderTo files settings data { limit := some k, overflow := .refuse, fault, completes }
    ∃ n ≤ k, limited.2.written = whole.2.written.extract 0 n ∧
      (k < whole.2.written.size → limited.1 = .error (.io fault) ∧ limited.2.flushes = 0) := by
  have hanswers := t.renderTo_answers ⟨k, .refuse, fault, completes⟩ files settings data
  change Answers _ _ (t.renderTo files settings data
    { limit := some k, overflow := .refuse, fault, completes }) at hanswers
  dsimp only
  generalize t.renderTo files settings data {} = whole at hanswers
  generalize t.renderTo files settings data { limit := some k, overflow := .refuse, fault, completes } =
    limited at hanswers
  cases hanswers with
  | @fits answer sink fits =>
    refine ⟨sink.written.size, fits, ?_, fun hpast => absurd fits (Nat.not_le_of_gt hpast)⟩
    rw [ByteArray.extract_zero_size]
    rfl
  | stopped past beginning flushes =>
    obtain ⟨n, hn, -, hwritten⟩ := beginning
    exact ⟨n, hn, hwritten, fun _ => ⟨rfl, flushes⟩⟩

/-- Rendering stops where its output does. Into an output that takes `k` bytes it writes what it writes
into one that takes all, up to the first `k` bytes. If that is not all, it fails with the fault of the output,
as it is, and does not try to complete the output; and otherwise it does the same, up to completing the
output. Whatever runs while a capture is open does not touch the output. -/
theorem renderTo_cut (t : Template) (files : FileSystem) (settings : Settings) (data : Json) (k : Nat)
    (fault : IoFault) (completes : Bool) :
    let whole := t.renderTo files settings data {}
    let limited := t.renderTo files settings data { limit := some k, overflow := .cut, fault, completes }
    limited.2.written = whole.2.written.extract 0 (min k whole.2.written.size) ∧
    (k < whole.2.written.size → limited.1 = .error (.io fault) ∧ limited.2.flushes = 0) ∧
    (whole.2.written.size ≤ k → limited.2.flushes = whole.2.flushes ∧
      limited.1 = whole.1.bind fun _ => if completes then .ok () else .error (.io .flushFailed)) ∧
    ∀ (levels : Nat) (ts : List Tree) (env : Environment), env.captures ≠ [] →
      (stateOf ((runWithin levels ts : Action Unit) env)).sink = env.sink := by
  have hanswers := t.renderTo_answers ⟨k, .cut, fault, completes⟩ files settings data
  change Answers _ _ (t.renderTo files settings data
    { limit := some k, overflow := .cut, fault, completes }) at hanswers
  dsimp only
  generalize t.renderTo files settings data {} = whole at hanswers
  generalize t.renderTo files settings data { limit := some k, overflow := .cut, fault, completes } =
    limited at hanswers
  refine and_assoc.1 (and_assoc.1 ⟨?_, fun levels ts env => sink_of_captures levels ts⟩)
  cases hanswers with
  | @fits answer sink fits =>
    refine ⟨⟨?_, fun hpast => absurd fits (Nat.not_le_of_gt hpast)⟩, fun _ => ⟨rfl, rfl⟩⟩
    rw [Nat.min_eq_right fits, ByteArray.extract_zero_size]
    rfl
  | @stopped answer sink sink' past beginning flushes =>
    refine ⟨⟨?_, fun _ => ⟨rfl, flushes⟩⟩, fun hfits => absurd past (Nat.not_lt_of_ge hfits)⟩
    obtain ⟨n, -, hcut, hwritten⟩ := beginning
    obtain rfl := hcut rfl
    rw [Nat.min_eq_left (Nat.le_of_lt past)]
    exact hwritten

end Template

end Stencil
