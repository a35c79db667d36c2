import Stencil.Proofs.Execution.Rewrites

/-! # Texts that are taken together

Texts that stand side by side write the same as one text, wherever they are cut, and what an expression
evaluates to does not depend on its place. So trees that differ only in where texts are cut and in places
write the same output, and fail with the same errors but for where they say they are. -/

namespace Stencil

open Execution

/-- Sites are not compared. -/
abbrev AnySite : ErrorSite → ErrorSite → Prop := fun _ _ => True

/-! ### Expressions -/

namespace Execution.SameValue

variable {α β : Type} {site : ErrorSite → ErrorSite → Prop} {r r' : Except TemplateError α}

theorem bind (h : SameValue site r r') {f f' : α → Except TemplateError β}
    (hf : ∀ x, SameValue site (f x) (f' x)) :
    SameValue site (r >>= f) (r' >>= f') := by
  cases h with
  | ok x => exact hf x
  | error h => exact .error h

end Execution.SameValue

namespace Expr

variable {e e' : Expr}

theorem sameValue_add (e e' : Expr) (a b : Value) : SameValue AnySite (e.add a b) (e'.add a b) := by
  have hmismatch : ∀ fault, SameValue AnySite (e.mismatch fault : Except TemplateError Value)
      (e'.mismatch fault) :=
    fun fault => .error (.type fault trivial)
  unfold add
  split
  · split
    · exact .ok _
    · exact hmismatch _
  · exact .ok _
  · exact .ok _
  · exact .ok _
  · exact hmismatch _

theorem sameValue_select (h : e.canonical = e'.canonical) (key : String) (v : Value) :
    SameValue AnySite (e.select key v) (e'.select key v) := by
  unfold select
  split
  · split
    · exact .ok _
    · rw [h]
      exact .error (.undefinedVariable _ trivial)
  · exact .error (.type _ trivial)

/-- What an expression evaluates to does not depend on where it stands. -/
theorem sameValue_evaluateWith (c : Context) {run run' : Expr → String → Except TemplateError Value}
    (hrun : ∀ site site' code, SameValue AnySite (run site code) (run' site' code))
    (h : e.unplaced = e'.unplaced) :
    SameValue AnySite (e.evaluateWith c run) (e'.evaluateWith c run') := by
  induction e generalizing e' with
  | string loc s =>
    cases e' with
    | string => cases h; exact .ok _
    | _ => cases h
  | integer loc n =>
    cases e' with
    | integer =>
      cases h
      simp only [evaluateWith]
      split
      · exact .ok _
      · exact .error (.type _ trivial)
    | _ => cases h
  | boolean loc b =>
    cases e' with
    | boolean => cases h; exact .ok _
    | _ => cases h
  | null loc =>
    cases e' with
    | null => exact .ok _
    | _ => cases h
  | var loc name =>
    cases e' with
    | var =>
      cases h
      simp only [evaluateWith]
      split
      · exact .ok _
      · exact .error (.undefinedVariable _ trivial)
    | _ => cases h
  | dot loc target key ih =>
    cases e' with
    | dot loc' target' key' =>
      have hcanonical := canonical_eq_of_unplaced h
      obtain ⟨-, htarget, rfl⟩ := dot.inj h
      simp only [evaluateWith]
      exact (ih htarget).bind fun v => sameValue_select hcanonical key v
    | _ => cases h
  | binary loc op left right ihLeft ihRight =>
    cases e' with
    | binary loc' op' left' right' =>
      obtain ⟨-, rfl, hleft, hright⟩ := binary.inj h
      simp only [evaluateWith]
      refine (ihLeft hleft).bind fun a => ?_
      cases op with
      | or =>
        dsimp only
        split
        · exact .ok _
        · exact (ihRight hright).bind fun _ => .ok _
      | and =>
        dsimp only
        split
        · exact (ihRight hright).bind fun _ => .ok _
        · exact .ok _
      | equal | notEqual => exact (ihRight hright).bind fun _ => .ok _
      | add => exact (ihRight hright).bind fun b => sameValue_add _ _ a b
    | _ => cases h
  | not loc operand ih =>
    cases e' with
    | not loc' operand' =>
      obtain ⟨-, hoperand⟩ := not.inj h
      simp only [evaluateWith]
      exact (ih hoperand).bind fun _ => .ok _
    | _ => cases h
  | group loc inner ih =>
    cases e' with
    | group loc' inner' =>
      obtain ⟨-, hinner⟩ := group.inj h
      have hvalue := ih hinner
      exact hvalue
    | _ => cases h
  | eval loc target ih =>
    cases e' with
    | eval loc' target' =>
      obtain ⟨-, htarget⟩ := eval.inj h
      simp only [evaluateWith]
      refine (ih htarget).bind fun v => ?_
      split
      · exact hrun _ _ _
      · exact .error (.type _ trivial)
    | _ => cases h

theorem sameValue_evaluateWithin (h : e.unplaced = e'.unplaced) (levels : Nat) (c : Context) :
    SameValue AnySite (e.evaluateWithin levels c) (e'.evaluateWithin levels c) := by
  induction levels generalizing e e' with
  | zero => exact sameValue_evaluateWith c (fun _ _ _ => .error (.tooDeep _ trivial)) h
  | succ levels ih =>
    refine sameValue_evaluateWith c (fun site site' code => ?_) h
    split
    · exact .error (.eval _ trivial)
    · exact ih rfl

end Expr

namespace Execution

open Stencil.Action Recorder

/-! ### Texts side by side -/

theorem Sink.write_unlimited {s : Sink} (hlimit : s.limit = none) (text : String) :
    s.write text = (.ok (), { s with written := s.written ++ text.toByteArray }) := by
  unfold Sink.write
  split
  · next h =>
    rw [String.isEmpty_iff.1 h]
    simp
  · simp only [hlimit, String.toUTF8_eq_toByteArray]

/-- Some elements are texts that come to some characters. -/
inductive Says : List Char → List Tree → Prop
  | nil : Says [] []
  | cons {t : Tree} {s : String} {trimmed : Bool} {cs : List Char} {ts : List Tree}
    (kind : t.kind = .text s trimmed)
    (leaf : t.children = []) (rest : Says cs ts) : Says (s.toList ++ cs) (t :: ts)

/-- Elements give way to what they amount to, or texts to others that come to the same. -/
inductive Regroups : List Tree → List Tree → Prop
  | leaves {ts us : List Tree} (h : LeavesOut ts us) : Regroups ts us
  | texts {cs : List Char} {us vs : List Tree} (hus : Says cs us) (hvs : Says cs vs) (ts : List Tree) :
    Regroups (us ++ ts) (vs ++ ts)

theorem Says.append {cs ds : List Char} {ts us : List Tree} (h : Says cs ts) (h' : Says ds us) :
    Says (cs ++ ds) (ts ++ us) := by
  induction h with
  | nil => exact h'
  | cons kind leaf _ ih =>
    rw [List.append_assoc]
    exact .cons kind leaf ih

theorem Says.definitions {cs : List Char} {ts : List Tree} (h : Says cs ts) : definitions ts = [] := by
  induction h with
  | nil => rfl
  | cons kind leaf _ ih =>
    rw [definitions_cons, ownDefinition, kind, leaf, ih]
    rfl

theorem Regroups.definitions_eq {ts us : List Tree} (h : Regroups ts us) :
    definitions ts = definitions us := by
  cases h with
  | leaves h => exact h.definitions_eq
  | texts hus hvs ts => rw [definitions_append, definitions_append, hus.definitions, hvs.definitions]

section
variable {callee : Tree → List Tree → Action Unit}

/-- Writing two texts is writing them as one, if the output has room for all. -/
theorem write_append {env : Environment} (hlimit : env.sink.limit = none) (a b : String) :
    (do write a; write b : Action Unit) env = (write (a ++ b) : Action Unit) env := by
  obtain ⟨sink, context, macros, loader, captures, running, nesting⟩ := env
  simp only [Bind.bind, EStateM.bind, write, environment, put, id_eq]
  cases captures with
  | cons captured outer => simp only [String.append_assoc]
  | nil =>
    have hlimit' : ({ sink with written := sink.written ++ a.toByteArray } : Sink).limit = none := hlimit
    simp only [Sink.write_unlimited hlimit, Sink.write_unlimited hlimit', String.toByteArray_append,
      ByteArray.append_assoc]

theorem limit_write {env : Environment} (hlimit : env.sink.limit = none) (text : String) :
    ∃ env', (write text : Action Unit) env = .ok () env' ∧ env'.sink.limit = none := by
  obtain ⟨sink, context, macros, loader, captures, running, nesting⟩ := env
  simp only [write, environment, put, id_eq]
  cases captures with
  | cons captured outer => exact ⟨_, rfl, hlimit⟩
  | nil =>
    simp only [Sink.write_unlimited hlimit]
    exact ⟨_, rfl, hlimit⟩

theorem Says.recurseAll_eq {cs : List Char} {ts : List Tree} (h : Says cs ts) {env : Environment}
    (hlimit : env.sink.limit = none) :
    recurseAll callee ts env = (write (String.ofList cs) : Action Unit) env := by
  induction h generalizing env with
  | nil =>
    have hempty : (write "" : Action Unit) = pure () := write_empty
    rw [recurseAll_nil, ← hempty]
  | @cons t s trimmed cs ts kind leaf _ ih =>
    obtain ⟨env', hwrite, hlimit'⟩ := limit_write hlimit s
    have hjoin := write_append hlimit s (String.ofList cs)
    simp only [Bind.bind, EStateM.bind, hwrite] at hjoin
    rw [recurseAll_cons, recurse_text kind, String.ofList_append, String.ofList_toList, ← hjoin]
    simp only [Bind.bind, EStateM.bind, hwrite]
    exact ih hlimit'

/-- Regrouping does not show in an environment whose output has room for all. -/
theorem Regroups.recurseAll_eq {ts us : List Tree} (h : Regroups ts us) {env : Environment}
    (hlimit : env.sink.limit = none) :
    recurseAll callee ts env = recurseAll callee us env := by
  cases h with
  | leaves h => rw [h.recurseAll_eq]
  | texts hus hvs ts =>
    rw [recurseAll_append, recurseAll_append]
    simp only [Bind.bind, EStateM.bind, hus.recurseAll_eq hlimit, hvs.recurseAll_eq hlimit]

end

/-! ### Runs side by side -/

/-- Elements of one kind that differ at most in places. -/
def SameForm (t t' : Tree) : Prop := t.kind.Like (fun e e' => e.unplaced = e'.unplaced) t'.kind

theorem SameForm.self (t : Tree) : SameForm t t := by
  refine Kind.Like.self ?_ t.kind
  exact fun _ => rfl

/-- Bodies that are the same but for places and for where texts are cut. -/
abbrev Regrouped (branches : Bool) (ts ts' : List Tree) : Prop := Alike SameForm Regroups branches ts ts'

theorem Regroups.append {ts us : List Tree} (h : Regroups ts us) (vs : List Tree) :
    Regroups (ts ++ vs) (us ++ vs) := by
  cases h with
  | leaves h => exact .leaves (h.append vs)
  | texts hus hvs ts =>
    rw [List.append_assoc, List.append_assoc]
    exact .texts hus hvs _

theorem Regrouped.append {branches : Bool} {ts ts' us us' : List Tree} (h : Regrouped branches ts ts')
    (h' : Regrouped branches us us') : Regrouped branches (ts ++ us) (ts' ++ us') := by
  induction h with
  | nil => exact h'
  | cons head body _ _ ih => exact .cons head body (ih h')
  | rewrite step _ ih => exact .rewrite (step.append us) (ih h')

theorem Regrouped.single {u t : Tree} (h : SameForm u t)
    (hbody : Regrouped t.kind.isIfBlock u.children t.children) :
    Regrouped false [u] [t] := by
  have hsame := h.isIfBlock
  exact .cons h (by rwa [hsame] at hbody) .nil

/-- Texts are cut differently at most and places differ, so that neither sites nor traces are compared. -/
def Likeness.regrouping : Likeness Environment where
  node := SameForm
  rewrites := Regroups
  expr e e' := e.unplaced = e'.unplaced
  site := AnySite
  macros := MacrosAlike SameForm Regroups
  traces := False
  sinks s := s.limit = none
  node_kind h := h
  node_site _ _ := trivial
  node_traced _ h _ := h.elim
  node_self := .self
  expr_site _ := trivial
  expr_canonical h := Expr.canonical_eq_of_unplaced h
  expr_value h levels c := Expr.sameValue_evaluateWithin h levels c
  site_self _ := trivial
  macros_self ms := .self .self ms
  macros_alike h := h
  macros_withMacrosOf t h := h.withMacrosOf (.self .self _)
  sinks_write text h := by rw [Sink.write_unlimited h]; exact h
  rewriting h callee s hlimit := h.recurseAll_eq hlimit

/-- How the run of a whole template ends for those who see nothing but the output. -/
def outcome : EStateM.Result TemplateError Environment Unit → Except TemplateError Sink
  | .ok _ env => .ok env.sink
  | .error e _ => .error e

theorem TemplateError.Like.attachTrace {e e' : TemplateError} (h : e.Like AnySite e')
    (trace trace' : List String) :
    (e.attachTrace trace).Like AnySite (e'.attachTrace trace') := by
  cases h with
  | inclusion fault hs =>
    cases hs with
    | none => exact .inclusion fault .none
    | some _ => exact .inclusion fault (.some trivial)
  | parse e => exact .parse e
  | data e => exact .data e
  | io fault => exact .io fault
  | extension text => exact .extension text
  | undefinedVariable name _ => exact .undefinedVariable name trivial
  | type fault _ => exact .type fault trivial
  | undefinedMacro name _ => exact .undefinedMacro name trivial
  | eval e _ => exact .eval e trivial
  | tooDeep limit _ => exact .tooDeep limit trivial

/-- Trees whose texts are cut differently are processed alike. -/
theorem outcome_of_regrouped {t t' : Tree} (h : Regrouped false [t] [t']) {env : Environment}
    (hlimit : env.sink.limit = none) :
    SameValue AnySite (outcome ((Environment.process t : Action Unit) env))
      (outcome ((Environment.process t' : Action Unit) env)) := by
  have hdefinitions : DefinitionsAlike SameForm Regroups (definitions [t]) (definitions [t']) :=
    Alike.definitions id Regroups.definitions_eq h
  have hrun := Likeness.regrouping.agree_registered h hlimit
    (MacrosAlike.withMacrosOf hdefinitions (.self .self env.macros))
  simp only [Environment.process]
  generalize (do registerMacros t; Environment.visit t : Action Unit) env = r at hrun
  generalize (do registerMacros t'; Environment.visit t' : Action Unit) env = r' at hrun
  cases hrun with
  | @ok _ _ s s' _ state =>
    have hsink : s'.sink = s.sink := state.sink
    simp only [flush, environment, id_eq, hsink]
    rcases s.sink.flush with ⟨result, sink⟩
    cases result with
    | ok _ => exact .ok _
    | error fault => exact .error (.io fault)
  | @error e e' s s' fault state =>
    have habandons := fault.abandons
    dsimp only
    rw [habandons]
    cases e.abandons with
    | true => exact .error fault
    | false => exact .error (TemplateError.Like.attachTrace fault _ _)

end Execution

end Stencil
