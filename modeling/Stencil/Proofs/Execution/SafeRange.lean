import Stencil.Proofs.Data.Accepted
import Stencil.Proofs.Execution.Reached
import Stencil.Render

/-! # Integers of the safe range

The integers of data are of the safe range, and a run makes no others: literals and sums are checked, and the
indices of a sequence are below its length. So a sum of two integers always fits 64 bits with a sign. -/

namespace Stencil

namespace Value

/-- A value inside a value, or the value itself. -/
inductive Part (part : Value) : Value → Prop
  | self : Part part part
  | item {items : List Value} {v : Value} : v ∈ items → Part part v → Part part (.sequence items)
  | entry {entries : List (String × Value)} {key : String} {v : Value} : (key, v) ∈ entries → Part part v →
    Part part (.hash entries)

/-- All integers inside are of the safe range. -/
def Safe (v : Value) : Prop := ∀ n, Part (.integer n) v → InRange n

/-- The items of all sequences inside can be counted with integers of the safe range. -/
def Countable (v : Value) : Prop := ∀ items, Part (.sequence items) v → items.length < 2 ^ 53

theorem inherited_safe : Inherited fun v => v.Safe ∧ v.Countable where
  null := ⟨nofun, nofun⟩
  boolean _ := ⟨nofun, nofun⟩
  string _ := ⟨nofun, nofun⟩
  integer h := ⟨by rintro _ ⟨⟩; exact h, nofun⟩
  entry h he := ⟨fun n hn => h.1 n (.entry he hn), fun items hitems => h.2 items (.entry he hitems)⟩
  item h hv := ⟨fun n hn => h.1 n (.item hv hn), fun items hitems => h.2 items (.item hv hitems)⟩
  index h hi := by
    have hlength := h.2 _ .self
    refine ⟨?_, nofun⟩
    rintro _ ⟨⟩
    unfold InRange integerMax
    omega

end Value

namespace Json

open Value

/-- All arrays, wherever they are, have less than `2 ^ 53` items. -/
def Countable (j : Json) : Prop := ∀ path items, j.At path (.array items) → items.length < 2 ^ 53

/-- What is inside the value of data is the value of something in the data. -/
theorem Stands.exists_of_part {part v : Value} (hpart : Part part v) {j : Json} (h : j.Stands v) :
    ∃ path inner, j.At path inner ∧ inner.Stands part := by
  induction hpart generalizing j with
  | self => exact ⟨[], j, .here j, h⟩
  | item hv _ ih =>
    cases h with
    | array h =>
      obtain ⟨item, hitem, hstands⟩ := exists_of_forall₂_right h hv
      obtain ⟨i, hi⟩ := List.mem_iff_getElem?.1 hitem
      obtain ⟨path, inner, hat, hinner⟩ := ih hstands
      exact ⟨.item i :: path, inner, .item hi hat, hinner⟩
  | entry hv _ ih =>
    cases h with
    | object _ h =>
      obtain ⟨_, hlisted, hstands⟩ := exists_of_forall₂_right h (List.mem_map_of_mem hv)
      obtain ⟨member, hmember, rfl⟩ := List.mem_map.1 hlisted
      obtain ⟨path, inner, hat, hinner⟩ := ih hstands
      exact ⟨.member member.1 :: path, inner, .member hmember hat, hinner⟩

theorem Stands.safe {j : Json} {v : Value} (h : j.Stands v) : v.Safe := by
  intro n hn
  obtain ⟨_, _, -, hinner⟩ := h.exists_of_part hn
  cases hinner with
  | number _ hrange => exact hrange

theorem Stands.countable {j : Json} {v : Value} (h : j.Stands v) (hj : j.Countable) : v.Countable := by
  intro items hitems
  obtain ⟨path, _, hat, hinner⟩ := h.exists_of_part hitems
  cases hinner with
  | array hvalues => exact hvalues.length_eq ▸ hj path _ hat

end Json

namespace Expr

open Value

theorem evaluateWithin_integers {levels : Nat} {c : Context} {left right : Expr} {a b : Int} (loc : Location)
    (hleft : left.evaluateWithin levels c = .ok (.integer a))
    (hright : right.evaluateWithin levels c = .ok (.integer b)) :
    (binary loc .add left right).evaluateWithin levels c =
      if InRange (a + b) then .ok (.integer (a + b)) else (binary loc .add left right).mismatch
        (.sumOutOfRange a b) := by
  have hsum : (binary loc .add left right).evaluateWithin levels c = (do
      let a ← left.evaluateWithin levels c
      (binary loc .add left right).add a (← right.evaluateWithin levels c)) := by
    cases levels <;> rfl
  rw [hsum, hleft, hright]
  rfl

/-- In a context with integers of the safe range only, expressions come to such integers, and a sum of two of
them fits 64 bits with a sign: it is the value of the addition, or the addition fails, as it is in the safe
range or not. -/
structure Contained (c : Context) : Prop where
  values : ∀ {levels e v}, evaluateWithin levels c e = .ok v → v.Safe
  sums : ∀ {levels left right a b} (loc : Location), evaluateWithin levels c left = .ok (.integer a) →
    evaluateWithin levels c right = .ok (.integer b) → (-2 ^ 63 ≤ a + b ∧ a + b < 2 ^ 63) ∧
      (evaluateWithin levels c (binary loc .add left right) = .ok (.integer (a + b)) ↔ InRange (a + b)) ∧
      ((∃ err, evaluateWithin levels c (binary loc .add left right) = .error err) ↔ ¬ InRange (a + b))

theorem contained_of_all {c : Context} (hc : c.All fun v => v.Safe ∧ v.Countable) : Contained c := by
  have hvalues : ∀ levels e v, evaluateWithin levels c e = .ok v → v.Safe := fun levels e v hv =>
    (yields_evaluateWithin inherited_safe (fun _ _ => hc.lookup) (Nat.le_refl levels) e v hv).2.1
  refine ⟨hvalues _ _ _, fun {levels left right a b} loc hleft hright => ?_⟩
  have ha : InRange a := hvalues levels left _ hleft a .self
  have hb : InRange b := hvalues levels right _ hright b .self
  rw [evaluateWithin_integers loc hleft hright]
  unfold InRange integerMax at ha hb
  refine ⟨by omega, ?_⟩
  split
  · next h =>
    have hsucceeds : ¬ ∃ err, (Except.ok (Value.integer (a + b)) : Except TemplateError Value) = .error err :=
      fun ⟨_, he⟩ => by cases he
    exact ⟨iff_of_true rfl h, iff_of_false hsucceeds (not_not_intro h)⟩
  · next h =>
    have hfails : (binary loc .add left right).mismatch (.sumOutOfRange a b) ≠ .ok
      (Value.integer (a + b)) := nofun
    exact ⟨iff_of_false hfails h, iff_of_true ⟨_, rfl⟩ h⟩

end Expr

open Execution

/-- Integers stay in the safe range. Data has a value just when all its numbers are whole numbers of that
range, the value has the structure of the data, and the error of other data is about the first number that
is not. In all environments that a template goes through over data with a value, the data, the globals and
the local scopes have integers of the safe range only, and so have the values of all expressions. -/
theorem Template.integers_safe (t : Template) (files : FileSystem) (settings : Settings)
    (data : Json) (sink : Sink) :
    (∀ v, Value.ofJson data = .ok v ↔ data.Stands v) ∧
    ((∃ v, Value.ofJson data = .ok v) ↔ ∀ path n, data.At path (.number n) → n.Accepted) ∧
    (data.Ordered → ∀ e, Value.ofJson data = .error e → ∃ path n, data.FirstRefused path n ∧ n.Reports e) ∧
    (data.Countable → ∀ env, Environment.make files settings data sink = .ok env →
      stateOf ((Environment.process t.tree : Action Unit) env) ∈ env.reached t.tree ∧
      ∀ after ∈ env.reached t.tree, after.context.All Value.Safe ∧ Expr.Contained after.context) := by
  refine ⟨data.ofJson_eq_ok_iff, data.exists_ofJson_iff,
    fun hordered _ => Json.exists_firstRefused hordered, ?_⟩
  intro hcountable env hmake
  refine ⟨Environment.stateOf_process_mem_reached t.tree env, fun after hafter => ?_⟩
  obtain ⟨entries, loader, hvalue, rfl⟩ := Environment.exists_of_make hmake
  have hstands : data.Stands (.hash entries) := (data.ofJson_eq_ok_iff _).1 hvalue
  have hentries : ∀ e ∈ entries, e.2.Safe ∧ e.2.Countable := fun e he =>
    Value.inherited_safe.entry ⟨hstands.safe, hstands.countable hcountable⟩ he
  have hroot : Context.All (fun v => v.Safe ∧ v.Countable) { root := ⟨entries⟩ } :=
    ⟨hentries, Bindings.all_empty, nofun⟩
  have hall := Environment.all_of_mem_reached Value.inherited_safe hroot hafter
  exact ⟨hall.imp fun _ h => h.1, Expr.contained_of_all hall⟩

/-- A list whose indices are added to a large integer, and data that has a number with a fraction before
one that is too large. -/
theorem Template.integers_safe_list :
    let data : Json := .object [("xs", .array [.null, .number (.integer 2)])]
    let text := "\x7b[#list xs as x]\x7d\x7b[ x_index + 9007199254740991 ]\x7d\x7b[/list]\x7d"
    let other := "\x7b\"b\": 9007199254740992, \"a\": [3, 1.5]\x7d"
    (∃ t env, Template.parse none text true = .ok t ∧ data.Countable ∧
      Environment.make {} {} data {} = .ok env ∧
      ∀ after ∈ env.reached t.tree, after.context.All Value.Safe ∧ Expr.Contained after.context) ∧
    ∃ refused e, Json.parse other = .ok refused ∧ refused.Ordered ∧ Value.ofJson refused = .error e ∧
      ∃ path n, refused.FirstRefused path n ∧ n.Reports e := by
  intro data text other
  constructor
  · obtain ⟨t, ht⟩ := exists_of_isSome
      (show (Template.parse none text true).toOption.isSome = true by decide +kernel)
    obtain ⟨env, henv⟩ := exists_of_isSome
      (show (Environment.make {} {} data {}).toOption.isSome = true by decide +kernel)
    have hcountable : (Json.object [("xs", .array [.null, .number (.integer 2)])]).Countable := by
      rintro _ items (_ | _ | ⟨hxs, hat⟩)
      cases List.mem_singleton.1 hxs
      cases hat with
      | here => decide
      | item hi hat =>
        rcases List.mem_cons.1 (List.mem_of_getElem? hi) with rfl | hlast
        · cases hat
        · cases List.mem_singleton.1 hlast
          cases hat
    exact ⟨t, env, ht, hcountable, henv,
      ((Template.integers_safe t {} {} data {}).2.2.2 hcountable env henv).2⟩
  · obtain ⟨refused, hrefused⟩ :=
      exists_of_isSome (show (Json.parse other).toOption.isSome = true by decide +kernel)
    have hfails : (Json.parse other).toOption.any (fun j => !(Value.ofJson j).toOption.isSome) =
      true := by decide +kernel
    rw [hrefused] at hfails
    obtain ⟨e, he⟩ : ∃ e, Value.ofJson refused = .error e := by
      cases hvalue : Value.ofJson refused with
      | ok v => simp [hvalue, Except.toOption] at hfails
      | error e => exact ⟨e, rfl⟩
    have hordered := Json.ordered_parse hrefused
    exact ⟨refused, e, hrefused, hordered, he,
      (Template.integers_safe default {} {} refused {}).2.2.1 hordered e he⟩

end Stencil
