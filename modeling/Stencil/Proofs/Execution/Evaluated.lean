import Stencil.Proofs.Outcomes
import Stencil.Expr.Evaluation

/-! # Evaluated expressions

Two evaluations side by side. Whatever the first comes to, the second comes to as well, and what every part
of an expression comes to has a property that sums, keys and names keep. -/

namespace Stencil

namespace Value

/-- A property of the values that a run makes, handed on from a hash to its entries, and from a sequence to
its items and their indices. -/
structure Inherited (V : Value → Prop) : Prop where
  null : V .null
  boolean (b : Bool) : V (.boolean b)
  string (s : String) : V (.string s)
  integer {n : Int} : InRange n → V (.integer n)
  entry {entries : List (String × Value)} {key : String} {v : Value} : V (.hash entries) →
    (key, v) ∈ entries → V v
  item {items : List Value} {v : Value} : V (.sequence items) → v ∈ items → V v
  index {items : List Value} {i : Nat} : V (.sequence items) → i < items.length → V (.integer i)

theorem inherited_true : Inherited fun _ => True :=
  ⟨trivial, fun _ => trivial, fun _ => trivial, fun _ => trivial, fun _ _ => trivial,
    fun _ _ => trivial, fun _ _ => trivial⟩

end Value

namespace Bindings

variable {α : Type}

/-- All values that are bound have a property. -/
def All (P : α → Prop) (b : Bindings α) : Prop := ∀ e ∈ b.entries, P e.2

variable {P : α → Prop} {b : Bindings α}

theorem all_empty : ({} : Bindings α).All P := nofun

theorem All.insert (h : b.All P) (name : String) {value : α} (hvalue : P value) :
    (b.insert name value).All P := by
  have hinsert : ∀ entries : List (String × α), (∀ e ∈ entries, P e.2) →
      ∀ e ∈ insertEntry name value entries, P e.2 := by
    intro entries hentries
    induction entries with
    | nil => exact fun e he => List.mem_singleton.1 he ▸ hvalue
    | cons first rest ih =>
      obtain ⟨hfirst, hrest⟩ := List.forall_mem_cons.1 hentries
      unfold insertEntry
      split
      · exact List.forall_mem_cons.2 ⟨hvalue, hrest⟩
      · exact List.forall_mem_cons.2 ⟨hfirst, ih hrest⟩
  exact hinsert b.entries h

theorem mem_of_lookup {key : String} {v : α} {entries : List (String × α)} (h : entries.lookup key = some v) :
    (key, v) ∈ entries := by
  obtain ⟨before, after, rfl, -⟩ := List.lookup_eq_some_iff.1 h
  exact List.mem_append_cons_self

theorem All.get? (h : b.All P) {name : String} {value : α} (hvalue : b.get? name = some value) : P value :=
  h _ (mem_of_lookup hvalue)

end Bindings

namespace Expr

open Value

/-- The value of the first evaluation, if there is one, is that of the second and has a property. -/
def Yields (V : Value → Prop) (r r' : Except TemplateError Value) : Prop := ∀ v, r = .ok v → r' = .ok v ∧ V v

section
variable {V : Value → Prop}

theorem Yields.bind {r r' : Except TemplateError Value} {f f' : Value → Except TemplateError Value}
    (h : Yields V r r') (hf : ∀ v, V v → Yields V (f v) (f' v)) : Yields V (r >>= f) (r' >>= f') := by
  intro w hw
  obtain ⟨v, hv, hfv⟩ := exists_of_bind_eq_ok hw
  obtain ⟨hv', hV⟩ := h v hv
  rw [hv']
  exact hf v hV w hfv

theorem yields_ok {v : Value} (h : V v) : Yields V (.ok v) (.ok v) := by
  rintro _ ⟨⟩
  exact ⟨rfl, h⟩

theorem yields_error (e : TemplateError) (r : Except TemplateError Value) : Yields V (.error e) r := nofun

theorem of_ofInt (hV : Inherited V) {n : Int} {v : Value} (h : Value.ofInt n = .ok v) : V v := by
  unfold Value.ofInt at h
  split at h
  · next hn =>
    cases h
    exact hV.integer hn
  · cases h

theorem yields_select (hV : Inherited V) (e : Expr) (key : String) {v : Value} (hv : V v) :
    Yields V (e.select key v) (e.select key v) := by
  unfold select
  split
  · split
    · next hentry => exact yields_ok (hV.entry hv (Bindings.mem_of_lookup hentry))
    · exact yields_error _ _
  · exact yields_error _ _

theorem yields_add (hV : Inherited V) (e : Expr) (a b : Value) : Yields V (e.add a b) (e.add a b) := by
  unfold add
  split
  · split
    · next hsum => exact yields_ok (hV.integer hsum)
    · exact yields_error _ _
  · exact yields_ok (hV.string _)
  · exact yields_ok (hV.string _)
  · exact yields_ok (hV.string _)
  · exact yields_error _ _

theorem yields_evaluateWith {c : Context} (hV : Inherited V) (hc : ∀ name v, c.lookup name = some v → V v)
    {run run' : Expr → String → Except TemplateError Value}
    (hrun : ∀ site code, Yields V (run site code) (run' site code)) (e : Expr) :
    Yields V (evaluateWith c run e) (evaluateWith c run' e) := by
  induction e with
  | string loc s => exact yields_ok (hV.string s)
  | boolean loc b => exact yields_ok (hV.boolean b)
  | null loc => exact yields_ok hV.null
  | integer loc n =>
    unfold evaluateWith
    split
    · next v hv => exact yields_ok (of_ofInt hV hv)
    · exact yields_error _ _
  | var loc name =>
    unfold evaluateWith
    split
    · next v hv => exact yields_ok (hc name v hv)
    · exact yields_error _ _
  | dot loc target key ih => exact ih.bind fun v hv => yields_select hV _ key hv
  | binary loc op left right ihLeft ihRight =>
    have hright : ∀ f : Value → Bool, Yields V (do return .boolean (f (← evaluateWith c run right)))
        (do return .boolean (f (← evaluateWith c run' right))) :=
      fun f => ihRight.bind fun v _ => yields_ok (hV.boolean (f v))
    refine ihLeft.bind fun a _ => ?_
    cases op with
    | or =>
      dsimp only
      split
      · exact yields_ok (hV.boolean true)
      · exact hright Value.isTruthy
    | and =>
      dsimp only
      split
      · exact hright Value.isTruthy
      · exact yields_ok (hV.boolean false)
    | equal => exact hright a.same
    | notEqual => exact hright fun b => !a.same b
    | add => exact ihRight.bind fun b _ => yields_add hV _ a b
  | not loc operand ih => exact ih.bind fun v _ => yields_ok (hV.boolean !v.isTruthy)
  | group loc inner ih => exact ih
  | eval loc target ih =>
    refine ih.bind fun v _ => ?_
    split
    · exact hrun _ _
    · exact yields_error _ _

/-- With more levels of nesting the value is still there. -/
theorem yields_evaluateWithin {c : Context} (hV : Inherited V) (hc : ∀ name v, c.lookup name = some v → V v)
    {levels levels' : Nat} (h : levels ≤ levels') (e : Expr) :
    Yields V (evaluateWithin levels c e) (evaluateWithin levels' c e) := by
  induction levels generalizing levels' e with
  | zero =>
    cases levels' with
    | zero => exact yields_evaluateWith hV hc (fun _ _ => yields_error _ _) e
    | succ levels' => exact yields_evaluateWith hV hc (fun _ _ => yields_error _ _) e
  | succ levels ih =>
    obtain ⟨levels', rfl⟩ := Nat.exists_eq_add_of_lt h
    refine yields_evaluateWith hV hc (fun site code => ?_) e
    split
    · exact yields_error _ _
    · exact ih (by omega) _

end

end Expr

end Stencil
