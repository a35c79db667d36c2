import Mathlib.Data.List.Forall2

/-! # Outcomes

What a computation that can fail has come to, opened: one step before the rest, or the elements of a list one
after the other. What is computed with the numbers and places of the machine can fail, too, where it breaks a
rule of the machine. -/

namespace Stencil

section
variable {ε α β γ : Type}

theorem exists_of_bind_eq_ok {r : Except ε α} {f : α → Except ε β} {y : β} (h : r >>= f = .ok y) :
    ∃ x, r = .ok x ∧ f x = .ok y := by
  cases r with
  | error e => cases h
  | ok x => exact ⟨x, rfl, h⟩

/-- What only turns results into results fails where its first step does. -/
theorem error_of_bind_ok {r : Except ε α} {f : α → γ} {e : ε} (h : (r >>= fun x => .ok (f x)) = .error e) :
    r = .error e := by
  cases r with
  | error e' =>
    cases h
    rfl
  | ok x => cases h

theorem exists_of_isSome {r : Except ε α} (h : r.toOption.isSome = true) : ∃ x, r = .ok x := by
  cases r with
  | error e => cases h
  | ok x => exact ⟨x, rfl⟩

theorem forall₂_iff_of_mem {R S : α → β → Prop} {xs : List α} {ys : List β}
    (h : ∀ x ∈ xs, ∀ y, R x y ↔ S x y) :
    List.Forall₂ R xs ys ↔ List.Forall₂ S xs ys := by
  have hmp : ∀ {R S : α → β → Prop}, (∀ x ∈ xs, ∀ y, R x y → S x y) → List.Forall₂ R xs ys →
      List.Forall₂ S xs ys := by
    intro R S h hR
    exact ((List.forall₂_and_left xs ys).2 ⟨h, hR⟩).imp fun x y ⟨hx, hxy⟩ => hx y hxy
  exact ⟨hmp fun x hx y => (h x hx y).1, hmp fun x hx y => (h x hx y).2⟩

theorem exists_of_forall₂_left {R : α → β → Prop} {xs : List α} {ys : List β} (h : List.Forall₂ R xs ys)
    {x : α} (hx : x ∈ xs) : ∃ y ∈ ys, R x y := by
  induction h with
  | nil => cases hx
  | @cons first other _ _ hfirst _ ih =>
    rcases List.mem_cons.1 hx with rfl | hx
    · exact ⟨other, List.mem_cons_self, hfirst⟩
    · obtain ⟨y, hy, hxy⟩ := ih hx
      exact ⟨y, List.mem_cons_of_mem _ hy, hxy⟩

theorem exists_of_forall₂_right {R : α → β → Prop} {xs : List α} {ys : List β} (h : List.Forall₂ R xs ys)
    {y : β} (hy : y ∈ ys) : ∃ x ∈ xs, R x y :=
  exists_of_forall₂_left h.flip hy

/-- A list comes out whole when each of its elements does. -/
theorem mapM_eq_ok_iff {f : α → Except ε β} {xs : List α} {ys : List β} :
    xs.mapM f = .ok ys ↔ List.Forall₂ (fun x y => f x = .ok y) xs ys := by
  induction xs generalizing ys with
  | nil =>
    rw [List.mapM_nil, List.forall₂_nil_left_iff]
    exact ⟨fun h => (Except.ok.inj h).symm, fun h => congrArg Except.ok h.symm⟩
  | cons x xs ih =>
    rw [List.mapM_cons]
    constructor
    · intro h
      obtain ⟨y, hy, h⟩ := exists_of_bind_eq_ok h
      obtain ⟨rest, hrest, h⟩ := exists_of_bind_eq_ok h
      cases h
      exact .cons hy (ih.1 hrest)
    · rintro (_ | ⟨hy, hrest⟩)
      rw [hy, ih.2 hrest]
      rfl

/-- A list that fails does so at its first element that does. -/
theorem exists_of_mapM_eq_error {f : α → Except ε β} {xs : List α} {e : ε} (h : xs.mapM f = .error e) :
    ∃ before x after, xs = before ++ x :: after ∧ (∀ y ∈ before, ∃ z, f y = .ok z) ∧ f x = .error e := by
  induction xs with
  | nil => cases h
  | cons x xs ih =>
    rw [List.mapM_cons] at h
    cases hx : f x with
    | error e' =>
      rw [hx] at h
      cases h
      exact ⟨[], x, xs, rfl, nofun, hx⟩
    | ok z =>
      rw [hx] at h
      obtain ⟨before, y, after, rfl, hbefore, hy⟩ := ih (error_of_bind_ok h)
      exact ⟨x :: before, y, after, rfl, List.forall_mem_cons.2 ⟨⟨z, hx⟩, hbefore⟩, hy⟩

end

/-! ### Rules of the machine -/

/-- What a computation that takes everything for granted can run into: something that is not where
it is looked for, a number outside its type, a cut outside a text or inside a character, or a loop
that goes on for too long. -/
inductive Breach where
  | place
  | overflow
  | cut
  | endless
deriving DecidableEq, Repr

/-- The difference of two sizes, which is not negative. -/
def difference (a b : Nat) : Except Breach Nat := if b ≤ a then .ok (a - b) else .error .overflow

end Stencil
