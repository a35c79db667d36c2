import Stencil.Execution

/-! # Running by recursion

The walk keeps a work list. Here an element is run by plain recursion: its own action first, then the
children it hands back, each with everything below it, in their order and up to the first error. Both
ways come to the same in every state, watched or not, so that what is proved of the recursion holds of
the walk. -/

namespace Stencil.Execution

open Stencil.Action Recorder

variable {σ : Type} [Recorder σ]

mutual

/-- Runs an element and then the children it hands back. -/
def recurse (callee : Tree → List Tree → Run σ Unit) (t : Tree) : Run σ Unit := do
  match ← execute callee (recurseAll callee t.children) t with
  | some body => recurseAll callee body.1
  | none => return ()
termination_by 2 * t.size
decreasing_by
  · have := t.sizes_children_lt; omega
  · have := body.2; omega

/-- Runs some elements, one after the other. -/
def recurseAll (callee : Tree → List Tree → Run σ Unit) : List Tree → Run σ Unit
  | [] => return ()
  | t :: ts => do
    recurse callee t
    recurseAll callee ts
termination_by ts => 2 * Tree.sizes ts + 1
decreasing_by
  · have : t.size + Tree.sizes ts = Tree.sizes (t :: ts) := rfl; omega
  · have := t.size_pos
    have : t.size + Tree.sizes ts = Tree.sizes (t :: ts) := rfl
    omega

end

/-- Runs some elements by recursion when `levels` more levels of nesting may be opened. -/
def recurseWithin : (levels : Nat) → List Tree → Run σ Unit
  | 0, ts => recurseAll (fun site _ => throw (.tooDeep maxNesting (.ofTree site))) ts
  | levels + 1, ts => recurseAll (fun _ => recurseWithin levels) ts

/-- Nobody is told when nobody watches. -/
theorem telling_eq {α : Type} (t : Tree) (act : Action α) : telling t act = act := by
  funext env
  unfold telling
  cases act env <;> rfl

section
variable {callee : Tree → List Tree → Run σ Unit}

theorem recurse_eq (t : Tree) :
    recurse callee t = (do
      match ← execute callee (recurseAll callee t.children) t with
      | some body => recurseAll callee body.1
      | none => return ()) := by
  rw [recurse]

/-- Unwatched, an element that hands nothing back does what it does between its beginning and its end. -/
theorem recurse_of_perform {callee : Tree → List Tree → Action Unit} {t : Tree} {act : Action Unit}
    (h : perform callee (recurseAll callee t.children) t = (do act; return none)) :
    recurse callee t = (do beginElement t; act; endElement t) := by
  rw [recurse_eq, execute, telling_eq, h]
  simp only [bind_assoc, pure_bind]
  refine congrArg _ (funext fun _ => congrArg _ (funext fun _ => ?_))
  exact bind_pure (endElement t)

@[simp] theorem recurseAll_nil : recurseAll callee [] = pure () := by rw [recurseAll]

@[simp] theorem recurseAll_cons (t : Tree) (ts : List Tree) :
    recurseAll callee (t :: ts) = (do recurse callee t; recurseAll callee ts) := by rw [recurseAll]

theorem recurseAll_singleton (t : Tree) : recurseAll callee [t] = recurse callee t := by
  rw [recurseAll_cons, recurseAll_nil]
  exact bind_pure (recurse callee t)

theorem recurseAll_append (ts us : List Tree) :
    recurseAll callee (ts ++ us) = (do recurseAll callee ts; recurseAll callee us) := by
  induction ts with
  | nil => rw [List.nil_append, recurseAll_nil]; exact (pure_bind _ _).symm
  | cons t ts ih =>
    rw [List.cons_append, recurseAll_cons, recurseAll_cons, ih]
    exact (bind_assoc _ _ _).symm

/-- The first frame runs to its end before the others. The induction is on how much there is left to
run, which the children handed back make smaller. -/
theorem walk_cons (f : List Tree) (rest : List (List Tree)) :
    walk callee (f :: rest) = (do recurseAll callee f; walk callee rest) := by
  suffices h : ∀ n f rest, frameSize (f :: rest) ≤ n →
      walk callee (f :: rest) = (do recurseAll callee f; walk callee rest) from h _ f rest (Nat.le_refl _)
  intro n
  induction n with
  | zero => intro f rest hn; simp [frameSize] at hn
  | succ n ih =>
    intro f rest hn
    cases f with
    | nil => rw [walk, recurseAll_nil]; exact (pure_bind _ _).symm
    | cons t ts =>
      have hsize : t.size + Tree.sizes ts = Tree.sizes (t :: ts) := rfl
      have hpos := t.size_pos
      have hlt := t.sizes_children_lt
      simp only [frameSize] at hn
      have hbody : walk callee [t.children] = recurseAll callee t.children := by
        rw [ih _ _ (by simp only [frameSize]; omega), walk]
        exact bind_pure (recurseAll callee t.children)
      have hrest : walk callee (ts :: rest) = (do recurseAll callee ts; walk callee rest) :=
        ih _ _ (by simp only [frameSize]; omega)
      have hhanded : ∀ body : { body : List Tree // Tree.sizes body < t.size },
          walk callee (body.1 :: ts :: rest) =
          (do recurseAll callee body.1; recurseAll callee ts; walk callee rest) := by
        intro body
        have := body.2
        rw [ih _ _ (by simp only [frameSize]; omega), hrest]
      rw [walk, recurseAll_cons, recurse_eq, hbody]
      funext s
      simp only [bind, EStateM.bind]
      cases execute callee (recurseAll callee t.children) t s with
      | error e s => rfl
      | ok handed s =>
        cases handed with
        | none => exact congrFun hrest s
        | some body =>
          refine (congrFun (hhanded body) s).trans ?_
          simp only [bind, EStateM.bind]
          cases recurseAll callee body.1 s <;> rfl

theorem walk_singleton (ts : List Tree) : walk callee [ts] = recurseAll callee ts := by
  rw [walk_cons, walk]
  exact bind_pure (recurseAll callee ts)

end

theorem runWithin_eq (levels : Nat) (ts : List Tree) :
    (runWithin levels ts : Run σ Unit) = recurseWithin levels ts := by
  induction levels generalizing ts with
  | zero => rw [runWithin, recurseWithin, walk_singleton]
  | succ levels ih =>
    have hcallee : (fun _ : Tree => (runWithin levels : List Tree → Run σ Unit)) = fun _ =>
        recurseWithin levels := by
      funext _ us
      exact ih us
    rw [runWithin, recurseWithin, walk_singleton, hcallee]

end Stencil.Execution

namespace Stencil.Environment

open Execution Recorder

variable {σ : Type} [Recorder σ]

/-- Runs an element by recursion, and everything below it that it hands back. -/
def visitRecursively (t : Tree) : Run σ Unit := fun s =>
  recurseWithin (maxNesting - (environment s).nesting) [t] s

theorem run_eq (ts : List Tree) :
    (run ts : Run σ Unit) = fun s => recurseWithin (maxNesting - (environment s).nesting) ts s := by
  funext s
  exact congrFun (runWithin_eq _ ts) s

end Stencil.Environment
