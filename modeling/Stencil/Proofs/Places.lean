import Stencil.Tree
import Stencil.Proofs.Kinds

/-! # Trees without their places

Two trees are the same but for where their parts stand if they are equal once all places are taken away. -/

namespace Stencil

def Kind.unplaced : Kind → Kind
  | interpolation e => interpolation e.unplaced
  | conditional branch c => conditional branch (c.map Expr.unplaced)
  | list source item => list source.unplaced item
  | assignment target value => assignment target value.unplaced
  | call name arguments => call name (arguments.map Expr.unplaced)
  | inclusion path => inclusion path.unplaced
  | kind => kind

theorem Kind.like_of_unplaced {k k' : Kind} (h : k.unplaced = k'.unplaced) :
    k.Like (fun e e' => e.unplaced = e'.unplaced) k' := by
  cases k with
  | interpolation e =>
    cases k' with
    | interpolation e' => exact .interpolation (Kind.interpolation.inj h)
    | _ => cases h
  | conditional branch c =>
    cases k' with
    | conditional branch' c' =>
      obtain ⟨rfl, hc⟩ := Kind.conditional.inj h
      cases c with
      | none =>
        cases c' with
        | none => exact .conditional branch .none
        | some e' => cases hc
      | some e =>
        cases c' with
        | none => cases hc
        | some e' => exact .conditional branch (.some (Option.some.inj hc))
    | _ => cases h
  | list source item =>
    cases k' with
    | list source' item' =>
      obtain ⟨hsource, rfl⟩ := Kind.list.inj h
      exact .list item hsource
    | _ => cases h
  | assignment target value =>
    cases k' with
    | assignment target' value' =>
      obtain ⟨rfl, hvalue⟩ := Kind.assignment.inj h
      exact .assignment target hvalue
    | _ => cases h
  | call name arguments =>
    cases k' with
    | call name' arguments' =>
      obtain ⟨rfl, harguments⟩ := Kind.call.inj h
      refine .call name ?_
      rwa [← List.forall₂_eq_eq_eq, List.forall₂_map_left_iff, List.forall₂_map_right_iff] at harguments
    | _ => cases h
  | inclusion path =>
    cases k' with
    | inclusion path' => exact .inclusion (Kind.inclusion.inj h)
    | _ => cases h
  | sequence => cases k' <;> cases h; exact .sequence
  | text s trimmed => cases k' <;> cases h; exact .text s trimmed trimmed
  | ifBlock => cases k' <;> cases h; exact .ifBlock
  | capture target => cases k' <;> cases h; exact .capture target
  | definition name parameters => cases k' <;> cases h; exact .definition name parameters
  | comment s => cases k' <;> cases h; exact .comment s

theorem Kind.eq_ifBlock_of_unplaced {k : Kind} (h : k.unplaced = .ifBlock) : k = .ifBlock := by
  cases k <;> cases h
  rfl

namespace Tree

mutual

/-- A tree of which no part has a place. -/
def unplaced : Tree → Tree
  | ⟨kind, _, inBlock, children⟩ => ⟨kind.unplaced, {}, inBlock, unplaceds children⟩

/-- Some trees of which no part has a place. -/
def unplaceds : List Tree → List Tree
  | [] => []
  | t :: ts => t.unplaced :: unplaceds ts

end

theorem unplaced_eq (t : Tree) : t.unplaced = ⟨t.kind.unplaced, {}, t.inBlock, unplaceds t.children⟩ := by
  cases t
  rw [unplaced]

@[simp] theorem unplaceds_nil : unplaceds [] = [] := by rw [unplaceds]

@[simp] theorem unplaceds_cons (t : Tree) (ts : List Tree) :
    unplaceds (t :: ts) = t.unplaced :: unplaceds ts := by
  rw [unplaceds]

theorem eq_nil_of_unplaceds {ts : List Tree} (h : unplaceds ts = []) : ts = [] := by
  cases ts with
  | nil => rfl
  | cons t ts => cases h

theorem eq_singleton_of_unplaceds {ts : List Tree} {u : Tree} (h : unplaceds ts = [u]) :
    ∃ t, ts = [t] ∧ t.unplaced = u := by
  cases ts with
  | nil => cases h
  | cons t ts =>
    rw [unplaceds_cons] at h
    obtain ⟨ht, hts⟩ := List.cons.inj h
    exact ⟨t, by rw [eq_nil_of_unplaceds hts], ht⟩

end Tree

end Stencil
