import Stencil.Element
import Mathlib.Data.List.Forall2

/-! # Kinds of element compared

What kinds have in common, and kinds that differ only in their expressions or in their characters. -/

namespace Stencil

/-- Whether errors can be raised at the element itself, so that its site shows. -/
def Kind.isSite : Kind → Bool
  | interpolation _ | call _ _ | inclusion _ => true
  | _ => false

/-- Whether the element holds the branches of one `#if`. -/
def Kind.isIfBlock : Kind → Bool
  | ifBlock => true
  | _ => false

/-- Whether an element is static text. -/
def Kind.isText : Kind → Bool
  | text _ _ => true
  | _ => false

theorem Kind.exists_of_isText {kind : Kind} (h : kind.isText = true) :
    ∃ text trimmed, kind = .text text trimmed := by
  cases kind with
  | text text trimmed => exact ⟨text, trimmed, rfl⟩
  | _ => cases h

theorem Kind.ne_of_isText {kind other : Kind} (h : kind.isText = true) (hother : other.isText = false) :
    kind ≠ other := by
  rintro rfl
  rw [h] at hother
  cases hother

theorem Kind.text_or_ne (kind : Kind) :
    (∃ s trimmed, kind = .text s trimmed) ∨ ∀ s trimmed, kind ≠ .text s trimmed := by
  cases kind with
  | text s trimmed => exact .inl ⟨s, trimmed, rfl⟩
  | _ => exact .inr fun _ _ => Kind.noConfusion

theorem Kind.branch_or_ne (kind : Kind) :
    (∃ branch condition, kind = .conditional branch condition) ∨
    ∀ branch condition, kind ≠ .conditional branch condition := by
  cases kind with
  | conditional branch condition => exact .inl ⟨branch, condition, rfl⟩
  | _ => exact .inr fun _ _ => Kind.noConfusion

/-- Whether the element is written with a body. -/
def Kind.hasBody : Kind → Bool
  | sequence | ifBlock | conditional _ _ | list _ _ | capture _ | definition _ _ => true
  | _ => false

/-- Elements that are not left out for what they are: neither comments nor empty texts. -/
structure Kind.Lasting (kind : Kind) : Prop where
  notComment (comment : String) : kind ≠ .comment comment
  shown (trimmed : Bool) : kind ≠ .text "" trimmed

/-- What is no comment. -/
abbrev Kind.Shows (kind : Kind) : Prop := ∀ comment, kind ≠ .comment comment

/-- A text with other characters; all other kinds stay as they are. -/
def Kind.withText (text : String) : Kind → Kind
  | .text _ trimmed => .text text trimmed
  | kind => kind

@[simp] theorem Kind.isIfBlock_withText (text : String) (kind : Kind) :
    (kind.withText text).isIfBlock = kind.isIfBlock := by
  cases kind <;> rfl

@[simp] theorem Kind.hasBody_withText (text : String) (kind : Kind) :
    (kind.withText text).hasBody = kind.hasBody := by
  cases kind <;> rfl

theorem Kind.withText_eq_ifBlock {text : String} {kind : Kind} :
    kind.withText text = .ifBlock ↔ kind = .ifBlock := by
  cases kind <;> simp [withText]

theorem Kind.withText_eq_conditional {text : String} {kind : Kind} {branch : Branch}
    {condition : Option Expr} :
    kind.withText text = .conditional branch condition ↔ kind = .conditional branch condition := by
  cases kind <;> simp [withText]

/-- An expression without its places. -/
def Expr.unplaced : Expr → Expr
  | string _ s => string {} s
  | integer _ n => integer {} n
  | boolean _ b => boolean {} b
  | null _ => null {}
  | var _ name => var {} name
  | dot _ target key => dot {} target.unplaced key
  | binary _ op left right => binary {} op left.unplaced right.unplaced
  | not _ operand => not {} operand.unplaced
  | group _ inner => group {} inner.unplaced
  | eval _ target => eval {} target.unplaced

/-- The canonical form shows no places. -/
theorem Expr.canonical_unplaced (e : Expr) : e.unplaced.canonical = e.canonical := by
  induction e with
  | string | integer | boolean | null | var => rfl
  | dot _ _ _ ih | not _ _ ih | group _ _ ih | eval _ _ ih => simp only [unplaced, canonical, ih]
  | binary _ _ _ _ ihl ihr => simp only [unplaced, canonical, ihl, ihr]

theorem Expr.canonical_eq_of_unplaced {e e' : Expr} (h : e.unplaced = e'.unplaced) :
    e.canonical = e'.canonical := by
  rw [← e.canonical_unplaced, h, e'.canonical_unplaced]

/-- Kinds that differ at most in expressions that are alike. -/
inductive Kind.Like (expr : Expr → Expr → Prop) : Kind → Kind → Prop
  | sequence : Like expr .sequence .sequence
  | text (text : String) (trimmed trimmed' : Bool) : Like expr (.text text trimmed) (.text text trimmed')
  | interpolation {e e' : Expr} (h : expr e e') : Like expr (.interpolation e) (.interpolation e')
  | ifBlock : Like expr .ifBlock .ifBlock
  | conditional (branch : Branch) {c c' : Option Expr} (h : Option.Rel expr c c') :
    Like expr (.conditional branch c) (.conditional branch c')
  | list {source source' : Expr} (item : String) (h : expr source source') :
    Like expr (.list source item) (.list source' item)
  | assignment (target : String) {value value' : Expr} (h : expr value value') :
    Like expr (.assignment target value) (.assignment target value')
  | capture (target : String) : Like expr (.capture target) (.capture target)
  | definition (name : String) (parameters : List String) :
    Like expr (.definition name parameters) (.definition name parameters)
  | call (name : String) {arguments arguments' : List Expr} (h : List.Forall₂ expr arguments arguments') :
    Like expr (.call name arguments) (.call name arguments')
  | inclusion {path path' : Expr} (h : expr path path') : Like expr (.inclusion path) (.inclusion path')
  | comment (text : String) : Like expr (.comment text) (.comment text)

theorem Kind.Like.self {expr : Expr → Expr → Prop} (h : ∀ e, expr e e) (k : Kind) : k.Like expr k := by
  cases k with
  | sequence => exact .sequence
  | text text trimmed => exact .text text trimmed trimmed
  | interpolation e => exact .interpolation (h _)
  | ifBlock => exact .ifBlock
  | conditional branch c =>
    cases c with
    | none => exact .conditional branch .none
    | some c => exact .conditional branch (.some (h _))
  | list source item => exact .list item (h source)
  | assignment target value => exact .assignment target (h _)
  | capture target => exact .capture target
  | definition name parameters => exact .definition name parameters
  | call name arguments => exact .call name (List.forall₂_same.2 fun e _ => h e)
  | inclusion path => exact .inclusion (h _)
  | comment text => exact .comment text

theorem Kind.Like.isTraced {expr : Expr → Expr → Prop} {k k' : Kind} (h : k.Like expr k') :
    k'.isTraced = k.isTraced := by
  cases h <;> rfl

theorem Kind.Like.isIfBlock {expr : Expr → Expr → Prop} {k k' : Kind} (h : k.Like expr k') :
    k'.isIfBlock = k.isIfBlock := by
  cases h <;> rfl

theorem Kind.Like.hasBody {expr : Expr → Expr → Prop} {k k' : Kind} (h : k.Like expr k') :
    k'.hasBody = k.hasBody := by
  cases h <;> rfl

theorem Kind.Like.ifBlock_iff {expr : Expr → Expr → Prop} {k k' : Kind} (h : k.Like expr k') :
    k' = .ifBlock ↔ k = .ifBlock := by
  cases h <;> simp

theorem Kind.Like.conditional_iff {expr : Expr → Expr → Prop} {k k' : Kind}
    (h : k.Like expr k') (branch : Branch) :
    (∃ condition, k' = .conditional branch condition) ↔ ∃ condition, k = .conditional branch condition := by
  cases h <;> simp

end Stencil
