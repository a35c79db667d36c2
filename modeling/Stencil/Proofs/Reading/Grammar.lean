import Stencil.Tree.Parser
import Stencil.Proofs.Kinds

/-! # What templates are made of

The expressions, elements and bodies that reading a template can give, whatever their places: operators
group as they bind, names are plain words, and the branches of an if block follow each other in order. -/

namespace Stencil

/-! ### Names -/

/-- A word of the template language. -/
def IsWord (s : String) : Prop :=
  ∃ c cs, s.toList = c :: cs ∧ Lexer.isWordStart c = true ∧ ∀ d ∈ cs, Lexer.isWordPart d = true

/-- A word that can name something. -/
structure IsName (s : String) : Prop where
  word : IsWord s
  free : TokenKind.ofWord s = .identifier

theorem isWord_iff {s : String} : IsWord s ↔
    (match s.toList with | [] => false | c :: cs => Lexer.isWordStart c && cs.all Lexer.isWordPart) =
    true := by
  constructor
  · rintro ⟨c, cs, hcs, hstart, hparts⟩
    rw [hcs, Bool.and_eq_true]
    exact ⟨hstart, List.all_eq_true.2 hparts⟩
  · intro h
    split at h
    · cases h
    · next c cs hcs =>
      rw [Bool.and_eq_true] at h
      exact ⟨c, cs, hcs, h.1, List.all_eq_true.1 h.2⟩

theorem isName_iff {s : String} : IsName s ↔ IsWord s ∧ TokenKind.ofWord s = .identifier :=
  ⟨fun h => ⟨h.word, h.free⟩, fun h => ⟨h.1, h.2⟩⟩

instance (s : String) : Decidable (IsWord s) := decidable_of_iff' _ isWord_iff

instance (s : String) : Decidable (IsName s) := decidable_of_iff' _ isName_iff

/-! ### Expressions -/

/-- How tightly an operator binds. -/
def BinaryOp.level : BinaryOp → Nat
  | or => 0
  | and => 1
  | equal | notEqual => 2
  | add => 3

/-- The operators of a level and those that bind tighter. -/
theorem Expr.levels_drop {n : Nat} (hn : n < 4) :
    ∃ ops, levels.drop n = ops :: levels.drop (n + 1) ∧ ∀ op, op ∈ ops ↔ op.level = n := by
  match n, hn with
  | 0, _ => exact ⟨[.or], rfl, by intro op; cases op <;> decide⟩
  | 1, _ => exact ⟨[.and], rfl, by intro op; cases op <;> decide⟩
  | 2, _ => exact ⟨[.equal, .notEqual], rfl, by intro op; cases op <;> decide⟩
  | 3, _ => exact ⟨[.add], rfl, by intro op; cases op <;> decide⟩

/-- Expressions whose outermost operators bind at least as tightly as a level: level 4 is that of
negations, and expressions of level 5 can be followed by keys. -/
inductive Expr.Written : Nat → Expr → Prop
  | string {n : Nat} (loc : Location) (value : String) : Written n (.string loc value)
  | integer {n : Nat} (loc : Location) {value : Nat} (h : value ≤ greatestLiteral) :
    Written n (.integer loc value)
  | boolean {n : Nat} (loc : Location) (value : Bool) : Written n (.boolean loc value)
  | null {n : Nat} (loc : Location) : Written n (.null loc)
  | var {n : Nat} (loc : Location) {name : String} (h : IsName name) : Written n (.var loc name)
  | group {n : Nat} (loc : Location) {inner : Expr} (h : Written 0 inner) : Written n (.group loc inner)
  | dot {n : Nat} (loc : Location) {target : Expr} {key : String} (h : Written 5 target) (hkey : IsName key) :
    Written n (.dot loc target key)
  | eval {n : Nat} (loc : Location) {target : Expr} (h : Written 5 target) : Written n (.eval loc target)
  | not {n : Nat} (loc : Location) {operand : Expr} (hn : n ≤ 4) (h : Written 4 operand) :
    Written n (.not loc operand)
  | binary {n : Nat} (loc : Location) {op : BinaryOp} {left right : Expr} (hn : n ≤ op.level)
    (hleft : Written op.level left) (hright : Written (op.level + 1) right) :
    Written n (.binary loc op left right)

/-! ### Elements -/

/-- Elements that can be written in a body: comments do not hold what ends them, and only an else branch
goes without a condition. -/
def Kind.Written : Kind → Prop
  | sequence => False
  | text _ _ | ifBlock => True
  | interpolation e | inclusion e => e.Written 0
  | conditional branch condition => (branch = .otherwise ↔ condition = none) ∧ ∀ e ∈ condition, e.Written 0
  | list source item => source.Written 0 ∧ IsName item
  | assignment target value => IsName target ∧ value.Written 0
  | capture target => IsName target
  | definition name parameters => IsName name ∧ (∀ p ∈ parameters, IsName p) ∧ parameters.Nodup
  | call name arguments => IsName name ∧ ∀ e ∈ arguments, e.Written 0
  | comment t => ¬ [']', '\x7d'] <:+: t.toList

/-- The expressions that an element is written with. -/
def Kind.expressions : Kind → List Expr
  | sequence | text _ _ | ifBlock | capture _ | definition _ _ | comment _ => []
  | interpolation e | inclusion e => [e]
  | conditional _ condition => condition.toList
  | list source _ => [source]
  | assignment _ value => [value]
  | call _ arguments => arguments

namespace Tree

/-- The branches of an if block from one on. -/
inductive Branches : Branch → List Tree → Prop
  | last {branch : Branch} {condition : Option Expr} {t : Tree} (h : t.kind = .conditional branch condition) :
    Branches branch [t]
  | more {branch next : Branch} {condition : Option Expr} {t : Tree} {ts : List Tree}
    (h : t.kind = .conditional branch condition) (hbranch : branch ≠ .otherwise) (hnext : next ≠ .main)
    (rest : Branches next ts) : Branches branch (t :: ts)

theorem Branches.exists_cons {branch : Branch} {ts : List Tree} (h : Branches branch ts) :
    ∃ b bs condition, ts = b :: bs ∧ b.kind = .conditional branch condition := by
  cases h with
  | last h => exact ⟨_, _, _, rfl, h⟩
  | more h => exact ⟨_, _, _, rfl, h⟩

theorem Branches.conditional {branch : Branch} {ts : List Tree} (h : Branches branch ts) :
    ∀ t ∈ ts, ∃ branch condition, t.kind = .conditional branch condition := by
  induction h with
  | last h =>
    intro t ht
    obtain rfl := List.mem_singleton.1 ht
    exact ⟨_, _, h⟩
  | more h _ _ _ ih =>
    intro t ht
    rcases List.mem_cons.1 ht with rfl | ht
    · exact ⟨_, _, h⟩
    · exact ih t ht

/-- Bodies that can be written. Only if blocks hold branches other than the first, and these in order. -/
inductive Written : (branches : Bool) → List Tree → Prop
  | nil {branches : Bool} : Written branches []
  | cons {branches : Bool} {t : Tree} {ts : List Tree} (kind : t.kind.Written)
    (leaf : t.kind.hasBody = false → t.children = []) (block : t.kind = .ifBlock → Branches .main t.children)
    (outside : branches = false → ∀ branch condition, t.kind = .conditional branch condition → branch = .main)
    (inside : branches = true → ∃ branch condition, t.kind = .conditional branch condition)
    (body : Written t.kind.isIfBlock t.children) (tail : Written branches ts) : Written branches (t :: ts)

/-- All elements of some trees are of a kind that has a property. -/
inductive Each (P : Kind → Prop) : List Tree → Prop
  | nil : Each P []
  | cons {t : Tree} {ts : List Tree} (kind : P t.kind) (body : Each P t.children) (tail : Each P ts) :
    Each P (t :: ts)

theorem Each.append {P : Kind → Prop} {ts us : List Tree} (h : Each P ts) (h' : Each P us) :
    Each P (ts ++ us) := by
  induction h with
  | nil => exact h'
  | cons kind body _ _ ih => exact .cons kind body ih

theorem Each.mono {P Q : Kind → Prop} {ts : List Tree} (hmono : ∀ kind, P kind → Q kind) (h : Each P ts) :
    Each Q ts := by
  induction h with
  | nil => exact .nil
  | cons kind _ _ ihBody ihTail => exact .cons (hmono _ kind) ihBody ihTail

theorem Written.each {branches : Bool} {ts : List Tree} (h : Written branches ts) : Each Kind.Written ts := by
  induction h with
  | nil => exact .nil
  | cons kind _ _ _ _ _ _ ihBody ihTail => exact .cons kind ihBody ihTail

/-- Bodies that can be written, with expressions that have a property. -/
structure WrittenWith (Q : Expr → Prop) (branches : Bool) (ts : List Tree) : Prop where
  written : Written branches ts
  expressions : Each (fun kind => ∀ e ∈ kind.expressions, Q e) ts

end Tree

end Stencil
