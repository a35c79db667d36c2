import Stencil.Proofs.Reading.Rereading

/-! # Reading what was printed

A tree as it comes from a reader is the tree that its own markup is read as. -/

namespace Stencil.Tree

/-- Bodies as they come from a reader: texts are not empty and none follows another, branches stand in if
blocks only, and those in order. -/
inductive AsRead : (branches afterText : Bool) → List Tree → Prop
  | nil {branches afterText : Bool} : AsRead branches afterText []
  | text {t : Tree} {ts : List Tree} {s : String} (kind : t.kind = .text s false) (chars : s ≠ "")
    (leaf : t.children = []) (outside : t.inBlock = false) (tail : AsRead false true ts) :
    AsRead false false (t :: ts)
  | element {afterText : Bool} {t : Tree} {ts : List Tree} (htext : ∀ s trimmed, t.kind ≠ .text s trimmed)
    (hbranch : ∀ branch condition, t.kind ≠ .conditional branch condition) (kind : t.kind.Written)
    (leaf : t.kind.hasBody = false → t.children = []) (block : t.kind = .ifBlock → Branches .main t.children)
    (outside : t.inBlock = false) (body : AsRead t.kind.isIfBlock false t.children)
    (tail : AsRead false false ts) :
    AsRead false afterText (t :: ts)
  | branch {t : Tree} {ts : List Tree} {branch : Branch} {condition : Option Expr}
    (kind : t.kind = .conditional branch condition)
    (condition : t.kind.Written) (inside : t.inBlock = true) (body : AsRead false false t.children)
    (tail : AsRead true false ts) :
    AsRead true false (t :: ts)

namespace AsRead

variable {branches afterText : Bool} {ts : List Tree}

theorem written (h : AsRead branches afterText ts) : Written branches ts := by
  induction h with
  | nil => exact .nil
  | text kind chars leaf outside tail ih =>
    refine .cons ?_ (fun _ => leaf) ?_ ?_ nofun ?_ ih
    all_goals rw [kind]
    · trivial
    · nofun
    · nofun
    · rw [leaf]
      exact .nil
  | element htext hbranch kind leaf block outside body tail ihBody ihTail =>
    exact .cons kind leaf block (fun _ branch condition h =>
      absurd h (hbranch branch condition)) nofun ihBody ihTail
  | branch kind condition inside body tail ihBody ihTail =>
    refine .cons condition ?_ ?_ nofun (fun _ => ⟨_, _, kind⟩) ?_ ihTail
    all_goals rw [kind]
    · nofun
    · nofun
    · exact ihBody

theorem placed (h : AsRead branches afterText ts) : Placed branches ts := by
  induction h with
  | nil =>
    rw [Placed]
    trivial
  | text kind chars leaf outside tail ih =>
    refine placed_cons.2 ⟨outside, ?_, ih⟩
    rw [leaf, Placed]
    trivial
  | element htext hbranch kind leaf block outside body tail ihBody ihTail =>
    exact placed_cons.2 ⟨outside, ihBody, ihTail⟩
  | branch kind condition inside body tail ihBody ihTail =>
    refine placed_cons.2 ⟨inside, ?_, ihTail⟩
    rw [kind]
    exact ihBody

/-- No texts meet. -/
theorem hasSeams (h : AsRead branches afterText ts) {before : List Char}
    (hbefore : afterText = false → before = []) :
    hasSeams before ts = false := by
  induction h generalizing before with
  | nil => rw [Tree.hasSeams]
  | text kind chars leaf outside tail ih =>
    rw [hasSeams_text kind, hbefore rfl, opensBetween_nil, Bool.false_or]
    exact ih (by rintro ⟨⟩)
  | element htext hbranch kind leaf block outside body tail ihBody ihTail =>
    rw [hasSeams_element htext, ihBody fun _ => rfl, ihTail fun _ => rfl]
    rfl
  | branch kind condition inside body tail ihBody ihTail =>
    rw [hasSeams_element (by rw [kind]; rintro _ _ ⟨⟩), ihBody fun _ => rfl, ihTail fun _ => rfl]
    rfl

/-- Nothing but its place is lost of a tree. -/
theorem rereadAfter_eq (h : AsRead branches afterText ts) {before : List Char}
    (hbefore : afterText = false → before = []) :
    rereadAfter before ts = textOf before ++ unplaceds ts := by
  induction h generalizing before with
  | nil => rw [rereadAfter, unplaceds_nil, List.append_nil]
  | @text t ts s kind chars leaf outside tail ih =>
    have hchars : s.toList ≠ [] := fun hnone => chars (String.toList_injective hnone)
    rw [rereadAfter_text kind, hbefore rfl, ih (by rintro ⟨⟩), List.nil_append, unplaceds_cons, unplaced_eq,
      kind, outside, leaf]
    rw [textOf, if_neg hchars, String.ofList_toList, textOf, if_pos rfl]
    rfl
  | @element afterText t ts htext hbranch kind leaf block outside body tail ihBody ihTail =>
    rw [rereadAfter_element htext, reread_eq hbranch, ihBody fun _ => rfl, ihTail fun _ => rfl,
      unplaceds_cons, unplaced_eq t, outside]
    rfl
  | @branch t ts branch condition kind _ inside body tail ihBody ihTail =>
    rw [rereadAfter_element (by rw [kind]; rintro _ _ ⟨⟩), reread_branch kind, if_pos inside,
      ihBody fun _ => rfl, ihTail fun _ => rfl, unplaceds_cons, unplaced_eq t, inside]
    rfl

end AsRead

/-- The full markup of a tree as it comes from a reader is read as that tree again, but for the places. -/
theorem parse_fullCanonical {t : Tree} (hkind : t.kind = .sequence) (houtside : t.inBlock = false)
    (h : AsRead false false t.children) (name : Option String) :
    ∃ u, Tree.parse ⟨name, t.fullCanonical⟩ = .ok u ∧ u.unplaced = t.unplaced := by
  obtain ⟨u, hparse, hsequence, hin, hchildren⟩ :=
    parse_markups h.written h.placed (h.hasSeams fun _ => rfl) name
  rw [fullCanonical_eq, topmost_sequence hkind]
  refine ⟨u, hparse, ?_⟩
  rw [unplaced_eq, unplaced_eq t, hsequence, hkind, hin, houtside, hchildren, h.rereadAfter_eq fun _ => rfl]
  rfl

/-- Text that opens a tag and ends in a brace, before a branch that holds a bracket and
one that holds a call. -/
theorem parse_fullCanonical_branches :
    ∃ u, Tree.parse
      ⟨none, "\x7b[\x7b]\x7d\x7b\x7b[#if x]\x7d[\x7b[#else]\x7d\x7b[@m 1]\x7d\x7b[/if]\x7d"⟩ = .ok u ∧
    u.unplaced = ⟨.sequence, {}, false, [⟨.text "\x7b[\x7b" false, {}, false, []⟩, ⟨.ifBlock, {}, false,
      [⟨.conditional .main (some (.var {} "x")), {}, true, [⟨.text "[" false, {}, false, []⟩]⟩,
        ⟨.conditional .otherwise none, {}, true, [⟨.call "m" [.integer {} 1], {}, false, []⟩]⟩]⟩]⟩ := by
  have hcall : AsRead false false [⟨.call "m" [.integer {} 1], {}, false, []⟩] :=
    .element nofun nofun ⟨by decide, fun _ h => List.mem_singleton.1 h ▸ .integer {} (by decide)⟩
      (fun _ => rfl) nofun rfl .nil .nil
  have hbracket : AsRead false false [⟨.text "[" false, {}, false, []⟩] := .text rfl (by decide) rfl rfl .nil
  have hif : Kind.Written (.conditional .main (some (.var {} "x"))) :=
    ⟨by decide, fun _ h => Option.some.inj h ▸ .var {} (by decide)⟩
  have helse : Kind.Written (.conditional .otherwise none) := ⟨by decide, nofun⟩
  have hbranches : AsRead true false
      [⟨.conditional .main (some (.var {} "x")), {}, true, [⟨.text "[" false, {}, false, []⟩]⟩,
        ⟨.conditional .otherwise none, {}, true, [⟨.call "m" [.integer {} 1], {}, false, []⟩]⟩] :=
    .branch rfl hif rfl hbracket (.branch rfl helse rfl hcall .nil)
  have hlast : Branches .otherwise
    [⟨.conditional .otherwise none, {}, true, [⟨.call "m" [.integer {} 1], {}, false, []⟩]⟩] := .last rfl
  have hblock : AsRead false true [⟨.ifBlock, {}, false, _⟩] :=
    .element nofun nofun trivial nofun (fun _ => .more rfl (by decide) (by decide) hlast) rfl hbranches .nil
  have hbody : AsRead false false [⟨.text "\x7b[\x7b" false, {}, false, []⟩, _] :=
    .text rfl (by decide) rfl rfl hblock
  exact parse_fullCanonical (t := ⟨.sequence, {}, false, _⟩) rfl rfl hbody none

end Stencil.Tree
