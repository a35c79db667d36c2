import Stencil.Proofs.Arena.Loading
import Stencil.Proofs.Spans

/-! # Nesting kept

Cleanup moves the ends of spans inwards only, but for a branch that takes the place of its if block with the
span of the block. So spans that nest still do so when some elements are dropped and others give way. -/

namespace Stencil

namespace Shape

/-- One element ends before another begins. -/
def Precedes (a : Arena) (s u : Shape) : Prop :=
  (a.get s.root).location.last.Before (a.get u.root).location.first

/-- Elements whose spans nest, as some shapes say. -/
inductive Nested (a : Arena) : List Shape → Prop
  | nil : Nested a []
  | cons {id : ElementId} {parts ss : List Shape} (fits : (a.get id).kind.Fits (a.get id).location)
    (within : ∀ s ∈ parts, (a.get s.root).kind.Solid ∧ (a.get s.root).location.Inside (a.get id).location)
    (order : parts.Pairwise (Precedes a)) (body : Nested a parts) (tail : Nested a ss) :
    Nested a (⟨id, parts⟩ :: ss)

section
variable {a a' a'' : Arena} {ss ss' us us' pre post : List Shape} {p g : ElementId} {s : Shape}

theorem Nested.append (h : Nested a ss) (h' : Nested a us) : Nested a (ss ++ us) := by
  induction h with
  | nil => exact h'
  | cons fits within order body _ _ ih => exact .cons fits within order body ih

theorem nested_append : Nested a (ss ++ us) ↔ Nested a ss ∧ Nested a us := by
  refine ⟨fun h => ?_, fun h => h.1.append h.2⟩
  induction ss with
  | nil => exact ⟨.nil, h⟩
  | cons s ss ih =>
    cases h with
    | cons fits within order body tail =>
      obtain ⟨hss, hus⟩ := ih tail
      exact ⟨.cons fits within order body hss, hus⟩

theorem Nested.of_mem (h : Nested a ss) (hs : s ∈ ss) : Nested a [s] := by
  obtain ⟨pre, post, rfl⟩ := List.append_of_mem hs
  have hpost : Nested a ([s] ++ post) := (nested_append.1 h).2
  exact (nested_append.1 hpost).1

/-- Only what the elements of a shape are counts. -/
theorem Nested.congr (h : Nested a ss) (hsame : ∀ x ∈ ids ss, (a'.get x).kind = (a.get x).kind ∧
    (a'.get x).location = (a.get x).location) : Nested a' ss := by
  induction h with
  | nil => exact .nil
  | @cons id parts ss fits within order body _ ihBody ih =>
    obtain ⟨⟨hkind, hlocation⟩, hparts, hrest⟩ := forall_mem_ids_cons.1 hsame
    refine .cons (by rwa [hkind, hlocation]) (fun s hs => ?_) (order.imp_of_mem fun {s u} hs hu h => ?_)
      (ihBody hparts) (ih hrest)
    · obtain ⟨hsKind, hsLocation⟩ := hparts s.root (root_mem_ids hs)
      rw [hsKind, hsLocation, hlocation]
      exact within s hs
    · rw [Precedes, (hparts s.root (root_mem_ids hs)).2, (hparts u.root (root_mem_ids hu)).2]
      exact h

theorem Holds.nested {ts : List Tree} (h : Holds a ss ts) (hts : Tree.Nested ts) : Nested a ss := by
  induction ss using forest_induction generalizing ts with
  | nil => exact .nil
  | cons id parts ss ihParts ih =>
    cases ts with
    | nil => simp only [Holds] at h
    | cons t ts =>
      rw [Holds] at h
      obtain ⟨hkind, hlocation, hparts, hss⟩ := h
      cases hts with
      | cons fits within order body tail =>
        have hroots := hparts.roots
        have hwithin : ∀ node ∈ parts.map fun s => ((a.get s.root).kind, (a.get s.root).location),
            node.1.Solid ∧ node.2.Inside t.location := by
          rw [hroots]
          exact List.forall_mem_map.2 within
        have horder : (parts.map fun s => ((a.get s.root).kind, (a.get s.root).location)).Pairwise
            fun node node' => node.2.last.Before node'.2.first := by
          rw [hroots]
          exact List.pairwise_map.2 order
        refine .cons (by rwa [hkind, hlocation]) (fun s hs => ?_) ?_ (ihParts hparts body) (ih hss tail)
        · rw [hlocation]
          exact List.forall_mem_map.1 hwithin s hs
        · rwa [List.pairwise_map] at horder

/-! ### Settling -/

/-- What is left of some elements whose spans nest: the spans still nest, they are as far apart as before, and
each lies within one that was there. -/
structure Settled (a a' : Arena) (ss ss' : List Shape) : Prop where
  nested : Nested a' ss'
  order : ss.Pairwise (Precedes a) → ss'.Pairwise (Precedes a')
  within : ∀ s' ∈ ss', ∃ s ∈ ss, (a'.get s'.root).location.Inside (a.get s.root).location ∧
    ((a'.get s'.root).kind = .sequence → (a.get s.root).kind = .sequence)

/-- Elements that are left may be looked at later, as long as they stay what they are. -/
theorem Settled.later (h : Settled a a' ss ss')
    (hkept : ∀ x ∈ ids ss', (a''.get x).kind = (a'.get x).kind ∧ (a''.get x).location = (a'.get x).location) :
    Settled a a'' ss ss' := by
  refine ⟨h.nested.congr hkept, fun horder => (h.order horder).imp_of_mem fun {s u} hs hu hsu => ?_,
    fun s' hs' => ?_⟩
  · rw [Precedes, (hkept s.root (root_mem_ids hs)).2, (hkept u.root (root_mem_ids hu)).2]
    exact hsu
  · obtain ⟨hkind, hlocation⟩ := hkept s'.root (root_mem_ids hs')
    rw [hkind, hlocation]
    exact h.within s' hs'

/-- Elements that were there may be looked at earlier, as long as they were what they are. -/
theorem Settled.earlier (h : Settled a' a'' us us')
    (huntouched : ∀ x ∈ ids us, (a'.get x).kind = (a.get x).kind ∧ (a'.get x).location = (a.get x).location) :
    Settled a a'' us us' := by
  refine ⟨h.nested, fun horder => h.order (horder.imp_of_mem fun {s u} hs hu hsu => ?_), fun u' hu' => ?_⟩
  · rw [Precedes, (huntouched s.root (root_mem_ids hs)).2, (huntouched u.root (root_mem_ids hu)).2]
    exact hsu
  · obtain ⟨u, hu, hinside⟩ := h.within u' hu'
    obtain ⟨hkind, hlocation⟩ := huntouched u.root (root_mem_ids hu)
    rw [hkind, hlocation] at hinside
    exact ⟨u, hu, hinside⟩

theorem Settled.append (h : Settled a a' ss ss') (h' : Settled a a' us us') :
    Settled a a' (ss ++ us) (ss' ++ us') := by
  refine ⟨h.nested.append h'.nested, fun horder => ?_, fun s' hs' => ?_⟩
  · obtain ⟨hss, hus, hcross⟩ := List.pairwise_append.1 horder
    refine List.pairwise_append.2 ⟨h.order hss, h'.order hus, fun s' hs' u' hu' => ?_⟩
    obtain ⟨s, hs, hinside, -⟩ := h.within s' hs'
    obtain ⟨u, hu, hinside', -⟩ := h'.within u' hu'
    exact hinside.before hinside' (hcross s hs u hu)
  · rcases List.mem_append.1 hs' with hs' | hs'
    · obtain ⟨s, hs, hinside⟩ := h.within s' hs'
      exact ⟨s, List.mem_append_left _ hs, hinside⟩
    · obtain ⟨u, hu, hinside⟩ := h'.within s' hs'
      exact ⟨u, List.mem_append_right _ hu, hinside⟩

/-- If the spans of some elements nest, those of what is left do. -/
def Settles (a a' : Arena) (ss ss' : List Shape) : Prop := Nested a ss → Settled a a' ss ss'

theorem settles_nil : Settles a a' [] [] := fun _ => ⟨.nil, fun _ => .nil, nofun⟩

theorem Settles.sameNodes (h : Settles a a' ss ss') (hsame : a'.SameNodes a'') : Settles a a'' ss ss' :=
  fun hnested => (h hnested).later fun x _ => hsame.2 x

/-- What is cleaned up later leaves what was cleaned up before. -/
theorem Settles.append (h : Settles a a' ss ss') (h' : Settles a' a'' us us')
    (huntouched : ∀ x ∈ ids us, (a'.get x).kind = (a.get x).kind ∧ (a'.get x).location = (a.get x).location)
    (hkept : ∀ x ∈ ids ss', (a''.get x).kind = (a'.get x).kind ∧ (a''.get x).location = (a'.get x).location) :
    Settles a a'' (ss ++ us) (ss' ++ us') := by
  intro hnested
  obtain ⟨hss, hus⟩ := nested_append.1 hnested
  exact ((h hss).later hkept).append ((h' (hus.congr huntouched)).earlier huntouched)

/-- An element is dropped. -/
theorem Settles.drop (h : Settles a a' ss (pre ++ s :: post)) : Settles a a' ss (pre ++ post) := by
  intro hnested
  obtain ⟨hnested', horder, hwithin⟩ := h hnested
  have hsub : (pre ++ post).Sublist (pre ++ s :: post) :=
    List.Sublist.append (.refl _) (List.sublist_cons_self _ _)
  obtain ⟨hpre, hpost⟩ := nested_append.1 hnested'
  refine ⟨hpre.append (nested_append.1 (show Nested a' ([s] ++ post) from hpost)).2,
    fun h => (horder h).sublist hsub, fun s' hs' => hwithin s' (hsub.subset hs')⟩

theorem nested_singleton {parts : List Shape} :
    Nested a [⟨p, parts⟩] ↔ (a.get p).kind.Fits (a.get p).location ∧
    (∀ s ∈ parts, (a.get s.root).kind.Solid ∧ (a.get s.root).location.Inside (a.get p).location) ∧
    parts.Pairwise (Precedes a) ∧ Nested a parts := by
  constructor
  · rintro (_ | ⟨fits, within, order, body, _⟩)
    exact ⟨fits, within, order, body⟩
  · rintro ⟨fits, within, order, body⟩
    exact .cons fits within order body .nil

theorem Settled.single {parts us : List Shape} (nested : Nested a' [⟨g, us⟩])
    (within : (a'.get g).location.Inside (a.get p).location ∧
      ((a'.get g).kind = .sequence → (a.get p).kind = .sequence)) :
    Settled a a' [⟨p, parts⟩] [⟨g, us⟩] := by
  refine ⟨nested, fun _ => List.pairwise_singleton _ _, fun s' hs' => ?_⟩
  obtain rfl := List.mem_singleton.1 hs'
  exact ⟨_, List.mem_singleton_self _, within⟩

/-- What is left of the children of an element lies within it. -/
theorem Settled.inside {l : Location} (h : Settled a a' ss ss')
    (hss : ∀ s ∈ ss, (a.get s.root).kind.Solid ∧ (a.get s.root).location.Inside l) {s' : Shape}
    (hs' : s' ∈ ss') : (a'.get s'.root).kind ≠ .sequence ∧ (a'.get s'.root).location.Inside l := by
  obtain ⟨s, hs, hinside, hkind⟩ := h.within s' hs'
  obtain ⟨hsolid, hwithin⟩ := hss s hs
  exact ⟨fun h => hsolid.1 (hkind h), hinside.trans hwithin⟩

/-- None of some elements is a comment or an empty text. -/
def Shown (a : Arena) (ss : List Shape) : Prop := ∀ s ∈ ss, (a.get s.root).kind.Lasting

/-- An element stays as it is, around children that are no empty texts. -/
theorem Settles.stays (h : Settles a a' ss ss')
    (hown : (a'.get p).kind = (a.get p).kind ∧ (a'.get p).location = (a.get p).location)
    (hshown : Shown a' ss') : Settles a a' [⟨p, ss⟩] [⟨p, ss'⟩] := by
  intro hnested
  obtain ⟨fits, within, order, body⟩ := nested_singleton.1 hnested
  have hsettled := h body
  obtain ⟨hkind, hlocation⟩ := hown
  refine .single (nested_singleton.2
    ⟨by rwa [hkind, hlocation], fun s' hs' => ?_, hsettled.order order, hsettled.nested⟩) ?_
  · obtain ⟨hsequence, hinside⟩ := hsettled.inside within hs'
    rw [hlocation]
    exact ⟨⟨hsequence, (hshown s' hs').shown⟩, hinside⟩
  · rw [hkind, hlocation]
    exact ⟨.self _, id⟩

/-- A sequence gives way to the only element that is left in it. -/
theorem Settles.sequence (h : Settles a a' ss [⟨g, us⟩]) (hkind : (a.get p).kind = .sequence) :
    Settles a a' [⟨p, ss⟩] [⟨g, us⟩] := by
  intro hnested
  obtain ⟨-, within, -, body⟩ := nested_singleton.1 hnested
  have hsettled := h body
  exact .single hsettled.nested ⟨(hsettled.inside within (List.mem_singleton_self _)).2, fun _ => hkind⟩

/-- An if block gives way to its only branch, which takes the span of the block. -/
theorem Settles.branch {b : Arena} {branch : Branch} {condition : Option Expr} (h : Settles a a' ss [⟨g, us⟩])
    (hp : (a.get p).kind = .ifBlock) (hg : (a'.get g).kind = .conditional branch condition)
    (hnot : g ∉ ids us) (hother : ∀ x, x ≠ g → b.get x = a'.get x) (hkind : (b.get g).kind = (a'.get g).kind)
    (hlocation : (b.get g).location = (a.get p).location) : Settles a b [⟨p, ss⟩] [⟨g, us⟩] := by
  intro hnested
  obtain ⟨fits, within, -, body⟩ := nested_singleton.1 hnested
  have hsettled := h body
  obtain ⟨-, hparts, horder, hbody⟩ := nested_singleton.1 hsettled.nested
  have hsame : ∀ x ∈ ids us, b.get x = a'.get x := fun x hx => hother x fun heq => hnot (heq ▸ hx)
  have hgInside := (hsettled.inside within (List.mem_singleton_self _)).2
  refine .single (nested_singleton.2
    ⟨⟨?_, ?_, ?_⟩, fun s hs => ?_, horder.imp_of_mem fun {s u} hs hu hsu => ?_, ?_⟩) ?_
  · rw [hlocation]
    exact fits.column
  · rw [hlocation]
    exact fun _ => fits.order (by rw [hp]; exact ⟨nofun, nofun⟩)
  · rw [hkind, hg]
    exact nofun
  · obtain ⟨hsolid, hinside⟩ := hparts s hs
    rw [hsame s.root (root_mem_ids hs), hlocation]
    exact ⟨hsolid, hinside.trans hgInside⟩
  · rw [Precedes, hsame s.root (root_mem_ids hs), hsame u.root (root_mem_ids hu)]
    exact hsu
  · exact hbody.congr fun x hx => by rw [hsame x hx]; exact ⟨rfl, rfl⟩
  · rw [hlocation, hkind, hg]
    exact ⟨.self _, nofun⟩

/-- A text stays where it is, within the span it had. -/
theorem Settles.trimmed {b : Arena} {text : String} {opening trailing : Nat}
    (hp : (a.get p).kind = .text text false) (hopening : Text.Opens text.toList opening)
    (htrailing : Text.Closes text.toList trailing)
    (hkind : (b.get p).kind = .text (.ofList (Arena.trimmedText text.toList opening trailing)) true)
    (hlocation : (b.get p).location = Arena.trimmedLocation (a.get p).location opening trailing) :
    Settles a b [⟨p, []⟩] [⟨p, []⟩] := by
  intro hnested
  obtain ⟨fits, -⟩ := nested_singleton.1 hnested
  rw [hp] at fits
  refine .single (nested_singleton.2 ⟨?_, nofun, .nil, .nil⟩) ?_
  · rw [hkind, hlocation]
    exact fits.trimmed hopening htrailing
  · rw [hkind, hlocation]
    exact ⟨Location.inside_trimmed fits.column opening trailing, nofun⟩

end

end Shape

end Stencil
