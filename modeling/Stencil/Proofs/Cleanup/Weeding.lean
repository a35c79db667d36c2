import Stencil.Proofs.Cleanup.Nesting
import Stencil.Proofs.Cleanup.Resting

/-! # Weeding

Which texts a pass leaves: those that are dropped are blank, and those that are left have been
trimmed and are not empty. -/

namespace Stencil

open Shape

/-- Of the texts of some elements those that are gone are blank, and empty unless blanks are stripped; those
that are left have been trimmed if blanks are. None of them is empty, and no comment is left, but for a
topmost one that stayed. -/
structure Weeds (strip : Bool) (a : Arena) (ss ss' : List Shape) : Prop where
  lost {x : ElementId} {text : String} {trimmed : Bool} : x ∈ ids ss → x ∉ ids ss' →
    (a.get x).kind = .text text trimmed →
    Text.AllBlank text.toList ∧ (strip = false → text = "")
  trimmed {x : ElementId} {text : String} {trimmed : Bool} : strip = true → x ∈ ids ss' →
    (a.get x).kind = .text text trimmed →
    trimmed = true
  shown {x : ElementId} : x ∈ ids ss' → (x ∈ ss.map root ∧ x ∈ ss'.map root) ∨ (a.get x).kind.Lasting

section
variable {strip : Bool} {a a' : Arena} {ss ss' us us' pre post : List Shape} {p g : ElementId} {s : Shape}

theorem weeds_nil : Weeds strip a [] [] := by
  constructor <;> simp

/-- Only what the elements are counts. -/
theorem Weeds.congr (h : Weeds strip a ss ss') (hsub : ids ss' ⊆ ids ss)
    (hsame : ∀ x ∈ ids ss, (a'.get x).kind = (a.get x).kind) :
    Weeds strip a' ss ss' := by
  refine ⟨fun hx hnot hkind => h.lost hx hnot ((hsame _ hx).symm.trans hkind),
    fun hstrip hx hkind => h.trimmed hstrip hx ((hsame _ (hsub hx)).symm.trans hkind), fun {x} hx => ?_⟩
  rw [hsame x (hsub hx)]
  exact h.shown hx

theorem Weeds.append (h : Weeds strip a ss ss') (h' : Weeds strip a us us') :
    Weeds strip a (ss ++ us) (ss' ++ us') := by
  refine ⟨fun {x} _ _ hx hnot => ?_, fun {x} _ _ hstrip hx => ?_, fun {x} hx => ?_⟩
  · rw [ids_append] at hx hnot
    obtain ⟨hss, hus⟩ := not_or.1 (mt List.mem_append.2 hnot)
    exact (List.mem_append.1 hx).elim (fun hx => h.lost hx hss) fun hx => h'.lost hx hus
  · rw [ids_append] at hx
    exact (List.mem_append.1 hx).elim (h.trimmed hstrip) (h'.trimmed hstrip)
  · rw [ids_append] at hx
    simp only [List.map_append, List.mem_append]
    exact (List.mem_append.1 hx).elim
      (fun hx => (h.shown hx).imp_left fun hroot => ⟨.inl hroot.1, .inl hroot.2⟩)
      fun hx => (h'.shown hx).imp_left fun hroot => ⟨.inr hroot.1, .inr hroot.2⟩

/-- A child is dropped that can go and has no children. -/
theorem Weeds.drop (h : Weeds strip a ss (pre ++ s :: post)) (halone : ids [s] = [s.root])
    (hnot : s.root ∉ ids (pre ++ post)) (hignorable : a.isIgnorable s.root strip = .ok true) :
    Weeds strip a ss (pre ++ post) := by
  have hids : ∀ x, x ∈ ids (pre ++ s :: post) ↔ x ∈ ids (pre ++ post) ∨ x = s.root := by
    intro x
    rw [ids_append, ids_cons, halone, ids_append]
    simp only [List.mem_append, List.mem_singleton]
    tauto
  refine ⟨fun {x} _ _ hx hgone hkind => ?_,
    fun hstrip hx => h.trimmed hstrip ((hids _).2 (.inl hx)), fun {x} hx => ?_⟩
  · by_cases hxs : x = s.root
    · subst hxs
      exact allBlank_of_isIgnorable hkind hignorable
    · exact h.lost hx (fun hin => ((hids x).1 hin).elim hgone hxs) hkind
  · refine (h.shown ((hids x).2 (.inl hx))).imp_left fun hroot => ⟨hroot.1, ?_⟩
    have hxs : x ≠ s.root := fun heq => hnot (heq ▸ hx)
    simpa [hxs] using hroot.2

/-- An element stays around children that last. -/
theorem Weeds.stays (h : Weeds strip a ss ss') (hshown : Shown a ss')
    (hown : ∀ text, strip = true → (a.get p).kind ≠ .text text false) :
    Weeds strip a [⟨p, ss⟩] [⟨p, ss'⟩] := by
  refine ⟨fun {x} _ _ hx hnot => ?_, fun {x} text trimmed hstrip hx hkind => ?_, fun {x} hx => ?_⟩
  · rw [ids_singleton] at hx hnot
    obtain ⟨hxp, hx'⟩ := List.ne_and_not_mem_of_not_mem_cons hnot
    exact h.lost (List.mem_of_ne_of_mem hxp hx) hx'
  · rw [ids_singleton] at hx
    rcases List.mem_cons.1 hx with rfl | hx
    · cases trimmed with
      | true => rfl
      | false => exact absurd hkind (hown text hstrip)
    · exact h.trimmed hstrip hx hkind
  · rw [ids_singleton] at hx
    rcases List.mem_cons.1 hx with rfl | hx
    · exact .inl ⟨List.mem_singleton_self _, List.mem_singleton_self _⟩
    · refine .inr ((h.shown hx).elim (fun hroot => ?_) id)
      obtain ⟨s, hs, rfl⟩ := List.mem_map.1 hroot.2
      exact hshown s hs

/-- An element that is no text gives way to its only child, which lasts. -/
theorem Weeds.givesWay (h : Weeds strip a ss [⟨g, us⟩]) (hshown : Shown a [⟨g, us⟩])
    (hp : ∀ text trimmed, (a.get p).kind ≠ .text text trimmed) : Weeds strip a [⟨p, ss⟩] [⟨g, us⟩] := by
  refine ⟨fun {x} text trimmed hx hnot hkind => ?_, fun hstrip hx => h.trimmed hstrip hx,
    fun {x} hx => .inr ?_⟩
  · rw [ids_singleton] at hx
    rcases List.mem_cons.1 hx with rfl | hx
    · exact absurd hkind (hp text trimmed)
    · exact h.lost hx hnot hkind
  · refine (h.shown hx).elim (fun hroot => ?_) id
    obtain ⟨s, hs, rfl⟩ := List.mem_map.1 hroot.2
    exact hshown s hs

end

end Stencil
