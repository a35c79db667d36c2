import Stencil.Files
import Mathlib.Data.Option.Basic
import Mathlib.Data.List.Basic

/-! # Following paths

A path that is followed to its end leads to a path without links: through folders only, to something that
is no link. Such a path leads to itself. Where a path leads depends on the folders and the links, and not on
what the files hold. -/

namespace Stencil

/-- Both are files, or both are folders, or both are links that lead the same way. -/
inductive Entry.Alike : Entry → Entry → Prop
  | file (content content' : ByteArray) : Alike (.file content) (.file content')
  | folder : Alike .folder .folder
  | link (absolute : Bool) (target : List String) : Alike (.link absolute target) (.link absolute target)

namespace FileSystem

variable {fs fs' : FileSystem} {p q here : Path} {names : List String}

/-! ### Paths without links -/

/-- A path leads through folders only, to a file or a folder, and takes no way back. -/
structure LinkFree (fs : FileSystem) (p : Path) : Prop where
  folders {q : Path} : q <+: p → q ≠ p → fs.isFolder q = true
  stands : (∃ content, fs.entry? p = some (.file content)) ∨ fs.entry? p = some .folder
  plain : ∀ name ∈ p, name ≠ "" ∧ name ≠ "." ∧ name ≠ ".."

theorem isFolder_iff : fs.isFolder p = true ↔ fs.entry? p = some .folder := by
  unfold isFolder
  split
  · next h => simp only [h]
  · next h => exact ⟨fun hfalse => (by cases hfalse), fun hfolder => absurd hfolder h⟩

theorem linkFree_nil (fs : FileSystem) : fs.LinkFree [] where
  folders hq hne := absurd (List.prefix_nil.1 hq) hne
  stands := .inr rfl
  plain := by simp

theorem LinkFree.append {name : String} (h : fs.LinkFree here) (hfolder : fs.isFolder here = true)
    (hstands : (∃ content, fs.entry? (here ++ [name]) = some (.file content)) ∨
      fs.entry? (here ++ [name]) = some .folder)
    (hname : name ≠ "" ∧ name ≠ "." ∧ name ≠ "..") : fs.LinkFree (here ++ [name]) where
  folders {q} hq hne := by
    rcases List.prefix_concat_iff.1 hq with rfl | hq
    · exact absurd rfl hne
    · by_cases hself : q = here
      · rw [hself]
        exact hfolder
      · exact h.folders hq hself
  stands := hstands
  plain other hother := by
    rcases List.mem_append.1 hother with hother | hother
    · exact h.plain other hother
    · rw [List.mem_singleton.1 hother]
      exact hname

theorem LinkFree.dropLast (h : fs.LinkFree here) : fs.LinkFree here.dropLast := by
  rcases List.eq_nil_or_concat here with rfl | ⟨init, last, rfl⟩
  · exact h
  · rw [List.concat_eq_append] at h ⊢
    rw [List.dropLast_concat]
    have hinit : init <+: init ++ [last] := List.prefix_append _ _
    refine ⟨fun {q} hq hne => h.folders (hq.trans hinit) ?_,
      .inr (isFolder_iff.1 (h.folders hinit (by simp))),
      fun name hname => h.plain name (List.mem_append_left _ hname)⟩
    rintro rfl
    have hle := hq.length_le
    rw [List.length_append, List.length_singleton] at hle
    omega

/-! ### What is followed to its end -/

theorem linkFree_walk {follow : Path → List String → Except FileFault Path}
    (hfollow : ∀ {here names p}, fs.LinkFree here → follow here names = .ok p → fs.LinkFree p)
    (hhere : fs.LinkFree here) (h : fs.walk follow here names = .ok p) : fs.LinkFree p := by
  induction names generalizing here with
  | nil =>
    obtain rfl : here = p := by simpa only [walk, Except.ok.injEq] using h
    exact hhere
  | cons name rest ih =>
    rw [walk] at h
    by_cases hfolder : fs.isFolder here = true
    · simp only [hfolder, Bool.not_true, Bool.false_eq_true, if_false] at h
      by_cases hstay : name = "" ∨ name = "."
      · rw [if_pos hstay] at h
        exact ih hhere h
      · rw [if_neg hstay] at h
        by_cases hback : name = ".."
        · rw [if_pos hback] at h
          exact ih hhere.dropLast h
        · rw [if_neg hback] at h
          have hname : name ≠ "" ∧ name ≠ "." ∧ name ≠ ".." :=
            ⟨fun e => hstay (.inl e), fun e => hstay (.inr e), hback⟩
          cases hentry : fs.entry? (here ++ [name]) with
          | none => simp [hentry] at h
          | some entry =>
            cases entry with
            | file content =>
              simp only [hentry] at h
              exact ih (hhere.append hfolder (.inl ⟨content, hentry⟩) hname) h
            | folder =>
              simp only [hentry] at h
              exact ih (hhere.append hfolder (.inr hentry) hname) h
            | link absolute target =>
              simp only [hentry] at h
              refine hfollow ?_ h
              split
              · exact linkFree_nil fs
              · exact hhere
    · simp [hfolder] at h

/-- What some names lead to is reached without links. -/
theorem linkFree_canonical (h : fs.canonical names = .ok p) : fs.LinkFree p := by
  have hwithin : ∀ links {here names p}, fs.LinkFree here → fs.walkWithin links here names =
      .ok p → fs.LinkFree p := by
    intro links
    induction links with
    | zero =>
      intro here names p hhere h
      exact linkFree_walk (fun _ h => by cases h) hhere h
    | succ links ih =>
      intro here names p hhere h
      exact linkFree_walk ih hhere h
  exact hwithin maxLinks (linkFree_nil fs) h

theorem LinkFree.walk_eq (follow : Path → List String → Except FileFault Path)
    (h : fs.LinkFree (here ++ names)) :
    fs.walk follow here names = .ok (here ++ names) := by
  induction names generalizing here with
  | nil => rw [walk, List.append_nil]
  | cons name rest ih =>
    have hfolder : fs.isFolder here = true := h.folders (List.prefix_append _ _) (by simp)
    obtain ⟨hempty, hstay, hback⟩ := h.plain name (by simp)
    rw [List.append_cons] at h ⊢
    have hentry : (∃ content, fs.entry? (here ++ [name]) = some (.file content)) ∨
        fs.entry? (here ++ [name]) = some .folder := by
      cases rest with
      | nil => simpa only [List.append_nil] using h.stands
      | cons _ _ => exact .inr (isFolder_iff.1 (h.folders (List.prefix_append _ _) (by simp)))
    rw [walk, if_neg (by simp [hfolder]), if_neg (by simp [hempty, hstay]), if_neg hback]
    obtain ⟨content, hentry⟩ | hentry := hentry
    · simp only [hentry]
      exact ih h
    · simp only [hentry]
      exact ih h

/-- A path without links leads to itself. -/
theorem LinkFree.canonical_eq (h : fs.LinkFree p) : fs.canonical p = .ok p := by
  rw [canonical, maxLinks, walkWithin]
  have hfromTop : fs.LinkFree ([] ++ p) := h
  exact hfromTop.walk_eq _

/-- A path that leads somewhere is resolved to where it leads. -/
theorem resolve_of_canonical (h : fs.canonical p = .ok q) : fs.resolve p = q := by
  unfold resolve
  cases hlength : p.length with
  | zero =>
    obtain rfl := List.length_eq_zero_iff.1 hlength
    rw [(linkFree_nil fs).canonical_eq] at h
    exact Except.ok.inj h
  | succ n =>
    rw [settle, ← hlength, List.take_length, h, List.drop_length]
    exact List.append_nil q

/-! ### The layout of the files -/

/-- The same folders, files and links stand at the same paths, whatever the files hold. -/
def SameLayout (fs fs' : FileSystem) : Prop := ∀ p, Option.Rel Entry.Alike (fs.entry? p) (fs'.entry? p)

namespace SameLayout

theorem isFolder_eq (h : SameLayout fs fs') (p : Path) : fs'.isFolder p = fs.isFolder p := by
  have hentry := h p
  unfold isFolder
  generalize fs.entry? p = entry at hentry
  generalize fs'.entry? p = entry' at hentry
  cases hentry with
  | none => rfl
  | some hentry => cases hentry <;> rfl

theorem walk_eq (h : SameLayout fs fs') {follow follow' : Path → List String → Except FileFault Path}
    (hfollow : ∀ here names, follow' here names = follow here names) (here : Path) (names : List String) :
    fs'.walk follow' here names = fs.walk follow here names := by
  induction names generalizing here with
  | nil => rw [walk, walk]
  | cons name rest ih =>
    have hentry := h (here ++ [name])
    simp only [walk, h.isFolder_eq, ih, hfollow]
    generalize fs.entry? (here ++ [name]) = entry at hentry
    generalize fs'.entry? (here ++ [name]) = entry' at hentry
    cases hentry with
    | none => rfl
    | some hentry => cases hentry <;> rfl

/-- Where a path leads does not depend on what the files hold. -/
theorem canonical_eq (h : SameLayout fs fs') (names : List String) :
    fs'.canonical names = fs.canonical names := by
  have hwithin : ∀ links here names, fs'.walkWithin links here names = fs.walkWithin links here names := by
    intro links
    induction links with
    | zero => exact h.walk_eq fun _ _ => rfl
    | succ links ih => exact h.walk_eq ih
  exact hwithin maxLinks [] names

theorem resolve_eq (h : SameLayout fs fs') (p : Path) : fs'.resolve p = fs.resolve p := by
  have hsettle : ∀ rest, fs'.settle rest p = fs.settle rest p := by
    intro rest
    induction rest with
    | zero => rfl
    | succ rest ih => rw [settle, settle, h.canonical_eq, ih]
  exact hsettle p.length

end SameLayout

end FileSystem

end Stencil
