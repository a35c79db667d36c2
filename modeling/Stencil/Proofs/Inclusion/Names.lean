import Stencil.Loader
import Mathlib.Data.List.TakeWhile

/-! # Names of inclusions

A name is tested for what must not stand anywhere in it, and then segment by segment. The segments alone
decide. The path of a file is put together from the segments again, and since no segment has a dot, the
extension takes nothing away: names that are accepted lead to files of their own. -/

namespace Stencil.Loader

/-- A word of ASCII letters, digits, underscores and hyphens that begins with a letter or an underscore. -/
def IsPart (s : List Char) : Prop :=
  ∃ c cs, s = c :: cs ∧ (c.isAlpha = true ∨ c = '_') ∧ ∀ d ∈ cs, d.isAlphanum = true ∨ d = '_' ∨ d = '-'

/-- The name that is made of some segments, each after a slash. -/
def spelled (parts : List (List Char)) : List Char := parts.flatMap ('/' :: ·)

variable {l : Loader} {name name' : String} {s : List Char} {parts parts' : List (List Char)}

/-! ### Characters -/

theorem isWordStart_eq (c : Char) : Lexer.isWordStart c = (c.isAlpha || c = '_') := by
  have hletters : Lexer.isWordStart c = (c.isLower || ('A' ≤ c && c ≤ 'Z') || c = '_') := rfl
  have hupper : ('A' ≤ c && c ≤ 'Z') = c.isUpper := (Bool.decide_and ('A' ≤ c) (c ≤ 'Z')).symm
  rw [hletters, hupper, Bool.or_comm c.isLower]
  rfl

theorem isWordPart_eq (c : Char) : Lexer.isWordPart c = (c.isAlphanum || c = '_') := by
  have hdigit : Lexer.isWordPart c = (Lexer.isWordStart c || c.isDigit) := rfl
  rw [hdigit, isWordStart_eq, Bool.or_right_comm]
  rfl

theorem isSegment_iff : isSegment s = true ↔ IsPart s := by
  cases s with
  | nil =>
    refine iff_of_false Bool.false_ne_true ?_
    rintro ⟨_, _, h, -⟩
    exact List.cons_ne_nil _ _ h.symm
  | cons c cs =>
    simp only [isSegment, isNameStart, isWordStart_eq, isWordPart_eq, Bool.and_eq_true,
      List.all_eq_true, Bool.or_eq_true, decide_eq_true_eq, or_assoc]
    constructor
    · rintro ⟨hstart, hparts⟩
      exact ⟨c, cs, rfl, hstart, hparts⟩
    · rintro ⟨_, _, h, hstart, hparts⟩
      obtain ⟨rfl, rfl⟩ := List.cons.inj h
      exact ⟨hstart, hparts⟩

theorem IsPart.ne_nil (h : IsPart s) : s ≠ [] := by
  obtain ⟨c, cs, rfl, -⟩ := h
  exact List.cons_ne_nil c cs

/-- No other characters are in a segment. -/
theorem IsPart.notMem (h : IsPart s) {c : Char} (hc : ¬ (c.isAlphanum = true ∨ c = '_' ∨ c = '-')) :
    c ∉ s := by
  obtain ⟨d, ds, rfl, hstart, hparts⟩ := h
  intro hmem
  rcases List.mem_cons.1 hmem with rfl | hmem
  · rcases hstart with hstart | hstart
    · exact hc (.inl (by rw [Char.isAlphanum, hstart]; rfl))
    · exact hc (.inr (.inl hstart))
  · exact hc (hparts c hmem)

/-! ### Segments -/

theorem spelled_cons (part : List Char) (parts : List (List Char)) :
    spelled (part :: parts) = '/' :: (part ++ spelled parts) := rfl

theorem spelled_segments (cs : List Char) : spelled (segments cs) = '/' :: cs := by
  induction cs with
  | nil => rfl
  | cons c cs ih =>
    rw [segments]
    split
    · next h => rw [spelled_cons, ih, h]; rfl
    · cases hsegments : segments cs with
      | nil =>
        rw [hsegments] at ih
        cases ih
      | cons part rest =>
        rw [hsegments, spelled_cons] at ih
        rw [← (List.cons.inj ih).2]
        rfl

theorem segments_append {part cs s : List Char} {rest : List (List Char)} (hpart : '/' ∉ part)
    (hcs : segments cs = s :: rest) :
    segments (part ++ cs) = (part ++ s) :: rest := by
  induction part with
  | nil => exact hcs
  | cons c part ih =>
    rw [List.mem_cons, not_or] at hpart
    rw [List.cons_append, segments, if_neg fun h => hpart.1 h.symm, ih hpart.2]
    rfl

/-- What is between the slashes of a name are the segments that it is made of. -/
theorem segments_spelled {part : List Char} (h : ∀ s ∈ part :: parts, '/' ∉ s) :
    segments (part ++ spelled parts) = part :: parts := by
  induction parts generalizing part with
  | nil => rw [segments_append (h part List.mem_cons_self) rfl, List.append_nil]
  | cons next parts ih =>
    have hrest : segments (spelled (next :: parts)) = [] :: next :: parts := by
      rw [spelled_cons, segments, if_pos rfl, ih fun s hs => h s (List.mem_cons_of_mem _ hs)]
    rw [segments_append (h part List.mem_cons_self) hrest, List.append_nil]

theorem hasPair_of_notMem {x : Char} {cs : List Char} (h : x ∉ cs) : hasPair x cs = false := by
  fun_induction hasPair x cs with
  | case1 a b rest ih =>
    rw [List.mem_cons, not_or] at h
    rw [ih h.2, Bool.or_false, Bool.and_eq_false_iff, beq_eq_false_iff_ne]
    exact .inl fun hsame => h.1 hsame.symm
  | case2 => rfl

/-- Between two slashes in a row there is an empty segment. -/
theorem nil_mem_of_hasPair {cs : List Char} (h : hasPair '/' cs = true) : [] ∈ (segments cs).tail := by
  fun_induction hasPair '/' cs with
  | case1 a b rest ih =>
    rw [Bool.or_eq_true, Bool.and_eq_true, beq_iff_eq, beq_iff_eq] at h
    rcases h with ⟨rfl, rfl⟩ | h
    · rw [segments, if_pos rfl, segments, if_pos rfl]
      exact List.mem_cons_self
    · have hlater := ih h
      rw [segments]
      split
      · exact List.mem_of_mem_tail hlater
      · cases hsegments : segments (b :: rest) with
        | nil =>
          rw [hsegments] at hlater
          cases hlater
        | cons part rest => rwa [hsegments] at hlater
  | case2 => cases h

/-! ### Accepted names -/

theorem notMem_relative {relative : List Char} (hparts : ∀ s ∈ segments relative, IsPart s) {c : Char}
    (hc : ¬ (c.isAlphanum = true ∨ c = '_' ∨ c = '-')) (hslash : c ≠ '/') : c ∉ relative := by
  intro hmem
  have hspelled : c ∈ spelled (segments relative) := by
    rw [spelled_segments]
    exact List.mem_cons_of_mem _ hmem
  obtain ⟨s, hs, hcs⟩ := List.mem_flatMap.1 hspelled
  rcases List.mem_cons.1 hcs with h | h
  · exact hslash h
  · exact (hparts s hs).notMem hc h

/-- What is forbidden in a name does not occur where all segments are allowed. -/
theorem checkName_of_segments {relative : List Char} (h : name.toList = '/' :: relative)
    (hparts : ∀ s ∈ segments relative, IsPart s) :
    checkName name = .ok () := by
  have hdots : hasPair '.' relative = false :=
    hasPair_of_notMem (notMem_relative hparts (by decide) (by decide))
  have hslashes : hasPair '/' relative = false := by
    rw [Bool.eq_false_iff]
    intro hpair
    exact (hparts [] (List.mem_of_mem_tail (nil_mem_of_hasPair hpair))).ne_nil rfl
  have hforeign : relative.any (fun c => c = '\\' || c = ':') = false := by
    rw [List.any_eq_false]
    intro c hc
    rw [Bool.or_eq_true, decide_eq_true_eq, decide_eq_true_eq]
    rintro (rfl | rfl)
    · exact notMem_relative hparts (by decide) (by decide) hc
    · exact notMem_relative hparts (by decide) (by decide) hc
  have hnone : (segments relative).find? (fun s => !isSegment s) = none := by
    rw [List.find?_eq_none]
    intro s hs
    rw [isSegment_iff.2 (hparts s hs)]
    decide
  rw [checkName, h]
  simp only [hdots, hslashes, hforeign, hnone, Bool.or_self, Bool.false_eq_true, if_false]

/-- A name is accepted if it is made of segments: nothing that is forbidden in a name can stand
in a name of segments. -/
theorem checkName_iff : checkName name = .ok () ↔ ∃ parts ≠ [], (∀ s ∈ parts, IsPart s) ∧
    name.toList = spelled parts := by
  constructor
  · intro h
    unfold checkName at h
    split at h
    · next relative hname =>
      split at h
      · cases h
      · split at h
        · cases h
        · next hnone =>
          refine ⟨segments relative, ?_, fun s hs => ?_, by rw [spelled_segments, hname]⟩
          · intro hnil
            have hspelled := spelled_segments relative
            rw [hnil] at hspelled
            cases hspelled
          · have hsegment := List.find?_eq_none.1 hnone s hs
            rw [Bool.not_eq_true', Bool.not_eq_false] at hsegment
            exact isSegment_iff.1 hsegment
    · cases h
  · rintro ⟨parts, hne, hparts, hname⟩
    obtain ⟨part, rest, rfl⟩ := List.exists_cons_of_ne_nil hne
    have hslash : ∀ s ∈ part :: rest, '/' ∉ s := fun s hs => (hparts s hs).notMem (by decide)
    rw [spelled_cons] at hname
    refine checkName_of_segments hname ?_
    rwa [segments_spelled hslash]

/-! ### Files -/

theorem pathOf_eq (hne : parts ≠ []) (hparts : ∀ s ∈ parts, IsPart s) (hname : name.toList = spelled parts) :
    pathOf name = parts.map String.ofList := by
  obtain ⟨part, rest, rfl⟩ := List.exists_cons_of_ne_nil hne
  have hslash : ∀ s ∈ part :: rest, '/' ∉ s := fun s hs => (hparts s hs).notMem (by decide)
  have hkept : (part :: rest).filter (fun s => !s.isEmpty) = part :: rest := by
    rw [List.filter_eq_self]
    intro s hs
    rw [List.isEmpty_eq_false_iff.2 (hparts s hs).ne_nil]
    rfl
  rw [pathOf, hname, spelled_cons, segments, if_pos rfl, segments_spelled hslash]
  exact congrArg (List.map String.ofList) hkept

/-- A name without a dot has no extension. -/
theorem stem_eq {last : String} (h : '.' ∉ last.toList) : stem last = last := by
  have hnone : last.toList.reverse.dropWhile (· ≠ '.') = [] := by
    rw [List.dropWhile_eq_nil_iff]
    intro c hc
    rw [decide_eq_true_eq]
    rintro rfl
    exact h (List.mem_reverse.1 hc)
  rw [stem, hnone]

/-- To a name without a dot an extension is added, and nothing is taken away. -/
theorem withExtension_append (extension : String) (folder : Path) {last : String} (h : '.' ∉ last.toList) :
    withExtension extension (folder ++ [last]) =
    folder ++ [last ++ if extension.isEmpty then "" else "." ++ extension] := by
  induction folder with
  | nil =>
    have hne : last ≠ ".." := by
      rintro rfl
      exact absurd h (by decide)
    rw [List.nil_append, withExtension, if_neg hne, stem_eq h, List.nil_append]
    split
    · rw [String.append_empty]
    · rw [String.append_assoc]
  | cons s folder ih =>
    obtain ⟨next, rest, hrest⟩ : ∃ next rest, folder ++ [last] = next :: rest :=
      List.exists_cons_of_ne_nil (by simp)
    rw [List.cons_append, hrest, withExtension, ← hrest, ih]
    · rfl
    · rintro ⟨⟩

example : withExtension "t" ["r", "a.b", "c"] = ["r", "a.b", "c.t"] ∧
    withExtension "t" ["r", "a.b"] = ["r", "a.t"] := by decide

/-- The file of a name that is made of segments. -/
theorem fileFor_eq {init : List (List Char)} {last : List Char} (hparts : ∀ s ∈ init ++ [last], IsPart s)
    (hname : name.toList = spelled (init ++ [last])) : l.fileFor name =
      l.root ++ (init.map String.ofList ++
        [String.ofList last ++ if l.extension.isEmpty then "" else "." ++ l.extension]) := by
  have hdot : '.' ∉ (String.ofList last).toList := by
    rw [String.toList_ofList]
    exact (hparts last (by simp)).notMem (by decide)
  rw [fileFor, pathOf_eq (by simp) hparts hname, List.map_append, ← List.append_assoc]
  exact (withExtension_append l.extension (l.root ++ init.map String.ofList) hdot).trans
    (List.append_assoc _ _ _)

/-- Names of entries of a folder: none of them leads back to the folder, out of it or further down. -/
structure Plain (part : String) : Prop where
  ne_empty : part ≠ ""
  ne_dot : part ≠ "."
  ne_dots : part ≠ ".."
  noSlash : '/' ∉ part.toList

/-- A segment is plain, and so is what begins with one. -/
theorem IsPart.plain (h : IsPart s) {rest : String} (hrest : '/' ∉ rest.toList) :
    Plain (String.ofList s ++ rest) := by
  obtain ⟨c, hc⟩ : ∃ c, c ∈ s := List.exists_mem_of_ne_nil s h.ne_nil
  have hdots : ∀ part : String, (∀ d ∈ part.toList, d = '.') → String.ofList s ++ rest ≠ part := by
    rintro part hpart rfl
    have hdot := hpart c (by simp [hc])
    exact h.notMem (by decide) (hdot ▸ hc)
  refine ⟨hdots "" (by simp), hdots "." (by simp), hdots ".." (by simp), ?_⟩
  rw [String.toList_append, String.toList_ofList, List.mem_append, not_or]
  exact ⟨h.notMem (by decide), hrest⟩

theorem exists_last (h : checkName name = .ok ()) :
    ∃ init last, (∀ s ∈ init ++ [last], IsPart s) ∧ name.toList = spelled (init ++ [last]) := by
  obtain ⟨parts, hne, hparts, hname⟩ := checkName_iff.1 h
  rw [← List.dropLast_concat_getLast hne] at hparts hname
  exact ⟨_, _, hparts, hname⟩

/-- The file of an accepted name stands below the root. -/
theorem exists_below (hextension : '/' ∉ l.extension.toList) (h : checkName name = .ok ()) :
    ∃ below ≠ [], l.fileFor name = l.root ++ below ∧ ∀ part ∈ below, Plain part := by
  obtain ⟨init, last, hparts, hname⟩ := exists_last h
  refine ⟨_, by simp, fileFor_eq hparts hname, ?_⟩
  rw [List.forall_mem_append] at hparts ⊢
  rw [List.forall_mem_map, List.forall_mem_singleton]
  refine ⟨fun s hs => ?_, ?_⟩
  · have hplain : Plain (String.ofList s ++ "") := (hparts.1 s hs).plain (by decide)
    rwa [String.append_empty] at hplain
  · refine (hparts.2 last List.mem_cons_self).plain ?_
    split
    · decide
    · simp [hextension]

/-- No two accepted names lead to the same file. -/
theorem fileFor_injective (h : checkName name = .ok ()) (h' : checkName name' = .ok ())
    (hsame : l.fileFor name = l.fileFor name') :
    name = name' := by
  obtain ⟨init, last, hparts, hname⟩ := exists_last h
  obtain ⟨init', last', hparts', hname'⟩ := exists_last h'
  rw [fileFor_eq hparts hname, fileFor_eq hparts' hname'] at hsame
  obtain ⟨hinit, hlast⟩ := List.append_inj' (List.append_cancel_left hsame) rfl
  have hchars := congrArg String.toList (List.singleton_inj.1 hlast)
  rw [String.toList_append, String.toList_append, String.toList_ofList, String.toList_ofList] at hchars
  obtain rfl := List.append_cancel_right hchars
  obtain rfl := (List.map_inj_right fun _ _ => String.ofList_injective).1 hinit
  exact String.toList_injective (hname.trans hname'.symm)

/-- The names that are accepted are exactly those made of segments. The file of such a name stands below
the root, where its segments lead, with an extension added to the last one and nothing taken away; no
two names share a file. -/
theorem checkName_exact (l : Loader) :
    (∀ name, checkName name = .ok () ↔ ∃ parts ≠ [], (∀ s ∈ parts, IsPart s) ∧ name.toList = spelled parts) ∧
    ('/' ∉ l.extension.toList →
      (∀ name init last, (∀ s ∈ init ++ [last], IsPart s) →
        name.toList = spelled (init ++ [last]) → l.fileFor name =
        l.root ++ (init.map String.ofList ++
          [String.ofList last ++ if l.extension.isEmpty then "" else "." ++ l.extension])) ∧
      (∀ name, checkName name = .ok () → ∃ below ≠ [], l.fileFor name = l.root ++ below ∧
        ∀ part ∈ below, Plain part) ∧
      ∀ name name', checkName name = .ok () → checkName name' = .ok () →
      l.fileFor name = l.fileFor name' → name = name') :=
  ⟨fun _ => checkName_iff, fun hextension =>
    ⟨fun _ _ _ => fileFor_eq, fun _ => exists_below hextension, fun _ _ => fileFor_injective⟩⟩

end Stencil.Loader
