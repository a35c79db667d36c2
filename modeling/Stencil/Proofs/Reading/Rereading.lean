import Stencil.Proofs.Places
import Stencil.Proofs.Reading.Markup

/-! # Reading printed trees back

What the readers make of the tokens of a tree: the tree again, but for places, for texts that stand side
by side, which are taken together, and for a branch that stands alone, which comes to stand in an if
block. -/

namespace Stencil

/-! ### Trees as they are read back -/

namespace Tree

/-- The text of some characters, if there are any. -/
def textOf (text : List Char) : List Tree :=
  if text = [] then [] else [⟨.text (String.ofList text) false, {}, false, []⟩]

mutual

/-- An element other than a text as it is read back. -/
def reread : Tree → Tree
  | ⟨kind, _, inBlock, children⟩ =>
    match kind with
    | .conditional branch condition =>
      let branch : Tree := ⟨Kind.unplaced (.conditional branch condition), {}, true, rereadAfter [] children⟩
      if inBlock then branch else ⟨.ifBlock, {}, false, [branch]⟩
    | _ => ⟨kind.unplaced, {}, false, rereadAfter [] children⟩

/-- Some elements after a text as they are read back. -/
def rereadAfter (before : List Char) : List Tree → List Tree
  | [] => textOf before
  | t :: ts =>
    match t.kind with
    | .text s _ => rereadAfter (before ++ s.toList) ts
    | _ => textOf before ++ t.reread :: rereadAfter [] ts

end

theorem reread_eq {t : Tree} (h : ∀ branch condition, t.kind ≠ .conditional branch condition) :
    t.reread = ⟨t.kind.unplaced, {}, false, rereadAfter [] t.children⟩ := by
  obtain ⟨kind, location, inBlock, children⟩ := t
  rw [reread]
  exact h

theorem reread_branch {t : Tree} {branch : Branch} {condition : Option Expr}
    (hkind : t.kind = .conditional branch condition) :
    t.reread = if t.inBlock then ⟨t.kind.unplaced, {}, true, rereadAfter [] t.children⟩
      else ⟨.ifBlock, {}, false, [⟨t.kind.unplaced, {}, true, rereadAfter [] t.children⟩]⟩ := by
  obtain ⟨kind, location, inBlock, children⟩ := t
  obtain rfl : kind = .conditional branch condition := hkind
  rw [reread]

theorem rereadAfter_text {t : Tree} {s : String} {trimmed : Bool} (h : t.kind = .text s trimmed)
    (before : List Char) (ts : List Tree) :
    rereadAfter before (t :: ts) = rereadAfter (before ++ s.toList) ts := by
  rw [rereadAfter, h]

theorem rereadAfter_element {t : Tree} (h : ∀ s trimmed, t.kind ≠ .text s trimmed)
    (before : List Char) (ts : List Tree) :
    rereadAfter before (t :: ts) = textOf before ++ t.reread :: rereadAfter [] ts := by
  rw [rereadAfter]
  split
  · next s trimmed htext => exact absurd htext (h s trimmed)
  · rfl

end Tree

/-! ### Parts of tags -/

namespace Expr

theorem stops_cons {t : Token} {ts : List Token}
    (h : t.kind = .closing ∨ t.kind = .keywordAs ∨ t.kind = .comma) :
    Stops 0 (t :: ts) := by
  rcases h with h | h | h <;> exact ⟨by simp [nextKind, h], by simp [nextKind, h, operator?]⟩

end Expr

namespace Tree

variable {source : Option Source} {body : Reader (List Tree)} {opened : Token}
  {ts rest : List Token} {fs : List Form}

variable (source) in
/-- An expression before a token that does not go on with it. -/
theorem read_spelled {e : Expr} (h : e.Written 0) {kind : TokenKind} {value : String}
    (hkind : kind = .closing ∨ kind = .keywordAs ∨ kind = .comma)
    (hts : Spells ts (e.forms ++ (kind, value) :: fs) rest) :
    ∃ e' t mid, Expr.read source ts = .ok (e', t :: mid) ∧ e'.unplaced = e.unplaced ∧ t.kind = kind ∧
    Spells mid fs rest := by
  obtain ⟨mid, he, hmid⟩ := hts.append
  obtain ⟨t, mid, rfl, ht, -, hmid⟩ := hmid.cons
  obtain ⟨e', hread, hsame⟩ : ∃ e', Expr.read source _ = .ok (e', _) ∧ e'.unplaced = e.unplaced :=
    Expr.read_forms h he (Expr.stops_cons (by rwa [ht]))
  exact ⟨e', t, mid, hread, hsame, ht, hmid⟩

variable (opened) in
theorem readClosing_spelled {b : Block} (h : Spells ts (Kind.closeForms b ++ fs) rest) :
    ∃ last mid, readClosing b opened ts = .ok (last, mid) ∧ Spells mid fs rest := by
  rw [Kind.closeForms, Kind.tagForms] at h
  obtain ⟨o, ts, rfl, ho, -, h⟩ := h.cons
  obtain ⟨s, ts, rfl, hs, -, h⟩ := h.cons
  obtain ⟨name, ts, rfl, hname, hvalue, h⟩ := h.cons
  obtain ⟨c, ts, rfl, hc, -, h⟩ := h.cons
  have hne : ¬ nextKind (o :: s :: name :: c :: ts) = .eof := by
    change ¬ o.kind = .eof
    rw [ho]
    decide
  refine ⟨c.last, ts, ?_, h⟩
  rw [readClosing, if_neg hne]
  simp only [expect_cons ho, expect_cons hs, expect_cons hc, hname, hvalue, bind,
    Except.bind, pure, Except.pure, and_self, if_true]

theorem readParameters_spelled {read ps : List String} (hnodup : (read ++ ps).Nodup)
    (hts : Spells ts (ps.map fun p => (TokenKind.identifier, p)) rest) (hrest : nextKind rest = .closing) :
    readParameters read ts = .ok (read ++ ps, rest) := by
  induction ps generalizing read ts with
  | nil =>
    obtain rfl := hts.nil
    rw [List.append_nil]
    cases ts with
    | nil => cases hrest
    | cons t ts =>
      have hkind : t.kind = .closing := hrest
      rw [readParameters, if_pos hkind]
  | cons p ps ih =>
    rw [List.map_cons] at hts
    obtain ⟨t, ts, rfl, hkind, hvalue, hts⟩ := hts.cons
    have hname : expectName (t :: ts) = .ok (p, ts) := by rw [expectName, if_pos hkind, hvalue]
    have hnew : p ∉ read := fun hin => by
      have hdisjoint := (List.nodup_append.1 hnodup).2.2
      exact hdisjoint p hin p List.mem_cons_self rfl
    rw [readParameters, if_neg (by rw [hkind]; decide)]
    simp only [hname, bind, Except.bind, if_neg hnew]
    rw [ih (by rwa [List.append_assoc]) hts, List.append_assoc]
    rfl

variable (source) in
theorem readArguments_spelled {e : Expr} {es : List Expr} (h : ∀ e' ∈ e :: es, e'.Written 0) {bound : Nat}
    (hbound : ts.length ≤ bound) {value : String}
    (hts : Spells ts (argumentForms (e :: es) ++ (.closing, value) :: fs) rest) :
    ∃ es' t mid, readArguments source bound ts = .ok (es', t :: mid) ∧
      es'.map Expr.unplaced = (e :: es).map Expr.unplaced ∧ t.kind = .closing ∧ Spells mid fs rest := by
  induction es generalizing e ts bound with
  | nil =>
    obtain ⟨e', t, mid, hread, hsame, ht, hmid⟩ := read_spelled source (h e List.mem_cons_self) (.inl rfl) hts
    obtain ⟨bound, rfl⟩ : ∃ k, bound = k + 1 := by
      cases bound with
      | zero =>
        obtain rfl := List.length_eq_zero_iff.1 (Nat.le_zero.1 hbound)
        cases hread
      | succ k => exact ⟨k, rfl⟩
    have hnext : ¬ nextKind (t :: mid) = .comma := by
      change ¬ t.kind = .comma
      rw [ht]
      decide
    refine ⟨[e'], t, mid, ?_, congrArg (· :: []) hsame, ht, hmid⟩
    simp only [readArguments, hread, bind, Except.bind, if_neg hnext, pure, Except.pure]
  | cons next es ih =>
    rw [argumentForms, List.append_assoc, List.cons_append] at hts
    · obtain ⟨e', t, mid, hread, hsame, ht, hmid⟩ :=
        read_spelled source (h e List.mem_cons_self) (.inr (.inr rfl)) hts
      have hlength := hts.length
      have hlength' := hmid.length
      simp only [List.length_append, List.length_cons] at hlength hlength'
      obtain ⟨bound, rfl⟩ : ∃ k, bound = k + 1 := ⟨bound - 1, by omega⟩
      obtain ⟨es', u, mid', hread', hsame', hu, hmid'⟩ :=
        ih (fun e' he' => h e' (List.mem_cons_of_mem e he')) (show mid.length ≤ bound by omega) hmid
      have hnext : nextKind (t :: mid) = .comma := ht
      refine ⟨e' :: es', u, mid', ?_, congrArg₂ List.cons hsame hsame', hu, hmid'⟩
      simp only [readArguments, hread, bind, Except.bind, if_pos hnext, List.drop_succ_cons,
        List.drop_zero, hread', pure, Except.pure]
    · rintro ⟨⟩

/-! ### Elements without a body -/

/-- An element is read back, up to what comes after it. -/
def ReadsBack (source : Option Source) (body : Reader (List Tree)) (ts rest : List Token) (t : Tree) : Prop :=
  ∃ u, readElement source body ts = .ok (u, rest) ∧ u.unplaced = t.reread

theorem readElement_opening {t : Token} (ht : t.kind = .opening) (ts : List Token) :
    readElement source body (t :: ts) = match nextKind ts with
      | .hash => readDirective source body t (ts.drop 1)
      | .atSign => readCall source t (ts.drop 1)
      | _ => readInterpolation source t ts := by
  obtain ⟨kind, value, first, last⟩ := t
  obtain rfl : kind = .opening := ht
  rfl

variable (source body) in
theorem readElement_directive {word : String} (h : Spells ts (Kind.directiveForms word fs) rest) :
    ∃ t name ts', Spells ts' (fs ++ [TokenKind.closing.form]) rest ∧
      name.kind = .identifier ∧ name.value = word ∧
      readElement source body ts = readDirective source body t (name :: ts') := by
  rw [Kind.directiveForms, Kind.tagForms] at h
  obtain ⟨t, ts, rfl, ht, -, h⟩ := h.cons
  obtain ⟨m, ts, rfl, hm, -, h⟩ := h.cons
  obtain ⟨name, ts, rfl, hname, hvalue, h⟩ := h.cons
  refine ⟨t, name, ts, h, hname, hvalue, ?_⟩
  have hnext : nextKind (m :: name :: ts) = .hash := hm
  rw [readElement_opening ht, hnext]
  rfl

/-- What is read is the element again, once its kind is the same but for places. -/
theorem readsBack_plain {t : Tree} (hbranch : ∀ branch condition, t.kind ≠ .conditional branch condition)
    (hleaf : t.children = []) {kind : Kind} (hsame : kind.unplaced = t.kind.unplaced) (first last : Position)
    (hread : readElement source body ts = .ok (plain kind source first last [], rest)) :
    ReadsBack source body ts rest t := by
  refine ⟨_, hread, ?_⟩
  rw [reread_eq hbranch, hleaf, ← hsame, unplaced_eq]
  rfl

theorem nextKind_forms (e : Expr) (hts : Spells ts (e.forms ++ fs) rest) : nextKind ts ∈ Expr.starts := by
  obtain ⟨kind, value, gs, hforms, hstarts⟩ := e.exists_forms_cons
  rw [hforms] at hts
  obtain ⟨u, us, rfl, hu, -, -⟩ := hts.cons
  have hnext : nextKind (u :: us) = kind := hu
  rwa [hnext]

theorem nextKind_arguments (e : Expr) (es : List Expr)
    (hts : Spells ts (argumentForms (e :: es) ++ fs) rest) :
    nextKind ts ∈ Expr.starts := by
  cases es with
  | nil => exact nextKind_forms e hts
  | cons e' es =>
    rw [argumentForms, List.append_assoc] at hts
    · exact nextKind_forms e hts
    · rintro ⟨⟩

theorem readsBack_interpolation {t : Tree} {e : Expr} (hkind : t.kind = .interpolation e) (he : e.Written 0)
    (hleaf : t.children = []) (hts : Spells ts (Kind.interpolation e).openForms rest) :
    ReadsBack source body ts rest t := by
  obtain ⟨o, ts, rfl, ho, -, hts⟩ := hts.cons
  have hstarts := nextKind_forms e hts
  obtain ⟨e', c, mid, hread, hsame, hc, hmid⟩ := read_spelled source he (.inl rfl) hts
  obtain rfl := hmid.nil
  have hsame : (Kind.interpolation e').unplaced = t.kind.unplaced := hkind ▸ congrArg Kind.interpolation hsame
  refine readsBack_plain (by rw [hkind]; nofun) hleaf hsame o.first c.last ?_
  rw [readElement_opening ho]
  split
  · next h => exact absurd (h ▸ hstarts) (by decide)
  · next h => exact absurd (h ▸ hstarts) (by decide)
  · simp only [readInterpolation, hread, expect_cons hc, bind, Except.bind, pure, Except.pure]

theorem readsBack_assignment {t : Tree} {target : String} {e : Expr} (hkind : t.kind = .assignment target e)
    (he : e.Written 0) (hleaf : t.children = []) (hts : Spells ts (Kind.assignment target e).openForms rest) :
    ReadsBack source body ts rest t := by
  obtain ⟨o, name, ts, hts, hname, hvalue, hread⟩ := readElement_directive source body hts
  obtain ⟨ts, hexpect, hts⟩ := expectName_spelled hts
  obtain ⟨m, ts, rfl, hm, -, hts⟩ := hts.cons
  obtain ⟨e', c, mid, hreadValue, hsame, hc, hmid⟩ := read_spelled source he (.inl rfl) hts
  obtain rfl := hmid.nil
  have hnext : nextKind (m :: ts) = .equal := hm
  have hsame : (Kind.assignment target e').unplaced = t.kind.unplaced :=
    hkind ▸ congrArg (Kind.assignment target) hsame
  refine readsBack_plain (by rw [hkind]; nofun) hleaf hsame o.first c.last ?_
  rw [hread, readDirective]
  simp only [hname, hvalue, readAssignment, hexpect, hnext, List.drop_succ_cons, List.drop_zero,
    hreadValue, expect_cons hc, bind, Except.bind, pure, Except.pure]
  rfl

theorem readsBack_call {t : Tree} {name : String} {arguments : List Expr}
    (hkind : t.kind = .call name arguments) (h : ∀ e ∈ arguments, e.Written 0) (hleaf : t.children = [])
    (hts : Spells ts (Kind.call name arguments).openForms rest) : ReadsBack source body ts rest t := by
  obtain ⟨o, ts, rfl, ho, -, hts⟩ := hts.cons
  obtain ⟨m, ts, rfl, hm, -, hts⟩ := hts.cons
  obtain ⟨ts, hexpect, hts⟩ := expectName_spelled hts
  have hnext : ∀ us, nextKind (m :: us) = .atSign := fun _ => hm
  cases arguments with
  | nil =>
    obtain ⟨c, ts, rfl, hc, -, hts⟩ := hts.cons
    obtain rfl := hts.nil
    have hclosing : nextKind (c :: ts) = .closing := hc
    have hsame : (Kind.call name []).unplaced = t.kind.unplaced := hkind ▸ rfl
    refine readsBack_plain (by rw [hkind]; nofun) hleaf hsame o.first c.last ?_
    rw [readElement_opening ho, hnext]
    simp only [List.drop_succ_cons, List.drop_zero, readCall, hexpect, hclosing, expect_cons hc,
      bind, Except.bind, pure, Except.pure, if_true]
  | cons e es =>
    have hstarts := nextKind_arguments e es hts
    have hstart : ¬ nextKind ts = .closing := fun hclosing => absurd (hclosing ▸ hstarts) (by decide)
    obtain ⟨es', c, mid, hread, hsame, hc, hmid⟩ := readArguments_spelled source h (Nat.le_refl _) hts
    obtain rfl := hmid.nil
    have hsame : (Kind.call name es').unplaced = t.kind.unplaced := hkind ▸ congrArg (Kind.call name) hsame
    refine readsBack_plain (by rw [hkind]; nofun) hleaf hsame o.first c.last ?_
    rw [readElement_opening ho, hnext]
    simp only [List.drop_succ_cons, List.drop_zero, readCall, hexpect, if_neg hstart, hread,
      expect_cons hc, bind, Except.bind, pure, Except.pure]

theorem readsBack_inclusion {t : Tree} {path : Expr} (hkind : t.kind = .inclusion path) (h : path.Written 0)
    (hleaf : t.children = []) (hts : Spells ts (Kind.inclusion path).openForms rest) :
    ReadsBack source body ts rest t := by
  obtain ⟨o, name, ts, hts, hname, hvalue, hread⟩ := readElement_directive source body hts
  obtain ⟨e', c, mid, hreadPath, hsame, hc, hmid⟩ := read_spelled source h (.inl rfl) hts
  obtain rfl := hmid.nil
  have hsame : (Kind.inclusion e').unplaced = t.kind.unplaced := hkind ▸ congrArg Kind.inclusion hsame
  refine readsBack_plain (by rw [hkind]; nofun) hleaf hsame o.first c.last ?_
  rw [hread, readDirective]
  simp only [hname, hvalue, readInclusion, hreadPath, expect_cons hc, bind, Except.bind, pure, Except.pure]
  rfl

/-- An element without a body is read back from its tag. -/
theorem readsBack_leaf {t : Tree} (hwritten : t.kind.Written) (hbody : t.kind.hasBody = false)
    (htext : ∀ s trimmed, t.kind ≠ .text s trimmed) (hleaf : t.children = [])
    (hts : Spells ts t.kind.openForms rest) :
    ReadsBack source body ts rest t := by
  cases hkind : t.kind with
  | sequence => exact (hkind ▸ hwritten : Kind.sequence.Written).elim
  | text s trimmed => exact absurd hkind (htext s trimmed)
  | ifBlock | conditional | list | capture | definition => rw [hkind] at hbody; cases hbody
  | interpolation e =>
    rw [hkind] at hwritten hts
    exact readsBack_interpolation hkind hwritten hleaf hts
  | assignment target e =>
    rw [hkind] at hwritten hts
    exact readsBack_assignment hkind hwritten.2 hleaf hts
  | call name arguments =>
    rw [hkind] at hwritten hts
    exact readsBack_call hkind hwritten.2 hleaf hts
  | inclusion path =>
    rw [hkind] at hwritten hts
    exact readsBack_inclusion hkind hwritten hleaf hts
  | comment s =>
    rw [hkind] at hts
    obtain ⟨c, ts, rfl, hc, hvalue, hts⟩ := hts.cons
    obtain rfl := hts.nil
    have hsame : (Kind.comment s).unplaced = t.kind.unplaced := hkind ▸ rfl
    refine readsBack_plain (by rw [hkind]; nofun) hleaf hsame c.first c.last ?_
    simp only [readElement, hc, hvalue]

/-! ### Elements with a body -/

/-- No element begins here. -/
def EndsHere (ts : List Token) : Prop := nextKind ts = .eof ∨ endsBody ts = true

/-- A reader of bodies reads some elements back. -/
def RereadsBody (body : Reader (List Tree)) (children : List Tree) : Prop :=
  ∀ ⦃ts rest : List Token⦄, Spells ts (formsAfter [] children) rest → EndsHere rest →
    ∃ us, body ts = .ok (us, rest) ∧ unplaceds us = rereadAfter [] children

theorem endsHere_close {b : Block} (h : Spells ts (Kind.closeForms b ++ fs) rest) : EndsHere ts := by
  rw [Kind.closeForms, Kind.tagForms] at h
  obtain ⟨o, ts, rfl, ho, -, h⟩ := h.cons
  obtain ⟨s, ts, rfl, hs, -, h⟩ := h.cons
  have hopening : nextKind (o :: s :: ts) = .opening := ho
  have hslash : nextKind (s :: ts) = .slash := hs
  refine .inr ?_
  rw [endsBody, hopening, List.drop_succ_cons, List.drop_zero, hslash]
  rfl

theorem branchAhead?_close {b : Block} (h : Spells ts (Kind.closeForms b ++ fs) rest) :
    branchAhead? ts = none := by
  rw [Kind.closeForms, Kind.tagForms] at h
  obtain ⟨o, ts, rfl, ho, -, h⟩ := h.cons
  obtain ⟨s, ts, rfl, hs, -, h⟩ := h.cons
  obtain ⟨name, ts, rfl, hname, hvalue, h⟩ := h.cons
  rw [branchAhead?, if_neg]
  rintro ⟨-, hhash, -⟩
  rw [hs] at hhash
  cases hhash

/-- A body and the tag that closes it. -/
theorem readBody_closed {children : List Tree} {b : Block} (hbody : RereadsBody body children)
    (hts : Spells ts (formsAfter [] children ++ Kind.closeForms b) rest) (opened : Token) :
    ∃ us mid last, body ts = .ok (us, mid) ∧ readClosing b opened mid = .ok (last, rest) ∧
      branchAhead? mid = none ∧
      unplaceds us = rereadAfter [] children := by
  obtain ⟨mid, hchildren, hclose⟩ := hts.append
  rw [← List.append_nil (Kind.closeForms b)] at hclose
  obtain ⟨us, hread, hsame⟩ := hbody hchildren (endsHere_close hclose)
  obtain ⟨last, mid', hreadClosing, hmid'⟩ := readClosing_spelled opened hclose
  obtain rfl := hmid'.nil
  exact ⟨us, mid, last, hread, hreadClosing, branchAhead?_close hclose, hsame⟩

theorem readsBack_list {t : Tree} {items : Expr} {item : String} (hkind : t.kind = .list items item)
    (hitems : items.Written 0) (hbody : RereadsBody body t.children) (hts : Spells ts t.forms rest) :
    ReadsBack source body ts rest t := by
  rw [forms_eq, hkind] at hts
  obtain ⟨mid, hopen, hrest⟩ := hts.append
  obtain ⟨o, name, ts, hts, hname, hvalue, hread⟩ := readElement_directive source body hopen
  rw [List.append_assoc] at hts
  obtain ⟨items', a, ts, hreadItems, hsame, ha, hts⟩ := read_spelled source hitems (.inr (.inl rfl)) hts
  obtain ⟨ts, hitem, hts⟩ := expectName_spelled hts
  obtain ⟨c, ts, rfl, hc, -, hts⟩ := hts.cons
  obtain rfl := hts.nil
  obtain ⟨us, mid, last, hreadBody, hclose, -, hsameBody⟩ := readBody_closed hbody hrest o
  refine ⟨plain (.list items' item) source o.first last us, ?_, ?_⟩
  · rw [hread, readDirective]
    simp only [hname, hvalue, readList, hreadItems, expect_cons ha, hitem, expect_cons hc, hreadBody,
      hclose, bind, Except.bind, pure, Except.pure]
    rfl
  · rw [reread_eq (by rw [hkind]; rintro _ _ ⟨⟩), hkind, ← hsameBody, unplaced_eq]
    simp only [plain, Kind.unplaced, hsame]

theorem readsBack_capture {t : Tree} {target : String} (hkind : t.kind = .capture target)
    (hbody : RereadsBody body t.children) (hts : Spells ts t.forms rest) :
    ReadsBack source body ts rest t := by
  rw [forms_eq, hkind] at hts
  obtain ⟨mid, hopen, hrest⟩ := hts.append
  obtain ⟨o, name, ts, hts, hname, hvalue, hread⟩ := readElement_directive source body hopen
  obtain ⟨ts, htarget, hts⟩ := expectName_spelled hts
  obtain ⟨c, ts, rfl, hc, -, hts⟩ := hts.cons
  obtain rfl := hts.nil
  obtain ⟨us, mid, last, hreadBody, hclose, -, hsameBody⟩ := readBody_closed hbody hrest o
  have hnext : ¬ nextKind (c :: ts) = .equal := by
    change ¬ c.kind = .equal
    rw [hc]
    decide
  refine ⟨plain (.capture target) source o.first last us, ?_, ?_⟩
  · rw [hread, readDirective]
    simp only [hname, hvalue, readAssignment, htarget, if_neg hnext, expect_cons hc, hreadBody,
      hclose, bind, Except.bind, pure, Except.pure]
    rfl
  · rw [reread_eq (by rw [hkind]; rintro _ _ ⟨⟩), hkind, ← hsameBody, unplaced_eq]
    rfl

theorem readsBack_definition {t : Tree} {name : String} {parameters : List String}
    (hkind : t.kind = .definition name parameters) (hnodup : parameters.Nodup)
    (hbody : RereadsBody body t.children) (hts : Spells ts t.forms rest) :
    ReadsBack source body ts rest t := by
  rw [forms_eq, hkind] at hts
  obtain ⟨mid, hopen, hrest⟩ := hts.append
  obtain ⟨o, word, ts, hts, hword, hvalue, hread⟩ := readElement_directive source body hopen
  obtain ⟨ts, hname, hts⟩ := expectName_spelled hts
  obtain ⟨ts', hparameters, hts'⟩ := hts.append
  obtain ⟨c, ts', rfl, hc, -, hts'⟩ := hts'.cons
  obtain rfl := hts'.nil
  obtain ⟨us, mid, last, hreadBody, hclose, -, hsameBody⟩ := readBody_closed hbody hrest o
  have hreadParameters : readParameters [] _ = .ok ([] ++ parameters, _) :=
    readParameters_spelled (by rwa [List.nil_append]) hparameters hc
  refine ⟨plain (.definition name parameters) source o.first last us, ?_, ?_⟩
  · rw [hread, readDirective]
    simp only [hword, hvalue, readDefinition, hname, hreadParameters, expect_cons hc, hreadBody,
      hclose, bind, Except.bind, pure, Except.pure]
    rfl
  · rw [reread_eq (by rw [hkind]; rintro _ _ ⟨⟩), hkind, ← hsameBody, unplaced_eq]
    rfl

/-! ### Branches -/

variable (source) in
theorem readCondition_spelled {branch : Branch} {condition : Option Expr}
    (h : (Kind.conditional branch condition).Written) {value : String}
    (hts : Spells ts ((condition.map Expr.forms).getD [] ++ (.closing, value) :: fs) rest) :
    ∃ condition' c mid, readCondition source branch ts = .ok (condition', c :: mid) ∧ c.kind = .closing ∧
      Spells mid fs rest ∧
      condition'.map Expr.unplaced = condition.map Expr.unplaced := by
  obtain ⟨hotherwise, hwritten⟩ := h
  cases condition with
  | none =>
    obtain rfl := hotherwise.2 rfl
    obtain ⟨c, mid, rfl, hc, -, hmid⟩ := hts.cons
    exact ⟨none, c, mid, rfl, hc, hmid, rfl⟩
  | some e =>
    obtain ⟨e', c, mid, hread, hsame, hc, hmid⟩ := read_spelled source (hwritten e rfl) (.inl rfl) hts
    have hbranch : branch ≠ .otherwise := fun h => by cases hotherwise.1 h
    refine ⟨some e', c, mid, ?_, hc, hmid, congrArg some hsame⟩
    cases branch with
    | otherwise => exact absurd rfl hbranch
    | main | elseIf => simp only [readCondition, hread, bind, Except.bind, pure, Except.pure]

/-- The tokens of branches after the word of the first, with the closing tag. -/
def branchForms : List Tree → List Form
  | [] => []
  | t :: ts =>
    match t.kind with
    | .conditional _ condition => (condition.map Expr.forms).getD [] ++
      TokenKind.closing.form :: (formsAfter [] t.children ++
        (formsAfter [] ts ++ Kind.closeForms .conditional))
    | _ => []

theorem branchForms_cons {t : Tree} {ts' : List Tree} {branch : Branch} {condition : Option Expr}
    (hkind : t.kind = .conditional branch condition) :
    branchForms (t :: ts') = (condition.map Expr.forms).getD [] ++
      TokenKind.closing.form :: (formsAfter [] t.children ++
        (formsAfter [] ts' ++ Kind.closeForms .conditional)) := by
  rw [branchForms, hkind]

theorem formsAfter_branch {t : Tree} (ts' : List Tree) {branch : Branch} {condition : Option Expr}
    (hkind : t.kind = .conditional branch condition) (hin : t.inBlock = true) :
    formsAfter [] (t :: ts') ++ Kind.closeForms .conditional =
      TokenKind.opening.form :: TokenKind.hash.form :: (.identifier, branch.word) ::
      branchForms (t :: ts') := by
  rw [formsAfter_element (by rw [hkind]; nofun), forms_eq, hkind, hin, branchForms_cons hkind]
  simp [textForms, Kind.openForms, Kind.directiveForms, Kind.tagForms, Kind.block?]

theorem branchAhead?_of_word {o m name : Token} (ho : o.kind = .opening) (hm : m.kind = .hash)
    (hname : name.kind = .identifier) {branch : Branch} (hvalue : name.value = branch.word)
    (ts : List Token) :
    branchAhead? (o :: m :: name :: ts) = if branch = .main then none else some branch := by
  rw [branchAhead?, if_pos ⟨ho, hm, hname⟩, hvalue]
  cases branch <;> rfl

/-- A branch between its first token and the end of its tag, with its body. -/
abbrev branchOf (source : Option Source) (branch : Branch) (condition : Option Expr) (header close : Token)
    (children : List Tree) : Tree :=
  ⟨.conditional branch condition,
    .enclosing source header.first close.last (children.getLast?.map (·.location)), true, children⟩

/-- A branch of an if block as it is read back. -/
def rereadBranch (t : Tree) : Tree := ⟨t.kind.unplaced, {}, true, rereadAfter [] t.children⟩

theorem unplaced_branchOf {t : Tree} {branch : Branch} {condition condition' : Option Expr}
    {header close : Token} {children : List Tree} (hkind : t.kind = .conditional branch condition)
    (hcondition : condition'.map Expr.unplaced = condition.map Expr.unplaced)
    (hbody : unplaceds children = rereadAfter [] t.children) :
    (branchOf source branch condition' header close children).unplaced = t.rereadBranch := by
  rw [unplaced_eq, rereadBranch, hkind, ← hbody]
  simp only [Kind.unplaced, hcondition]

variable (source opened) in
/-- The branches of an if block are read back up to its closing tag. -/
theorem readBranches_spelled {branch : Branch} {bs : List Tree} (hbranches : Branches branch bs)
    (hwritten : ∀ t ∈ bs, t.kind.Written) (hplaced : ∀ t ∈ bs.tail, t.inBlock = true)
    (hbody : ∀ t ∈ bs, RereadsBody body t.children) {bound : Nat} (hbound : ts.length ≤ bound)
    (hts : Spells ts (branchForms bs) rest) (header : Token) :
    ∃ us last, readBranches source body opened bound branch header ts = .ok ((us, last), rest) ∧
      unplaceds us = bs.map rereadBranch := by
  have hsucc : ∀ {n m : Nat}, n ≤ m → 0 < n → ∃ k, m = k + 1 := fun {n m} hle hpos => ⟨m - 1, by omega⟩
  induction hbranches generalizing ts bound header with
  | @last branch condition t hkind =>
    have hself := List.mem_singleton_self t
    have hwrittenSelf := hwritten t hself
    rw [hkind] at hwrittenSelf
    rw [branchForms_cons hkind] at hts
    have hlength := hts.length
    simp only [List.length_append, List.length_cons] at hlength
    obtain ⟨bound, rfl⟩ := hsucc hbound (by omega)
    obtain ⟨condition', c, mid, hcondition, hc, hmid, hsame⟩ := readCondition_spelled source hwrittenSelf hts
    have hnil : formsAfter [] [] = [] := by rw [formsAfter, textForms, if_pos rfl]
    rw [hnil, List.nil_append] at hmid
    obtain ⟨children, mid', last, hread, hclose, hahead, hsameBody⟩ :=
      readBody_closed (hbody t hself) hmid opened
    refine ⟨[branchOf source branch condition' header c children], last, ?_, ?_⟩
    · rw [readBranches_succ]
      simp only [hcondition, expect_cons hc, hread, hahead, hclose, bind, Except.bind, pure, Except.pure]
    · rw [unplaceds_cons, unplaceds_nil, unplaced_branchOf hkind hsame hsameBody]
      rfl
  | @more branch next condition t bs hkind hbranch hnext hrest ih =>
    have hwrittenSelf := hwritten t List.mem_cons_self
    rw [hkind] at hwrittenSelf
    rw [branchForms_cons hkind] at hts
    have hlength := hts.length
    simp only [List.length_append, List.length_cons] at hlength
    obtain ⟨bound, rfl⟩ := hsucc hbound (by omega)
    obtain ⟨condition', c, mid, hcondition, hc, hmid, hsame⟩ := readCondition_spelled source hwrittenSelf hts
    have hlength' := hmid.length
    obtain ⟨mid', hchildren, hlater⟩ := hmid.append
    have hlength'' := hlater.length
    obtain ⟨b, bs, condition'', rfl, hkindNext⟩ := hrest.exists_cons
    rw [formsAfter_branch bs hkindNext (hplaced b List.mem_cons_self)] at hlater
    obtain ⟨o, later, rfl, ho, -, hlater⟩ := hlater.cons
    obtain ⟨m, later, rfl, hm, -, hlater⟩ := hlater.cons
    obtain ⟨name, later, rfl, hname, hvalue, hlater⟩ := hlater.cons
    have hahead : branchAhead? (o :: m :: name :: later) = some next := by
      rw [branchAhead?_of_word ho hm hname hvalue, if_neg hnext]
    have hends : EndsHere (o :: m :: name :: later) :=
      .inr (by rw [endsBody, hahead, Option.isSome_some, Bool.or_true])
    obtain ⟨children, hread, hsameBody⟩ := hbody t List.mem_cons_self hchildren hends
    simp only [List.length_append, List.length_cons] at hlength' hlength''
    obtain ⟨us, last, hreadLater, hsameLater⟩ := ih (fun u hu => hwritten u (List.mem_cons_of_mem t hu))
      (fun u hu => hplaced u (List.mem_cons_of_mem b hu)) (fun u hu => hbody u (List.mem_cons_of_mem t hu))
      (show later.length ≤ bound by omega) hlater o
    refine ⟨branchOf source branch condition' header c children :: us, last, ?_, ?_⟩
    · rw [readBranches_succ]
      simp only [hcondition, expect_cons hc, hread, hahead, if_neg hbranch, List.head?_cons, Option.getD_some,
        List.drop_succ_cons, List.drop_zero, hreadLater, bind, Except.bind, pure, Except.pure]
    · rw [unplaceds_cons, hsameLater, unplaced_branchOf hkind hsame hsameBody]
      rfl

variable (source) in
theorem readIf_spelled {bs : List Tree} (hbranches : Branches .main bs) (hwritten : ∀ t ∈ bs, t.kind.Written)
    (hplaced : ∀ t ∈ bs.tail, t.inBlock = true) (hbody : ∀ t ∈ bs, RereadsBody body t.children)
    (hts : Spells ts (TokenKind.opening.form :: TokenKind.hash.form :: (.identifier, "if") ::
      branchForms bs) rest) :
    ∃ u, readElement source body ts = .ok (u, rest) ∧
    u.unplaced = ⟨.ifBlock, {}, false, bs.map rereadBranch⟩ := by
  obtain ⟨o, ts, rfl, ho, -, hts⟩ := hts.cons
  obtain ⟨m, ts, rfl, hm, -, hts⟩ := hts.cons
  obtain ⟨name, ts, rfl, hname, hvalue, hts⟩ := hts.cons
  obtain ⟨us, last, hread, hsame⟩ :=
    readBranches_spelled source o hbranches hwritten hplaced hbody (Nat.le_refl _) hts o
  have hnext : nextKind (m :: name :: ts) = .hash := hm
  refine ⟨plain .ifBlock source o.first last us, ?_, ?_⟩
  swap
  · rw [unplaced_eq, ← hsame]
    rfl
  rw [readElement_opening ho, hnext]
  simp only [List.drop_succ_cons, List.drop_zero, readDirective, hname, hvalue, readIf, hread,
    bind, Except.bind, pure, Except.pure]
  rfl

theorem rereadAfter_branches {bs : List Tree}
    (hkinds : ∀ b ∈ bs, ∃ branch condition, b.kind = .conditional branch condition)
    (hplaced : ∀ b ∈ bs, b.inBlock = true) : rereadAfter [] bs = bs.map rereadBranch := by
  induction bs with
  | nil => rfl
  | cons b bs ih =>
    obtain ⟨⟨branch, condition, hkind⟩, hkinds⟩ := List.forall_mem_cons.1 hkinds
    obtain ⟨hin, hplaced⟩ := List.forall_mem_cons.1 hplaced
    rw [rereadAfter_element (by rw [hkind]; nofun), ih hkinds hplaced, reread_branch hkind, if_pos hin]
    rfl

theorem readsBack_ifBlock {t : Tree} (hkind : t.kind = .ifBlock) (hbranches : Branches .main t.children)
    (hwritten : ∀ b ∈ t.children, b.kind.Written) (hplaced : ∀ b ∈ t.children, b.inBlock = true)
    (hbody : ∀ b ∈ t.children, RereadsBody body b.children) (hts : Spells ts t.forms rest) :
    ReadsBack source body ts rest t := by
  have hforms : t.forms = TokenKind.opening.form :: TokenKind.hash.form :: (.identifier, "if") ::
      branchForms t.children := by
    obtain ⟨b, bs, condition, hchildren, hmain⟩ := hbranches.exists_cons
    rw [hchildren] at hplaced
    have hbranch := formsAfter_branch bs hmain (hplaced b List.mem_cons_self)
    rw [forms_eq, hkind, hchildren]
    exact hbranch
  rw [hforms] at hts
  obtain ⟨u, hread, hsame⟩ :=
    readIf_spelled source hbranches hwritten (fun b hb => hplaced b (List.mem_of_mem_tail hb)) hbody hts
  refine ⟨u, hread, ?_⟩
  rw [hsame, reread_eq (by rw [hkind]; nofun), hkind, rereadAfter_branches hbranches.conditional hplaced]
  rfl

/-- A branch that stands alone comes to stand in an if block. -/
theorem readsBack_conditional {t : Tree} {condition : Option Expr}
    (hkind : t.kind = .conditional .main condition) (hwritten : t.kind.Written) (hin : t.inBlock = false)
    (hbody : RereadsBody body t.children) (hts : Spells ts t.forms rest) :
    ReadsBack source body ts rest t := by
  have hforms : t.forms = TokenKind.opening.form :: TokenKind.hash.form :: (.identifier, "if") ::
      branchForms [t] := by
    rw [forms_eq, branchForms_cons hkind, hkind, hin]
    simp [formsAfter, textForms, Kind.openForms, Kind.directiveForms, Kind.tagForms, Kind.block?, Branch.word]
  rw [hforms] at hts
  obtain ⟨u, hread, hsame⟩ := readIf_spelled source (.last hkind) (by simpa using hwritten) (by simp)
    (fun b hb => by obtain rfl := List.mem_singleton.1 hb; exact hbody) hts
  refine ⟨u, hread, ?_⟩
  rw [hsame, reread_branch hkind, hin, if_neg Bool.false_ne_true]
  rfl

/-! ### Bodies -/

/-- The reader of bodies reads some elements back after any text. -/
def Rereads (source : Option Source) (ts : List Tree) : Prop :=
  ∀ ⦃before : List Char⦄ ⦃bound : Nat⦄ ⦃tokens rest : List Token⦄, (formsAfter before ts).length ≤ bound →
    Spells tokens (formsAfter before ts) rest → EndsHere rest →
    ∃ us, readBody source bound tokens = .ok (us, rest) ∧ unplaceds us = rereadAfter before ts

theorem Rereads.rereadsBody {children : List Tree} (h : Rereads source children) {bound : Nat}
    (hbound : (formsAfter [] children).length ≤ bound) : RereadsBody (readBody source bound) children :=
  fun _ _ hts hrest => h hbound hts hrest

theorem readBody_of_endsHere (h : EndsHere ts) (bound : Nat) : readBody source bound ts = .ok ([], ts) := by
  cases bound with
  | zero => rfl
  | succ bound =>
    rw [readBody, if_pos]
    rcases h with h | h
    · rw [h]
      rfl
    · rw [h, Bool.or_true]

theorem not_endsHere_cons {t : Token} (h : t.kind ≠ .eof ∧ t.kind ≠ .opening) (ts : List Token) :
    ¬ EndsHere (t :: ts) := by
  have hnext : nextKind (t :: ts) = t.kind := rfl
  have hahead : branchAhead? (t :: ts) = none := by
    unfold branchAhead?
    split
    · next hts =>
      obtain ⟨rfl, -⟩ := List.cons.inj hts
      rw [if_neg fun hbranch => h.2 hbranch.1]
    · rfl
  rintro (hends | hends)
  · exact h.1 hends
  · rw [endsBody, hnext, hahead] at hends
    simp only [Bool.or_eq_true, Bool.and_eq_true, beq_iff_eq, Option.isSome_none,
      Bool.false_eq_true, or_false] at hends
    exact h.2 hends.1

theorem not_endsHere_opening {o m : Token} (ho : o.kind = .opening)
    (hm : m.kind ≠ .slash ∧ m.kind ≠ .hash) (ts : List Token) :
    ¬ EndsHere (o :: m :: ts) := by
  have hnext : nextKind (o :: m :: ts) = .opening := ho
  have hnext' : nextKind ((o :: m :: ts).drop 1) = m.kind := rfl
  rintro (h | h)
  · rw [hnext] at h
    cases h
  · have hahead : branchAhead? (o :: m :: ts) = none := by
      unfold branchAhead?
      split
      · next hts =>
        obtain ⟨-, hts⟩ := List.cons.inj hts
        obtain ⟨rfl, -⟩ := List.cons.inj hts
        rw [if_neg fun h => hm.2 h.2.1]
      · rfl
    rw [endsBody, hnext, hnext', hahead] at h
    simp only [beq_self_eq_true, Bool.true_and, Option.isSome_none, Bool.or_false, beq_iff_eq] at h
    exact hm.1 h

theorem not_endsHere_directive {word : String} (hword : word ≠ "elseif" ∧ word ≠ "else")
    (h : Spells ts (TokenKind.opening.form :: TokenKind.hash.form :: (.identifier, word) :: fs) rest) :
    ¬ EndsHere ts := by
  obtain ⟨o, ts, rfl, ho, -, h⟩ := h.cons
  obtain ⟨m, ts, rfl, hm, -, h⟩ := h.cons
  obtain ⟨name, ts, rfl, hname, hvalue, -⟩ := h.cons
  have hnext : nextKind (o :: m :: name :: ts) = .opening := ho
  have hnext' : nextKind ((o :: m :: name :: ts).drop 1) = .hash := hm
  rintro (h | h)
  · rw [hnext] at h
    cases h
  · rw [endsBody, hnext, hnext', branchAhead?, if_pos ⟨ho, hm, hname⟩, hvalue, if_neg hword.1,
      if_neg hword.2] at h
    cases h

/-- An element is no end of a body. -/
theorem not_endsHere_element {t : Tree} (htext : ∀ s trimmed, t.kind ≠ .text s trimmed)
    (h : Written false [t]) (hplaced : Placed false [t]) (hts : Spells ts (t.forms ++ fs) rest) :
    ¬ EndsHere ts := by
  cases h with
  | cons hwritten leaf block outside inside body tail =>
    obtain ⟨hin, hplacedBody, -⟩ := placed_cons.1 hplaced
    rw [forms_eq] at hts
    generalize hkind : t.kind = kind at *
    cases kind with
    | sequence => exact hwritten.elim
    | text s trimmed => exact absurd rfl (htext s trimmed)
    | ifBlock =>
      obtain ⟨b, bs, condition, hchildren, hmain⟩ := (block rfl).exists_cons
      rw [hchildren] at hts hplacedBody
      have hforms := formsAfter_branch bs hmain (placed_cons.1 hplacedBody).1
      change Spells ts ((formsAfter [] (b :: bs) ++ Kind.closeForms .conditional) ++ fs) rest at hts
      rw [hforms] at hts
      exact not_endsHere_directive (by decide) hts
    | interpolation e =>
      obtain ⟨o, ts, rfl, ho, -, hts⟩ := hts.cons
      obtain ⟨kind, value, gs, hforms, hstarts⟩ := e.exists_forms_cons
      rw [hforms] at hts
      obtain ⟨m, ts, rfl, hm, -, -⟩ := hts.cons
      refine not_endsHere_opening ho ?_ ts
      rw [hm]
      constructor <;> rintro rfl <;> exact absurd hstarts (by decide)
    | call name arguments =>
      obtain ⟨o, ts, rfl, ho, -, hts⟩ := hts.cons
      obtain ⟨m, ts, rfl, hm, -, -⟩ := hts.cons
      refine not_endsHere_opening ho ?_ ts
      rw [hm]
      decide
    | comment s =>
      obtain ⟨c, ts, rfl, hc, -, -⟩ := hts.cons
      exact not_endsHere_cons (by rw [hc]; decide) ts
    | conditional branch condition =>
      obtain rfl := outside rfl branch condition rfl
      exact not_endsHere_directive (by decide) hts
    | list | assignment | capture | definition | inclusion => exact not_endsHere_directive (by decide) hts

theorem readBody_cons {bound : Nat} {u : Tree} {us : List Tree} {mid : List Token} (h : ¬ EndsHere ts)
    (helement : readElement source (readBody source bound) ts = .ok (u, mid))
    (hlater : readBody source bound mid = .ok (us, rest)) :
    readBody source (bound + 1) ts = .ok (u :: us, rest) := by
  have hgoes : ¬ (nextKind ts = .eof || endsBody ts) = true := by
    rw [Bool.or_eq_true, decide_eq_true_eq]
    exact h
  rw [readBody, if_neg hgoes]
  simp only [helement, hlater, bind, Except.bind, pure, Except.pure]

/-- Text before elements is read as one text. -/
theorem readBody_text {before : List Char} {us vs : List Tree} {bound : Nat} {mid : List Token}
    (hts : Spells ts (textForms before) mid) (hread : readBody source bound mid = .ok (us, rest))
    (hsame : unplaceds us = vs) :
    ∃ us', readBody source (bound + (textForms before).length) ts = .ok (us', rest) ∧
    unplaceds us' = textOf before ++ vs := by
  by_cases hnone : before = []
  · rw [textForms, if_pos hnone] at hts ⊢
    obtain rfl := hts.nil
    exact ⟨us, hread, by rw [textOf, if_pos hnone, hsame, List.nil_append]⟩
  · rw [textForms, if_neg hnone] at hts ⊢
    obtain ⟨t, ts, rfl, ht, hvalue, hts⟩ := hts.cons
    obtain rfl := hts.nil
    have helement : readElement source (readBody source bound) (t :: ts) =
        .ok (plain (.text (String.ofList before) false) source t.first t.last [], ts) := by
      simp only [readElement, ht, hvalue]
    refine ⟨_, readBody_cons (not_endsHere_cons (by rw [ht]; decide) ts) helement hread, ?_⟩
    rw [unplaceds_cons, unplaced_eq, hsame, textOf, if_neg hnone]
    rfl

theorem placed_inBlock {bs : List Tree} (h : Placed true bs) : ∀ b ∈ bs, b.inBlock = true := by
  induction bs with
  | nil => nofun
  | cons b bs ih =>
    obtain ⟨hin, -, htail⟩ := placed_cons.1 h
    exact List.forall_mem_cons.2 ⟨hin, ih htail⟩

theorem Written.kind {branches : Bool} {ts' : List Tree} (h : Written branches ts') :
    ∀ t ∈ ts', t.kind.Written := by
  induction h with
  | nil => nofun
  | cons kind _ _ _ _ _ _ _ ihTail => exact List.forall_mem_cons.2 ⟨kind, ihTail⟩

/-- An element is read back, if its body or the bodies of its branches are. -/
theorem readsBack_element {t : Tree} (htext : ∀ s trimmed, t.kind ≠ .text s trimmed) (h : Written false [t])
    (hplaced : Placed false [t]) (hbody : t.kind.isIfBlock = false → RereadsBody body t.children)
    (hbranches : t.kind.isIfBlock = true → ∀ b ∈ t.children, RereadsBody body b.children)
    (hts : Spells ts t.forms rest) :
    ReadsBack source body ts rest t := by
  cases h with
  | cons hwritten leaf block outside inside bodyWritten tail =>
    obtain ⟨hin, hplacedBody, -⟩ := placed_cons.1 hplaced
    have hleaf : t.kind.hasBody = false → t.kind.block? t.inBlock = none →
        ReadsBack source body ts rest t := by
      intro hnobody hnone
      have hchildren := leaf hnobody
      rw [forms_eq, hchildren, hnone, formsAfter, textForms, if_pos rfl] at hts
      rw [Option.map_none, Option.getD_none, List.append_nil, List.append_nil] at hts
      exact readsBack_leaf hwritten hnobody htext hchildren hts
    generalize hkind : t.kind = kind at *
    cases kind with
    | sequence => exact hwritten.elim
    | text s trimmed => exact absurd rfl (htext s trimmed)
    | interpolation | assignment | call | inclusion | comment => exact hleaf rfl rfl
    | ifBlock => exact readsBack_ifBlock hkind (block rfl) bodyWritten.kind (placed_inBlock
      hplacedBody) (hbranches rfl) hts
    | conditional branch condition =>
      obtain rfl := outside rfl branch condition rfl
      exact readsBack_conditional hkind (by rwa [hkind]) hin (hbody rfl) hts
    | list source item => exact readsBack_list hkind hwritten.1 (hbody rfl) hts
    | capture target => exact readsBack_capture hkind (hbody rfl) hts
    | definition name parameters => exact readsBack_definition hkind hwritten.2.2 (hbody rfl) hts

theorem length_forms {t : Tree} (htext : ∀ s trimmed, t.kind ≠ .text s trimmed) (h : Written false [t])
    (hplaced : Placed false [t]) : (formsAfter [] t.children).length < t.forms.length := by
  cases h with
  | cons hwritten leaf block outside inside body tail =>
    obtain ⟨hin, -, -⟩ := placed_cons.1 hplaced
    rw [forms_eq, hin]
    generalize t.kind = kind at *
    cases kind with
    | sequence => exact hwritten.elim
    | text s trimmed => exact absurd rfl (htext s trimmed)
    | ifBlock =>
      simp only [Kind.block?, Kind.closeForms, Kind.tagForms, Option.map_some, Option.getD_some,
        List.length_append, List.length_cons]
      omega
    | _ =>
      simp only [Kind.openForms, Kind.directiveForms, Kind.tagForms, List.length_append, List.length_cons]
      omega

theorem length_formsAfter_branch {b : Tree} {bs : List Tree} (hb : b ∈ bs) (h : Written true bs) :
    (formsAfter [] b.children).length ≤ (formsAfter [] bs).length := by
  induction bs with
  | nil => cases hb
  | cons t bs ih =>
    cases h with
    | cons hwritten leaf block outside inside body tail =>
      obtain ⟨branch, condition, hkind⟩ := inside rfl
      rw [formsAfter_element (by rw [hkind]; nofun), forms_eq]
      simp only [List.length_append]
      rcases List.mem_cons.1 hb with rfl | hb
      · omega
      · have hle := ih hb tail
        omega

variable (source) in
/-- What can be written is read back, element by element. -/
theorem rereads {branches : Bool} {ts : List Tree} (h : Written branches ts) (hplaced : Placed branches ts) :
    (branches = false → Rereads source ts) ∧ (branches = true → ∀ b ∈ ts, Rereads source b.children) := by
  induction h with
  | nil =>
    refine ⟨fun _ => ?_, nofun⟩
    intro before bound tokens rest hbound hts hrest
    rw [formsAfter] at hbound hts
    obtain ⟨us, hread, hsame⟩ := readBody_text hts
      (readBody_of_endsHere hrest (bound - (textForms before).length)) unplaceds_nil
    rw [Nat.sub_add_cancel hbound] at hread
    exact ⟨us, hread, by rw [hsame, List.append_nil, rereadAfter]⟩
  | @cons branches t ts kind leaf block outside inside body tail ihBody ihTail =>
    obtain ⟨hin, hplacedBody, hplacedTail⟩ := placed_cons.1 hplaced
    have hself : Written branches [t] := .cons kind leaf block outside inside body .nil
    have hplacedSelf : Placed branches [t] := placed_cons.2 ⟨hin, hplacedBody, by rw [Placed]; trivial⟩
    refine ⟨?_, ?_⟩
    · rintro rfl
      intro before bound tokens rest hbound hts hrest
      obtain ⟨s, trimmed, hkind⟩ | htext := t.kind.text_or_ne
      · rw [formsAfter_text hkind] at hbound hts
        rw [rereadAfter_text hkind]
        exact (ihTail hplacedTail).1 rfl hbound hts hrest
      · have hlength := length_forms htext hself hplacedSelf
        rw [formsAfter_element htext] at hbound hts
        simp only [List.length_append] at hbound
        obtain ⟨bound, rfl⟩ : ∃ k, bound = k + 1 + (textForms before).length :=
          ⟨bound - 1 - (textForms before).length, by omega⟩
        obtain ⟨mid, hbefore, hmid⟩ := hts.append
        have hends := not_endsHere_element htext hself hplacedSelf hmid
        obtain ⟨mid', helement, hlater⟩ := hmid.append
        have hbody : t.kind.isIfBlock = false →
            RereadsBody (readBody source bound) t.children := fun hblock =>
          ((ihBody hplacedBody).1 hblock).rereadsBody (by omega)
        have hbranches : t.kind.isIfBlock = true →
            ∀ b ∈ t.children, RereadsBody (readBody source bound) b.children := by
          intro hblock b hb
          have hbranch := length_formsAfter_branch hb (hblock ▸ body)
          exact ((ihBody hplacedBody).2 hblock b hb).rereadsBody (by omega)
        obtain ⟨u, hreadElement, hsameElement⟩ :=
          readsBack_element htext hself hplacedSelf hbody hbranches helement
        have htail : Rereads source ts := (ihTail hplacedTail).1 rfl
        obtain ⟨us, hreadLater, hsameLater⟩ :=
          htail (show (formsAfter [] ts).length ≤ bound by omega) hlater hrest
        rw [rereadAfter_element htext]
        refine readBody_text hbefore (readBody_cons hends hreadElement hreadLater) ?_
        rw [unplaceds_cons, hsameElement, hsameLater]
    · rintro rfl b hb
      obtain ⟨branch, condition, hkind⟩ := inside rfl
      rcases List.mem_cons.1 hb with rfl | hb
      · exact (ihBody hplacedBody).1 (by rw [hkind]; rfl)
      · exact (ihTail hplacedTail).2 rfl b hb

/-- A template whose tokens are all read before the end. -/
theorem parse_of_readBody {source : Source} {tokens : List Token} {children : List Tree} {eof : Token}
    (htokens : tokenize source.text = .ok tokens)
    (hbody : readBody (some source) tokens.length tokens = .ok (children, [eof])) (heof : eof.kind = .eof) :
    parse source = .ok ⟨.sequence, spanOf (some source) tokens, false, children⟩ := by
  simp only [parse, htokens, hbody, bind, Except.bind, ne_eq, heof, not_true_eq_false, if_false]
  rfl

/-- The elements of a tree without seams that can be written are read back from its text. -/
theorem parse_markups {ts : List Tree} (hwritten : Written false ts) (hplaced : Placed false ts)
    (hseams : hasSeams [] ts = false) (name : Option String) :
    ∃ u, Tree.parse ⟨name, markups true ts⟩ = .ok u ∧ u.kind = .sequence ∧ u.inBlock = false ∧
      unplaceds u.children = rereadAfter [] ts := by
  have hlexes := lexes_markups hwritten hplaced hseams (.inl rfl)
  rw [List.append_nil] at hlexes
  obtain ⟨mode, here, front, hmode, hfront, htokens⟩ := hlexes .text .start rfl
  obtain rfl : mode = .text := hmode
  have heof : Lexer.tokensFrom .text here [] = .ok [⟨.eof, "", here, here⟩] := by
    rw [Lexer.tokensFrom]
    rintro _ ⟨⟩
  have htokenize : tokenize (markups true ts) = .ok (front ++ [⟨.eof, "", here, here⟩]) := by
    rw [heof] at htokens
    exact htokens
  have hspells : Spells (front ++ [⟨.eof, "", here, here⟩]) (formsAfter [] ts) [⟨.eof, "", here, here⟩] :=
    ⟨front, hfront, rfl⟩
  have hbound : (formsAfter [] ts).length ≤ (front ++ [(⟨.eof, "", here, here⟩ : Token)]).length := by
    rw [hspells.length]
    omega
  have hrereads := (rereads (some ⟨name, markups true ts⟩) hwritten hplaced).1 rfl
  obtain ⟨us, hread, hsame⟩ := hrereads hbound hspells (.inl rfl)
  exact ⟨_, parse_of_readBody htokenize hread rfl, rfl, rfl, hsame⟩

end Tree

end Stencil
