import Stencil.Proofs.Cleanup.Unpadded
import Stencil.Proofs.Reading.Printing

/-! # Canonical forms read again

The canonical form of a template is read again and printed again. Where blanks are kept it is printed as
it was. Where they are stripped it may lose more of them, since what is a line of its own is decided anew,
but never anything else. -/

namespace Stencil

open Execution Shape

/-! ### Blanks that are lost -/

/-- What is left of some characters is the same without some of their blanks. -/
structure Text.LosesBlanks (cs ds : List Char) : Prop where
  sublist : ds.Sublist cs
  visible : (ds.filter fun c => !isBlank c) = cs.filter fun c => !isBlank c

namespace Text.LosesBlanks

variable {cs cs' ds ds' : List Char}

theorem refl (cs : List Char) : LosesBlanks cs cs := ⟨.refl cs, rfl⟩

theorem append (h : LosesBlanks cs ds) (h' : LosesBlanks cs' ds') : LosesBlanks (cs ++ cs') (ds ++ ds') :=
  ⟨h.sublist.append h'.sublist, by rw [List.filter_append, List.filter_append, h.visible, h'.visible]⟩

theorem of_allBlank (h : AllBlank cs) : LosesBlanks cs [] := by
  refine ⟨List.nil_sublist cs, (List.filter_eq_nil_iff.2 fun c hc => ?_).symm⟩
  rw [h c hc]
  decide

/-- Blanks at the ends are lost. -/
theorem of_ends {front kept back : List Char} (hfront : AllBlank front) (hback : AllBlank back) :
    LosesBlanks (front ++ (kept ++ back)) kept := by
  have hlost := (of_allBlank hfront).append ((refl kept).append (of_allBlank hback))
  rwa [List.nil_append, List.append_nil] at hlost

end Text.LosesBlanks

namespace Tree

/-- Blanks are never escaped. -/
theorem escapeText_of_allBlank {cs : List Char} (h : Text.AllBlank cs) : escapeText cs = cs := by
  fun_induction escapeText cs with
  | case1 => rfl
  | case2 cs _ =>
    rw [Text.allBlank_cons] at h
    exact absurd h.1 (by decide)
  | case3 c cs _ ih => rw [ih (Text.allBlank_cons.1 h).2]

theorem escapeText_ends {front kept back : List Char} (hfront : Text.AllBlank front)
    (hback : Text.AllBlank back) :
    escapeText (front ++ (kept ++ back)) = front ++ (escapeText kept ++ back) := by
  have hopens : ∀ cs, opensBetween front cs = false := by
    intro cs
    rw [opensBetween, Bool.and_eq_false_iff, beq_eq_false_iff_ne]
    refine .inl fun hlast => ?_
    exact absurd (hfront _ (List.mem_of_getLast? hlast)) (by decide)
  have hcloses : opensBetween kept back = false := by
    rw [opensBetween, Bool.and_eq_false_iff, beq_eq_false_iff_ne (a := back.head?)]
    refine .inr fun hfirst => ?_
    exact absurd (hback _ (List.mem_of_mem_head? hfirst)) (by decide)
  rw [escapeText_append (hopens _), escapeText_append hcloses, escapeText_of_allBlank hfront,
    escapeText_of_allBlank hback]

end Tree

/-! ### Other texts -/

section
variable {a : Arena} {texts texts' : ElementId → String} {ss : List Shape}

theorem Arena.ownTexts_eq {x : ElementId} {text : String} {trimmed : Bool}
    (h : (a.get x).kind = .text text trimmed) : a.ownTexts x = text := by
  rw [ownTexts, h]

theorem Tree.print_withText {kind : Kind} (htext : kind.isText = true) (s : String) (location : Location)
    (inBlock within : Bool) (children : List Tree) :
    Tree.print inBlock ⟨kind.withText s, location, within, children⟩ = escapeText s.toList := by
  cases kind with
  | text _ trimmed => exact Tree.print_text rfl
  | _ => cases htext

theorem Tree.print_withText_element {kind : Kind} (htext : kind.isText = false) (s : String)
    (location : Location) (inBlock within : Bool) (children : List Tree) :
    Tree.print inBlock ⟨kind.withText s, location, within, children⟩ =
      kind.openTag.toList ++ (Tree.prints kind.isIfBlock children ++
        (Tree.closeTag kind inBlock).toList) := by
  cases kind with
  | text => cases htext
  | _ => exact Tree.print_element fun _ _ => Kind.noConfusion

/-- What can be said of texts and is kept by putting them together can be said of what is printed. -/
theorem Shape.prints_trees {R : List Char → List Char → Prop} (hrefl : ∀ cs, R cs cs)
    (happend : ∀ {cs cs' ds ds'}, R cs ds → R cs' ds' → R (cs ++ cs') (ds ++ ds'))
    (h : ∀ x ∈ ids ss, (a.get x).kind.isText = true →
      R (Tree.escapeText (texts x).toList) (Tree.escapeText (texts' x).toList))
    (inBlock branches : Bool) :
    R (Tree.prints branches (trees a texts inBlock ss))
      (Tree.prints branches (trees a texts' inBlock ss)) := by
  induction ss using forest_induction generalizing inBlock branches with
  | nil =>
    rw [trees_nil, trees_nil]
    exact hrefl _
  | cons id parts ss ihParts ih =>
    obtain ⟨hself, hparts, hss⟩ := forall_mem_ids_cons.1 h
    rw [trees, trees, Tree.prints_cons, Tree.prints_cons]
    refine happend ?_ (ih hss inBlock branches)
    cases htext : (a.get id).kind.isText with
    | true =>
      rw [Tree.print_withText htext, Tree.print_withText htext]
      exact hself htext
    | false =>
      rw [Tree.print_withText_element htext, Tree.print_withText_element htext]
      exact happend (hrefl _) (happend (ihParts hparts _ _) (hrefl _))

theorem eq_of_sublist_append {cs cs' ds ds' : List Char} (h : cs'.Sublist cs) (h' : ds'.Sublist ds)
    (hsame : cs' ++ ds' = cs ++ ds) :
    cs' = cs ∧ ds' = ds := by
  have hlength := congrArg List.length hsame
  rw [List.length_append, List.length_append] at hlength
  have hle := h.length_le
  have hle' := h'.length_le
  exact ⟨h.eq_of_length (by omega), h'.eq_of_length (by omega)⟩

/-- If texts that may have lost characters print as those before, none has lost any. -/
theorem Shape.texts_eq_of_prints (hformed : Formed a ss) (h : ∀ x ∈ ids ss, (a.get x).kind.isText = true →
    (Tree.escapeText (texts' x).toList).Sublist (Tree.escapeText (texts x).toList)) {inBlock branches : Bool}
    (hsame : Tree.prints branches (trees a texts' inBlock ss) =
      Tree.prints branches (trees a texts inBlock ss)) :
    ∀ x ∈ ids ss, (a.get x).kind.isText = true → Tree.escapeText (texts' x).toList =
    Tree.escapeText (texts x).toList := by
  have hlost {us : List Shape} (hus : ∀ x ∈ ids us, (a.get x).kind.isText = true →
      (Tree.escapeText (texts' x).toList).Sublist (Tree.escapeText (texts x).toList))
        (inBlock branches : Bool) :
      (Tree.prints branches (trees a texts' inBlock us)).Sublist
        (Tree.prints branches (trees a texts inBlock us)) :=
    prints_trees (R := fun cs ds => ds.Sublist cs) List.Sublist.refl List.Sublist.append hus inBlock branches
  induction ss using forest_induction generalizing inBlock branches with
  | nil => simp
  | cons id parts ss ihParts ih =>
    rw [Formed] at hformed
    obtain ⟨hleaf, -, hformedParts, hformedRest⟩ := hformed
    obtain ⟨hself, hparts, hss⟩ := forall_mem_ids_cons.1 h
    rw [trees, trees, Tree.prints_cons, Tree.prints_cons] at hsame
    cases htext : (a.get id).kind.isText with
    | true =>
      have hnone : parts = [] := by
        obtain ⟨text, trimmed, hkind⟩ := Kind.exists_of_isText htext
        exact hleaf (hkind ▸ .text text trimmed)
      rw [Tree.print_withText htext, Tree.print_withText htext] at hsame
      obtain ⟨hhead, htail⟩ := eq_of_sublist_append (hself htext) (hlost hss _ _) hsame
      subst hnone
      exact forall_mem_ids_cons.2 ⟨fun _ => hhead, by simp, ih hformedRest hss htail⟩
    | false =>
      rw [Tree.print_withText_element htext, Tree.print_withText_element htext] at hsame
      have hbody := hlost hparts (a.get id).kind.isIfBlock (a.get id).kind.isIfBlock
      obtain ⟨hhead, htail⟩ := eq_of_sublist_append ((hbody.append (.refl _)).append_left _)
        (hlost hss _ _) hsame
      have hparts' := ihParts hformedParts hparts (List.append_cancel_right (List.append_cancel_left hhead))
      exact forall_mem_ids_cons.2 ⟨fun htrue => Bool.noConfusion (htext.symm.trans htrue), hparts',
        ih hformedRest hss htail⟩

theorem Tree.Each.trees {P : Kind → Prop}
    (h : ∀ x ∈ ids ss, P ((a.get x).kind.withText (texts x))) (inBlock : Bool) :
    Tree.Each P (trees a texts inBlock ss) := by
  induction ss using Shape.forest_induction generalizing inBlock with
  | nil =>
    rw [trees_nil]
    exact .nil
  | cons id parts ss ihParts ih =>
    obtain ⟨hself, hparts, hss⟩ := forall_mem_ids_cons.1 h
    rw [Shape.trees]
    exact .cons hself (ihParts hparts _) (ih hss inBlock)

end

/-! ### Templates without comments -/

theorem Kind.Shows.withText {kind : Kind} (h : kind.Shows) (text : String) : (kind.withText text).Shows := by
  cases kind with
  | comment comment => exact absurd rfl (h comment)
  | _ => exact fun _ => Kind.noConfusion

theorem Kind.Shows.of_unplaced {kind : Kind} (h : kind.unplaced.Shows) : kind.Shows := by
  rintro comment rfl
  exact h comment rfl

theorem Kind.Shows.unplaced {kind : Kind} (h : kind.Shows) : kind.unplaced.Shows := by
  cases kind with
  | comment comment => exact absurd rfl (h comment)
  | _ => exact fun _ => Kind.noConfusion

namespace Tree

variable {t : Tree} {ts : List Tree} {before : List Char}

theorem Each.topmost {P : Kind → Prop} (h : Each P [t]) : Each P t.topmost := by
  by_cases hkind : t.kind = .sequence
  · rw [topmost_sequence hkind]
    cases h with
    | cons _ body _ => exact body
  · rwa [topmost_of_ne hkind]

theorem prints_topmost (t : Tree) : prints false t.topmost = prints false [t] := by
  by_cases hkind : t.kind = .sequence
  · rw [topmost_sequence hkind, prints_cons, prints_nil, print_element (by rw [hkind]; nofun), hkind]
    simp [Kind.openTag, Kind.isIfBlock, closeTag]
  · rw [topmost_of_ne hkind]

/-- Taking places away makes no comments. -/
theorem shows_of_unplaceds (h : Each Kind.Shows (unplaceds ts)) : Each Kind.Shows ts := by
  induction ts using forest_induction with
  | nil => exact .nil
  | cons t ts ihBody ih =>
    rw [unplaceds_cons, unplaced_eq] at h
    cases h with
    | cons kind body tail => exact .cons (Kind.Shows.of_unplaced kind) (ihBody body) (ih tail)

theorem shows_textOf (text : List Char) : Each Kind.Shows (textOf text) := by
  rw [textOf]
  split
  · exact .nil
  · exact .cons (fun _ => Kind.noConfusion) .nil .nil

/-- Reading back makes no comments. -/
theorem shows_rereadAfter (h : Each Kind.Shows ts) : Each Kind.Shows (rereadAfter before ts) := by
  induction h generalizing before with
  | nil =>
    rw [rereadAfter]
    exact shows_textOf before
  | @cons t ts kind body tail ihBody ihTail =>
    obtain ⟨s, trimmed, hkind⟩ | htext := t.kind.text_or_ne
    · rw [rereadAfter_text hkind]
      exact ihTail
    · have hself : Each Kind.Shows [t.reread] := by
        obtain ⟨branch, condition, hkind⟩ | hbranch := t.kind.branch_or_ne
        · rw [reread_branch hkind]
          split
          · exact .cons (Kind.Shows.unplaced kind) ihBody .nil
          · exact .cons (fun _ => Kind.noConfusion) (.cons (Kind.Shows.unplaced kind) ihBody .nil) .nil
        · rw [reread_eq hbranch]
          exact .cons (Kind.Shows.unplaced kind) ihBody .nil
      rw [rereadAfter_element htext]
      exact (shows_textOf before).append (hself.append ihTail)

end Tree

/-! ### Finished templates -/

section
variable {strip : Bool} {raw : Tree} {t : Template} {parts us : List Shape} {x : ElementId}

theorem Finished.shows (h : Finished strip raw t parts us) (hroot : raw.kind = .sequence) :
    Tree.Each Kind.Shows [t.tree] := by
  rw [h.tree fun x hx => t.withText_shownText hx]
  refine .trees (fun x hx => ?_) false
  rw [← h.elements] at hx
  exact Kind.Shows.withText (h.lasting hx hroot).notComment _

/-- A finished template prints as its tree. -/
theorem Finished.canonical (h : Finished strip raw t parts us)
    (hraw : raw.kind = .sequence ∧ Tree.Written false raw.children) :
    t.canonical.toList = Tree.prints false [t.tree] := by
  rw [Template.canonical, Tree.fullCanonical_eq,
    ← Tree.prints_of_placed (h.written hraw).1 (h.written hraw).2, Tree.prints_topmost]

/-- Without comments what was read prints as its elements with their own texts, and the finished template as
the same elements with the texts that are left. -/
theorem Finished.prints_eq (h : Finished strip raw t parts us)
    (hraw : raw.kind = .sequence ∧ Tree.Written false raw.children) (hshows : Tree.Each Kind.Shows [raw]) :
    Tree.prints false [raw] = Tree.prints false
      (trees (Arena.load {} raw).1 (Arena.load {} raw).1.ownTexts false [⟨(Arena.load {} raw).2, parts⟩]) ∧
    t.canonical.toList = Tree.prints false
      (trees (Arena.load {} raw).1 t.shownText false [⟨(Arena.load {} raw).2, parts⟩]) := by
  have hloaded : SameRun false [raw] (trees _ (Arena.ownTexts _) _ _) :=
    h.holds.sameRun (fun x _ => Arena.withText_ownTexts _ x) false
  refine ⟨(Tree.prints_of_sameRun hloaded hshows).symm, ?_⟩
  have hfinished := h.sameRun
  rw [h.uncleaned] at hfinished
  rw [h.canonical hraw]
  refine Tree.prints_of_sameRun hfinished (.trees (fun x hx => ?_) false)
  exact Kind.Shows.withText (Tree.Each.of_holds h.holds hshows x hx) _

/-- A text that is read has lost blanks at most when the template is finished, and
nothing if blanks are kept. -/
theorem Finished.shownText (h : Finished strip raw t parts us) (hx : x ∈ ids [⟨(Arena.load {} raw).2, parts⟩])
    {text : String} {trimmed : Bool} (hkind : ((Arena.load {} raw).1.get x).kind = .text text trimmed) :
    (∃ front back, Text.AllBlank front ∧ Text.AllBlank back ∧
      text.toList = front ++ ((t.shownText x).toList ++ back)) ∧
      (strip = false → t.shownText x = text) := by
  obtain ⟨shown, hshown, hends, hkept⟩ : ∃ shown, (∃ trimmed, (t.arena.get x).kind = .text shown trimmed) ∧
      (∃ front back, Text.AllBlank front ∧ Text.AllBlank back ∧
        text.toList = front ++ (shown.toList ++ back)) ∧
      (strip = false → shown = text) := by
    cases h.became x with
    | kept kind =>
      refine ⟨text, ⟨trimmed, kind.trans hkind⟩,
        ⟨[], [], Text.allBlank_nil, Text.allBlank_nil, ?_⟩, fun _ => rfl⟩
      rw [List.append_nil, List.nil_append]
    | @trimmed b s opening trailing before moment kind =>
      obtain ⟨rfl, -⟩ := Kind.text.inj (before.symm.trans hkind)
      obtain ⟨front, back, -, -, htrimmed⟩ := Arena.exists_trimmed moment.opening moment.trailing
      refine ⟨_, ⟨true, kind⟩, ⟨front, back, htrimmed.blank.1, htrimmed.blank.2, ?_⟩, fun hoff => ?_⟩
      · rw [String.toList_ofList]
        exact htrimmed.split
      · rw [moment.on] at hoff
        cases hoff
  obtain ⟨trimmed', hkind'⟩ := hshown
  obtain ⟨front, back, hfront, hback, hsplit⟩ := hends
  by_cases hin : x ∈ t.elements
  · have hsame : t.shownText x = shown := by rw [Template.shownText, if_pos hin, hkind']
    rw [hsame]
    exact ⟨⟨front, back, hfront, hback, hsplit⟩, hkept⟩
  · have hsame : t.shownText x = "" := by rw [Template.shownText, if_neg hin]
    obtain ⟨hblank, hempty⟩ := h.weeds.lost hx (h.elements ▸ hin) hkind'
    rw [hsame]
    refine ⟨⟨front, shown.toList ++ back, hfront, Text.allBlank_append.2 ⟨hblank, hback⟩, hsplit⟩,
      fun hoff => ?_⟩
    rw [← hkept hoff, hempty hoff]

/-- A finished template prints as what was read, without some of its blanks. -/
theorem Finished.losesBlanks (h : Finished strip raw t parts us)
    (hraw : raw.kind = .sequence ∧ Tree.Written false raw.children) (hshows : Tree.Each Kind.Shows [raw]) :
    Text.LosesBlanks (Tree.prints false [raw]) t.canonical.toList := by
  obtain ⟨hbefore, hafter⟩ := h.prints_eq hraw hshows
  rw [hbefore, hafter]
  refine Shape.prints_trees Text.LosesBlanks.refl Text.LosesBlanks.append (fun x hx htext => ?_) false false
  obtain ⟨text, trimmed, hkind⟩ := Kind.exists_of_isText htext
  obtain ⟨⟨front, back, hfront, hback, hsplit⟩, -⟩ := h.shownText hx hkind
  rw [Arena.ownTexts_eq hkind, hsplit, Tree.escapeText_ends hfront hback]
  exact .of_ends hfront hback

/-- A finished template prints as what was read just if no text has lost anything. -/
theorem Finished.canonical_eq_iff (h : Finished strip raw t parts us)
    (hraw : raw.kind = .sequence ∧ Tree.Written false raw.children) (hshows : Tree.Each Kind.Shows [raw]) :
    t.canonical.toList = Tree.prints false [raw] ↔
      ∀ x ∈ ids [⟨(Arena.load {} raw).2, parts⟩], ∀ text trimmed, ((Arena.load {} raw).1.get x).kind =
        .text text trimmed →
        t.shownText x = text := by
  obtain ⟨hbefore, hafter⟩ := h.prints_eq hraw hshows
  rw [hbefore, hafter]
  constructor
  · intro hsame x hx text trimmed hkind
    have htexts := texts_eq_of_prints h.loaded.formed (fun x hx htext => ?_) hsame x hx (by rw [hkind]; rfl)
    · obtain ⟨⟨front, back, hfront, hback, hsplit⟩, -⟩ := h.shownText hx hkind
      rw [Arena.ownTexts_eq hkind, hsplit, Tree.escapeText_ends hfront hback] at htexts
      have hlength := congrArg List.length htexts
      simp only [List.length_append] at hlength
      rw [List.length_eq_zero_iff.1 (by omega : front.length = 0),
        List.length_eq_zero_iff.1 (by omega : back.length = 0), List.append_nil, List.nil_append] at hsplit
      exact (String.toList_inj.1 hsplit).symm
    · obtain ⟨text, trimmed, hkind⟩ := Kind.exists_of_isText htext
      obtain ⟨⟨front, back, hfront, hback, hsplit⟩, -⟩ := h.shownText hx hkind
      rw [Arena.ownTexts_eq hkind, hsplit, Tree.escapeText_ends hfront hback]
      exact (List.sublist_append_left _ _).trans (List.sublist_append_right _ _)
  · intro htexts
    refine Shape.prints_trees (R := fun cs ds => ds = cs) (fun _ => rfl) (by rintro _ _ _ _ rfl rfl; rfl)
      (fun x hx htext => ?_) false false
    obtain ⟨text, trimmed, hkind⟩ := Kind.exists_of_isText htext
    rw [Arena.ownTexts_eq hkind, htexts x hx text trimmed hkind]

end

/-! ### Canonical forms -/

namespace Template

variable {name : Option String} {text : String} {strip : Bool} {t : Template}

/-- The canonical form of a template is read again, unless texts meet in it so that they open a tag, and
what was read prints as that form. -/
theorem exists_reread (h : Template.parse name text strip = .ok t) (hseam : t.tree.hasSeam = false)
    (name' : Option String) :
    ∃ raw, Tree.parse ⟨name', t.canonical⟩ = .ok raw ∧ Tree.Each Kind.Shows [raw] ∧
    Tree.prints false [raw] = t.canonical.toList := by
  obtain ⟨first, parts, us, hfirst, hfinished⟩ := exists_finished_of_parse h
  have hwritten := Tree.written_of_parse hfirst
  obtain ⟨hwrites, hplaced⟩ := hfinished.written hwritten
  rw [← Tree.hasSeams_topmost hwrites] at hseam
  obtain ⟨raw, hraw, hsequence, -, hsame⟩ := Tree.parse_markups hwrites hplaced hseam name'
  have hshows : Tree.Each Kind.Shows (Tree.unplaceds raw.children) := by
    rw [hsame]
    exact Tree.shows_rereadAfter (hfinished.shows hwritten.1).topmost
  have hprints := Tree.prints_rereadAfter hwrites hplaced hseam nofun
  rw [← hsame, Tree.prints_unplaceds, Tree.prints_topmost, ← hfinished.canonical hwritten] at hprints
  refine ⟨raw, ?_, .cons (by rw [hsequence]; nofun) (Tree.shows_of_unplaceds hshows) .nil, ?_⟩
  · rwa [Template.canonical, Tree.fullCanonical_eq]
  · rw [← Tree.prints_topmost, Tree.topmost_sequence hsequence]
    exact hprints

/-- The canonical form of a template is read again, unless texts meet in it so that they open a tag, and
printed again. Where blanks are kept it is printed as it was. Where they are stripped it loses blanks at
most, and none just if nothing can be stripped of its texts as they are read. -/
theorem canonical_again (h : Template.parse name text strip = .ok t) (hseam : t.tree.hasSeam = false)
    (name' : Option String) :
    (∃ kept, Template.parse name' t.canonical false = .ok kept ∧ kept.canonical = t.canonical) ∧
    ∃ raw stripped, Tree.parse ⟨name', t.canonical⟩ = .ok raw ∧
      Template.parse name' t.canonical true = .ok stripped ∧
      Text.LosesBlanks t.canonical.toList stripped.canonical.toList ∧
      (stripped.canonical = t.canonical ↔ ∀ x, (Arena.load {} raw).1.Unpadded x) := by
  obtain ⟨raw, hraw, hshows, hprints⟩ := exists_reread h hseam name'
  have hwritten := Tree.written_of_parse hraw
  obtain ⟨kept, parts, us, hkept, hfinished⟩ := exists_finished hraw false
  obtain ⟨stripped, parts', us', hstripped, hfinished'⟩ := exists_finished hraw true
  refine ⟨⟨kept, hkept, ?_⟩, raw, stripped, hraw, hstripped, ?_, ?_⟩
  · have hsame := (hfinished.canonical_eq_iff hwritten hshows).2 fun x hx text trimmed hkind =>
      (hfinished.shownText hx hkind).2 rfl
    rw [hprints] at hsame
    exact String.toList_inj.1 hsame
  · rw [← hprints]
    exact hfinished'.losesBlanks hwritten hshows
  · rw [← hfinished'.unpadded_iff hraw hshows, ← hfinished'.canonical_eq_iff hwritten hshows,
      hprints, String.toList_inj]

/-- An escape, a branch on lines of its own and an interpolation: what was stripped once
is stripped no further. -/
theorem canonical_again_branch : ∃ t kept raw stripped,
    Template.parse none "a\x7b[\x7b]\x7d\n\x7b[#if x]\x7d\n b\n\x7b[/if]\x7d\n\x7b[ y ]\x7d" true = .ok t ∧
    t.tree.hasSeam = false ∧ t.canonical = "a\x7b[\x7b]\x7d\n\x7b[#if x]\x7d b\n\x7b[/if]\x7d\x7b[ y ]\x7d" ∧
    Template.parse none t.canonical false = .ok kept ∧ kept.canonical = t.canonical ∧
    Tree.parse ⟨none, t.canonical⟩ = .ok raw ∧
    Template.parse none t.canonical true = .ok stripped ∧ stripped.canonical = t.canonical ∧
    ∀ x, (Arena.load {} raw).1.Unpadded x := by
  obtain ⟨t, ht, hcheck⟩ := exists_of_parses
    none "a\x7b[\x7b]\x7d\n\x7b[#if x]\x7d\n b\n\x7b[/if]\x7d\n\x7b[ y ]\x7d" true
    (fun t => !t.tree.hasSeam &&
      t.canonical == "a\x7b[\x7b]\x7d\n\x7b[#if x]\x7d b\n\x7b[/if]\x7d\x7b[ y ]\x7d") (by decide +kernel)
  obtain ⟨again, hagain, hsame⟩ :=
    exists_of_parses none "a\x7b[\x7b]\x7d\n\x7b[#if x]\x7d b\n\x7b[/if]\x7d\x7b[ y ]\x7d" true
    (·.canonical == "a\x7b[\x7b]\x7d\n\x7b[#if x]\x7d b\n\x7b[/if]\x7d\x7b[ y ]\x7d") (by decide +kernel)
  rw [Bool.and_eq_true, Bool.not_eq_true', beq_iff_eq] at hcheck
  obtain ⟨hseam, hcanonical⟩ := hcheck
  obtain ⟨⟨kept, hkept, hkeeps⟩, raw, stripped, hraw, hstripped, -, hiff⟩ := canonical_again ht hseam none
  have hfixed : stripped.canonical = t.canonical := by
    rw [hcanonical] at hstripped
    obtain rfl := Except.ok.inj (hagain.symm.trans hstripped)
    rw [hcanonical]
    exact beq_iff_eq.1 hsame
  exact ⟨t, kept, raw, stripped, ht, hseam, hcanonical, hkept, hkeeps, hraw, hstripped, hfixed, hiff.1 hfixed⟩

/-- Of two line feeds after a tag the first is stripped, and when what is left is read again the second is. -/
theorem canonical_loses_again : ∃ t t', Template.parse none "\x7b[#if x]\x7d\n\na\x7b[/if]\x7d" true = .ok t ∧
    t.canonical = "\x7b[#if x]\x7d\na\x7b[/if]\x7d" ∧ Template.parse none t.canonical true = .ok t' ∧
    t'.canonical = "\x7b[#if x]\x7da\x7b[/if]\x7d" := by
  obtain ⟨t, ht, hcanonical⟩ := exists_of_parses none "\x7b[#if x]\x7d\n\na\x7b[/if]\x7d" true
    (·.canonical == "\x7b[#if x]\x7d\na\x7b[/if]\x7d") (by decide +kernel)
  rw [beq_iff_eq] at hcanonical
  obtain ⟨t', ht', hagain⟩ := exists_of_parses none "\x7b[#if x]\x7d\na\x7b[/if]\x7d" true
    (·.canonical == "\x7b[#if x]\x7da\x7b[/if]\x7d") (by decide +kernel)
  exact ⟨t, t', ht, hcanonical, hcanonical ▸ ht', beq_iff_eq.1 hagain⟩

end Template

end Stencil
