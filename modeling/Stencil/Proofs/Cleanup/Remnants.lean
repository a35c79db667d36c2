import Stencil.Proofs.Cleanup.Meaning
import Stencil.Proofs.Reading.Borders

/-! # What is left of the texts

The texts of a finished template are its tokens of text in order, without some that are blank and each
without blanks at its ends. They stand in the template where they say, escapes apart. -/

namespace Stencil

open Shape

/-! ### Lists of which some elements are gone -/

/-- Of some things in order a few are gone, and the others are left as something else. -/
inductive Sifted {α β : Type} (gone : α → Prop) (left : α → β → Prop) : List α → List β → Prop
  | nil : Sifted gone left [] []
  | gone {x : α} {xs : List α} {ys : List β} (lost : gone x) (rest : Sifted gone left xs ys) :
    Sifted gone left (x :: xs) ys
  | left {x : α} {y : β} {xs : List α} {ys : List β} (kept : left x y) (rest : Sifted gone left xs ys) :
      Sifted gone left (x :: xs) (y :: ys)

section
variable {α β : Type} {gone : α → Prop} {left R : α → β → Prop} {us : List α} {xs ys : List β}

theorem Sifted.imp {gone' : α → Prop} {left' : α → β → Prop} (h : Sifted gone left us ys)
    (hgone : ∀ u ∈ us, gone u → gone' u) (hleft : ∀ u ∈ us, ∀ y ∈ ys, left u y → left' u y) :
    Sifted gone' left' us ys := by
  induction h with
  | nil => exact .nil
  | gone lost _ ih =>
    refine .gone (hgone _ List.mem_cons_self lost)
      (ih (fun u hu => hgone u (List.mem_cons_of_mem _ hu)) fun u hu => ?_)
    exact hleft u (List.mem_cons_of_mem _ hu)
  | left kept _ ih =>
    refine .left (hleft _ List.mem_cons_self _ List.mem_cons_self kept)
      (ih (fun u hu => hgone u (List.mem_cons_of_mem _ hu)) ?_)
    exact fun u hu y hy => hleft u (List.mem_cons_of_mem _ hu) y (List.mem_cons_of_mem _ hy)

theorem sifted_of_sublist (hsub : ys.Sublist xs) (hnodup : xs.Nodup) (h : List.Forall₂ R us xs)
    (hgone : ∀ u, ∀ x ∈ xs, R u x → x ∉ ys → gone u) (hleft : ∀ u, ∀ y ∈ ys, R u y → left u y) :
    Sifted gone left us ys := by
  induction hsub generalizing us with
  | slnil =>
    cases h
    exact .nil
  | @cons ys xs x hsub ih =>
    obtain ⟨hx, hxs⟩ := List.nodup_cons.1 hnodup
    cases h with
    | cons hux hrest =>
      refine .gone (hgone _ x List.mem_cons_self hux fun hin => hx (hsub.subset hin)) (ih hxs hrest ?_ hleft)
      exact fun u y hy => hgone u y (List.mem_cons_of_mem _ hy)
  | @cons_cons ys xs x hsub ih =>
    obtain ⟨hx, hxs⟩ := List.nodup_cons.1 hnodup
    cases h with
    | cons hux hrest =>
      refine .left (hleft _ x List.mem_cons_self hux)
        (ih hxs hrest (fun u y hy huy hnot => ?_) fun u y hy => ?_)
      · refine hgone u y (List.mem_cons_of_mem _ hy) huy fun hin => ?_
        rcases List.mem_cons.1 hin with rfl | hin
        · exact hx hy
        · exact hnot hin
      · exact hleft u y (List.mem_cons_of_mem _ hy)

end

/-! ### Pieces of tokens -/

/-- What is left of a token of text once blanks have been taken off its ends. -/
structure Remnant (source : Source) (strip : Bool) (t : Token) (e : Element) (front kept back : List Char) :
    Prop where
  trimmed : Text.Trimmed t.value.toList front kept back
  nonempty : kept ≠ []
  kind : ∃ trimmed, e.kind = .text (.ofList kept) trimmed
  location : e.location = Arena.trimmedLocation ⟨some source, t.first, t.last⟩ front.length back.length
  whole : strip = false → front = [] ∧ back = []

namespace Position

/-- Characters without a line feed end on the line they begin on. -/
theorem line_last (p : Position) {cs : List Char} (h : cs ≠ []) (hfeed : '\n' ∉ cs) :
    (p.last cs).line = p.line := by
  rw [last_eq_after p h, line_after, List.count_eq_zero_of_not_mem fun hin =>
    hfeed (List.dropLast_subset cs hin)]
  exact Int.add_zero _

end Position

namespace Text.Trimmed

variable {text front kept back : List Char}

/-- Where the remnant begins. -/
theorem after_front (h : Trimmed text front kept back) (p : Position) :
    p.after front = if front.length > 0 then ⟨p.line + 1, 1⟩ else p := by
  rcases h.opening with hfront | ⟨line, hline, -, hfront⟩
  · rw [hfront]
    rfl
  · rw [hfront, Position.after_line p hline, if_pos (by simp)]

/-- What is left before blanks that are gone ends in a line feed. -/
theorem exists_feed (h : Trimmed text front kept back) (hkept : kept ≠ []) (hback : back ≠ []) :
    '\n' ∉ back ∧ ∃ init, kept = init ++ ['\n'] := by
  obtain ⟨hfeed, -, hnone | ⟨init, hinit⟩⟩ := h.closing.resolve_left hback
  · exact absurd (List.append_eq_nil_iff.1 hnone).2 hkept
  · obtain ⟨init', c, rfl⟩ : ∃ init' c, kept = init' ++ [c] :=
      ⟨_, _, (List.dropLast_append_getLast hkept).symm⟩
    rw [← List.append_assoc] at hinit
    obtain rfl : c = '\n' := by simpa using List.append_inj_right' hinit rfl
    exact ⟨hfeed, init', rfl⟩

end Text.Trimmed

theorem Arena.trimmedLocation_eq (l : Location) (opening trailing : Nat) :
    trimmedLocation l opening trailing = ⟨l.source, if opening > 0 then ⟨l.first.line + 1, 1⟩ else l.first,
      if trailing > 0 then ⟨l.last.line, 0⟩ else l.last⟩ := by
  unfold trimmedLocation
  split <;> split <;> rfl

section
variable {source : Source} {strip : Bool} {t : Token} {e : Element} {front kept back : List Char}

/-- What stands in the place of a remnant is the remnant, escapes apart. -/
theorem Remnant.slice (h : Remnant source strip t e front kept back) (ht : t.Stands source.text.toList)
    (hkind : t.kind = .text) :
    ∃ s, e.location.slice? = some s ∧ Text.unescaped s.toList = kept := by
  obtain ⟨pre, raw, post, htext, hraw, hfirst, hlast, hreads⟩ := ht
  rw [hkind] at hreads
  obtain ⟨raw', rfl, hraw'⟩ := Text.exists_of_unescaped_blank (hreads.trans h.trimmed.split) h.trimmed.blank.1
  obtain ⟨piece, rfl, hpiece⟩ := Text.exists_of_unescaped_append_blank hraw' h.trimmed.blank.2
  have hne : piece ≠ [] := by
    rintro rfl
    exact h.nonempty hpiece.symm
  have hbegins := h.trimmed.after_front t.first
  rw [hfirst, ← Position.after_append, ← hfirst] at hbegins
  suffices hslice : Source.sliceOf source.text.toList (Position.start.after (pre ++ front))
      (if back.length > 0 then ⟨t.last.line, 0⟩ else t.last) = some piece by
    refine ⟨.ofList piece, ?_, by rwa [String.toList_ofList]⟩
    rw [h.location, Arena.trimmedLocation_eq, ← hbegins]
    simp only [Location.slice?, Option.bind_some, Source.slice, hslice, Option.map_some]
  have htext' : source.text.toList = (pre ++ front) ++ (piece ++ (back ++ post)) := by rw [htext]; simp
  rw [hlast, hfirst, htext']
  by_cases hback : back = []
  · subst hback
    simp only [List.length_nil, gt_iff_lt, Nat.lt_irrefl, if_false]
    rw [List.append_nil, Position.last_append _ _ hne, ← Position.after_append]
    exact Source.sliceOf_eq _ _ hne
  · obtain ⟨hfeed, init, hinit⟩ := h.trimmed.exists_feed h.nonempty hback
    obtain ⟨init', rfl, -⟩ := Text.exists_of_unescaped_append_blank (hpiece.trans hinit)
      (Text.allBlank_cons.2 ⟨Text.isBlank_feed, Text.allBlank_nil⟩)
    have hline : ((Position.start.after pre).last (front ++ ((init' ++ ['\n']) ++ back))).line =
        (Position.start.after ((pre ++ front) ++ (init' ++ ['\n']))).line := by
      rw [← List.append_assoc front, Position.last_append _ _ hback, Position.line_last _ hback hfeed,
        ← Position.after_append, List.append_assoc pre]
    rw [if_pos (List.length_pos_iff.2 hback), hline]
    exact Source.sliceOf_lineEnd _ _ _ (List.append_ne_nil_of_left_ne_nil hback post)

theorem Remnant.inside (h : Remnant source strip t e front kept back) (ht : t.Placed) :
    e.location.Inside ⟨some source, t.first, t.last⟩ := by
  rw [h.location]
  exact Location.inside_trimmed (Int.le_of_lt (Int.lt_of_lt_of_le Int.zero_lt_one ht.column)) _ _

end

/-! ### Elements of a finished template -/

/-- The elements of some shapes in the order of the document. -/
theorem Shape.Holds.nodes {a : Arena} {ss : List Shape} {ts : List Tree} (h : Holds a ss ts) :
    (ids ss).map (fun x => ((a.get x).kind, (a.get x).location)) = Tree.nodes ts := by
  induction ss using forest_induction generalizing ts with
  | nil =>
    cases ts with
    | nil => rw [ids_nil]; rfl
    | cons t ts => simp only [Holds] at h
  | cons id parts ss ihParts ih =>
    cases ts with
    | nil => simp only [Holds] at h
    | cons t ts =>
      rw [Holds] at h
      obtain ⟨hkind, hlocation, hparts, hss⟩ := h
      rw [ids, Tree.nodes_cons, List.map_cons, List.map_append, ihParts hparts, ih hss, hkind, hlocation]

/-- The texts of a template, in the order of the document. -/
def Template.texts (t : Template) : List ElementId := t.elements.filter fun x => (t.arena.get x).kind.isText

section
variable {strip : Bool} {source : Source} {raw : Tree} {t : Template} {parts us : List Shape}
  {tokens : List Token} {u : Token} {x : ElementId}

/-- A token of text and its element in the tree that was read. -/
structure Token.ReadAs (source : Source) (a : Arena) (u : Token) (x : ElementId) : Prop where
  placed : u.Placed
  stands : u.Stands source.text.toList
  text : u.kind = .text
  kind : (a.get x).kind = .text u.value false
  location : (a.get x).location = ⟨some source, u.first, u.last⟩

theorem Tree.ReadFrom.of_mem (h : raw.ReadFrom source tokens) (hu : u ∈ Token.texts tokens) :
    u.Placed ∧ u.Stands source.text.toList ∧ u.kind = .text := by
  obtain ⟨hmem, hkind⟩ := List.mem_filter.1 hu
  have hkind : u.kind = .text := of_decide_eq_true hkind
  obtain ⟨front, eof, rfl, heof, hfront⟩ := h.standing
  rcases List.mem_append.1 hmem with hin | hin
  · exact ⟨h.inOrder.placed u hmem, (hfront u hin).2, hkind⟩
  · rw [List.mem_singleton.1 hin, heof] at hkind
    cases hkind

/-- The texts that were read, one by one. -/
theorem JustLoaded.readAs (h : JustLoaded raw parts) (hread : raw.ReadFrom source tokens) :
    List.Forall₂ (Token.ReadAs source (Arena.load {} raw).1) (Token.texts tokens)
      ((ids [⟨(Arena.load {} raw).2, parts⟩]).filter fun x => ((Arena.load {} raw).1.get x).kind.isText) := by
  have htexts := hread.texts
  rw [Tree.textNodes, ← h.holds.nodes, List.filter_map, ← List.forall₂_eq_eq_eq, List.forall₂_map_left_iff,
    List.forall₂_map_right_iff] at htexts
  refine ((List.forall₂_and_left _ _).2 ⟨fun u hu => hread.of_mem hu, htexts.flip⟩).imp fun u x h => ?_
  obtain ⟨⟨hplaced, hstands, htext⟩, hnode⟩ := h
  exact ⟨hplaced, hstands, htext, (Prod.mk.inj hnode).1, (Prod.mk.inj hnode).2⟩

/-- A text that was read, once it has been trimmed. -/
theorem Trims.exists_remnant {a a' b : Arena} {opening trailing : Nat}
    (moment : Trims strip a b x u.value opening trailing) (h : u.ReadAs source a x)
    (kind : (a'.get x).kind = .text (.ofList (Arena.trimmedText u.value.toList opening trailing)) true)
    (location : (a'.get x).location = Arena.trimmedLocation (a.get x).location opening trailing)
    (hshown : ∀ trimmed, (a'.get x).kind ≠ .text "" trimmed) :
    ∃ front kept back, Remnant source strip u (a'.get x) front kept back ∧ front.length = opening ∧
    back.length = trailing := by
  obtain ⟨front, back, rfl, rfl, htrimmed⟩ := Arena.exists_trimmed moment.opening moment.trailing
  refine ⟨front, _, back, ⟨htrimmed, ?_, ⟨true, kind⟩, ?_, fun hoff => ?_⟩, rfl, rfl⟩
  · intro hnone
    rw [hnone] at kind
    exact hshown true kind
  · rw [location, h.location]
  · rw [moment.on] at hoff
    cases hoff

/-- A text that was read, once the template is finished. -/
theorem Token.ReadAs.remnant {a a' : Arena} (h : u.ReadAs source a x) (hbecame : Became strip a a' x)
    (hshown : ∀ trimmed, (a'.get x).kind ≠ .text "" trimmed) :
    ∃ front kept back, Remnant source strip u (a'.get x) front kept back := by
  cases hbecame with
  | kept kind location =>
    have hlocation := location fun branch condition hbranch => by rw [h.kind] at hbranch; cases hbranch
    refine ⟨[], u.value.toList, [], .whole _, ?_, ⟨false, ?_⟩, hlocation.trans h.location,
      fun _ => ⟨rfl, rfl⟩⟩
    · exact mt String.toList_eq_nil_iff.1 (h.placed.text h.text).1
    · rw [String.ofList_toList]
      exact kind.trans h.kind
  | trimmed before moment kind location =>
    obtain ⟨rfl, -⟩ := Kind.text.inj (before.symm.trans h.kind)
    obtain ⟨front, kept, back, hremnant, -⟩ := moment.exists_remnant h kind location hshown
    exact ⟨front, kept, back, hremnant⟩

/-- A text that was read and is gone. -/
theorem Token.ReadAs.allBlank {a a' : Arena} (h : u.ReadAs source a x) (hbecame : Became strip a a' x)
    (hlost : ∀ text trimmed, (a'.get x).kind = .text text trimmed → Text.AllBlank text.toList ∧
      (strip = false → text = "")) :
    strip = true ∧ Text.AllBlank u.value.toList := by
  cases hbecame with
  | kept kind =>
    obtain ⟨hblank, hempty⟩ := hlost _ _ (kind.trans h.kind)
    refine ⟨?_, hblank⟩
    by_contra hoff
    exact (h.placed.text h.text).1 (hempty (Bool.not_eq_true _ ▸ hoff))
  | @trimmed b text opening trailing before moment kind =>
    obtain ⟨rfl, -⟩ := Kind.text.inj (before.symm.trans h.kind)
    obtain ⟨front, back, -, -, htrimmed⟩ := Arena.exists_trimmed moment.opening moment.trailing
    obtain ⟨hblank, -⟩ := hlost _ _ kind
    rw [String.toList_ofList] at hblank
    exact ⟨moment.on, htrimmed.allBlank hblank⟩

theorem Finished.mem_texts (h : Finished strip raw t parts us) :
    x ∈ t.texts ↔ x ∈ t.elements ∧ ((Arena.load {} raw).1.get x).kind.isText = true := by
  rw [Template.texts, List.mem_filter, (h.became x).isText]

/-- No element of a finished template is a comment or an empty text, since the root of
what was read is neither. -/
theorem Finished.lasting (h : Finished strip raw t parts us) (hx : x ∈ t.elements)
    (hroot : raw.kind = .sequence) :
    (t.arena.get x).kind.Lasting := by
  refine (h.weeds.shown (h.elements ▸ hx)).elim (fun hboth => ?_) id
  obtain rfl : x = (Arena.load {} raw).2 := List.mem_singleton.1 hboth.1
  have hkind : ((Arena.load {} raw).1.get (Arena.load {} raw).2).kind = .sequence :=
    h.loaded.root_kind.trans hroot
  rw [((h.evolves.element _).kind_iff (by rintro ⟨⟩)).2 hkind]
  exact ⟨nofun, nofun⟩

theorem Finished.shown (h : Finished strip raw t parts us) (hx : x ∈ t.texts) (hroot : raw.kind = .sequence) :
    ∀ trimmed, (t.arena.get x).kind ≠ .text "" trimmed := (h.lasting (h.mem_texts.1 hx).1 hroot).shown

/-- What is left of the tokens of text. -/
theorem Finished.sifted (h : Finished strip raw t parts us) (hread : raw.ReadFrom source tokens) :
    Sifted (fun u => strip = true ∧ Text.AllBlank u.value.toList)
      (fun u x => u.ReadAs source (Arena.load {} raw).1 x ∧
        ∃ front kept back, Remnant source strip u (t.arena.get x) front kept back)
      (Token.texts tokens) t.texts := by
  have hsub : t.texts.Sublist ((ids [⟨(Arena.load {} raw).2, parts⟩]).filter fun x =>
      ((Arena.load {} raw).1.get x).kind.isText) := by
    have htexts : t.texts = t.elements.filter fun x => ((Arena.load {} raw).1.get x).kind.isText :=
      List.filter_congr fun x _ => (h.became x).isText
    rw [htexts, h.elements]
    exact h.fewer.filter _
  refine sifted_of_sublist hsub (h.loaded.tidy.nodup.filter _) (h.loaded.readAs hread)
    (fun u x hx hux hnot => ?_) fun u x hx hux => ?_
  · obtain ⟨hmem, htext⟩ := List.mem_filter.1 hx
    refine hux.allBlank (h.became x) fun text trimmed hkind => h.weeds.lost hmem (fun hin => hnot ?_) hkind
    exact h.mem_texts.2 ⟨h.elements ▸ hin, htext⟩
  · exact ⟨hux, hux.remnant (h.became x) (h.shown hx hread.root)⟩

end

/-- A token of text and what is left of it as an element, which stands in the template where it says,
escapes apart, and has lost blanks at its ends only. -/
structure Token.LeftAs (source : Source) (strip : Bool) (u : Token) (e : Element)
    (front kept back : List Char) : Prop where
  kind : ∃ trimmed, e.kind = .text (.ofList kept) trimmed
  nonempty : kept ≠ []
  slice : ∃ s, e.location.slice? = some s ∧ Text.unescaped s.toList = kept
  split : u.value.toList = front ++ (kept ++ back)
  blank : Text.AllBlank front ∧ Text.AllBlank back
  whole : strip = false → front = [] ∧ back = []
  inside : e.location.Inside ⟨some source, u.first, u.last⟩

theorem Remnant.leftAs {source : Source} {strip : Bool} {a a' : Arena} {u : Token} {x : ElementId}
    {front kept back : List Char} (h : Remnant source strip u (a'.get x) front kept back)
    (hu : u.ReadAs source a x) : u.LeftAs source strip (a'.get x) front kept back :=
  ⟨h.kind, h.nonempty, h.slice hu.stands hu.text, h.trimmed.split, h.trimmed.blank,
    h.whole, h.inside hu.placed⟩

/-- The texts of a finished template are its tokens of text in order, each without blanks at its ends
and some that are blank left out, with nothing lost unless blanks are stripped. Each stands in the
template where it says. -/
theorem Template.texts_leftAs {name : Option String} {text : String} {strip : Bool} {t : Template}
    (h : Template.parse name text strip = .ok t) : ∃ tokens, tokenize text = .ok tokens ∧
      Sifted (fun u => strip = true ∧ Text.AllBlank u.value.toList)
        (fun u x => ∃ front kept back, u.LeftAs ⟨name, text⟩ strip (t.arena.get x) front kept back)
          (Token.texts tokens) t.texts := by
  obtain ⟨raw, parts, us, hraw, hfinished⟩ := exists_finished_of_parse h
  obtain ⟨tokens, hread⟩ := Tree.exists_readFrom hraw
  refine ⟨tokens, hread.tokenized, (hfinished.sifted hread).imp (fun _ _ => id) ?_⟩
  rintro u - x - ⟨hreadAs, front, kept, back, hremnant⟩
  exact ⟨front, kept, back, hremnant.leftAs hreadAs⟩

/-- An escape between blanks that go, and a blank text that is dropped. -/
theorem Template.texts_leftAs_escape : ∃ t tokens,
    Template.parse none "\x7b[#if x]\x7d\n a\x7b[\x7b]\x7db\n  \x7b[/if]\x7d\n" true = .ok t ∧
    t.texts.map (fun x => (t.arena.get x).kind) = [.text " a\x7b[b\n" true] ∧
    tokenize "\x7b[#if x]\x7d\n a\x7b[\x7b]\x7db\n  \x7b[/if]\x7d\n" = .ok tokens ∧
    Sifted (fun u => true = true ∧ Text.AllBlank u.value.toList)
      (fun u x => ∃ front kept back, u.LeftAs
        ⟨none, "\x7b[#if x]\x7d\n a\x7b[\x7b]\x7db\n  \x7b[/if]\x7d\n"⟩ true (t.arena.get x) front kept back)
      (Token.texts tokens) t.texts := by
  obtain ⟨t, ht, htexts⟩ := exists_of_parses none "\x7b[#if x]\x7d\n a\x7b[\x7b]\x7db\n  \x7b[/if]\x7d\n" true
    (fun t => t.texts.map (fun x => (t.arena.get x).kind) == [.text " a\x7b[b\n" true]) (by decide +kernel)
  obtain ⟨tokens, htokens, hsifted⟩ := texts_leftAs ht
  exact ⟨t, tokens, ht, beq_iff_eq.1 htexts, htokens, hsifted⟩

end Stencil
