import Stencil.Proofs.Cleanup.Beginning
import Stencil.Proofs.Cleanup.Margins
import Stencil.Proofs.Cleanup.OwnLines

/-! # Lines of directives

Where directives have a line for themselves, nothing is left of it: the blanks before them go with the end
of the text before, the blanks and the line feed after them with the beginning of the text after, whatever
else has been cleaned up by then. -/

namespace Stencil

open Shape

/-! ### Elements that keep blanks -/

theorem Kind.heedsTrailing_cases {kind : Kind} (h : kind.heedsTrailing = true) :
    (∃ e, kind = .interpolation e) ∨
    ∃ text trimmed, kind = .text text trimmed ∧ heedsLine (firstLine? text.toList) text.toList = true := by
  cases kind with
  | text text trimmed => exact .inr ⟨text, trimmed, rfl, h⟩
  | interpolation e => exact .inl ⟨e, rfl⟩
  | _ => cases h

theorem Kind.heedsOpening_cases {kind : Kind} (h : kind.heedsOpening = true) :
    (∃ e, kind = .interpolation e) ∨
    ∃ text trimmed, kind = .text text trimmed ∧ heedsLine (lastLine? text.toList) text.toList = true := by
  cases kind with
  | text text trimmed => exact .inr ⟨text, trimmed, rfl, h⟩
  | interpolation e => exact .inl ⟨e, rfl⟩
  | _ => cases h

theorem Kind.heedsLine_blank {line? : Option (List Char)} {line : List Char} (hline : line? = some line)
    (hblank : Text.AllBlank line) (text : List Char) : heedsLine line? text = false := by
  rw [hline]
  simp [heedsLine, hblank]

/-- What ends in a line feed keeps no blanks after it. -/
theorem Kind.heedsLine_feed (init text : List Char) : heedsLine (lastLine? (init ++ ['\n'])) text = false :=
  heedsLine_blank (Arena.lastLine?_append List.not_mem_nil init) Text.allBlank_nil text

section
variable {source : Source} {raw : Tree} {t : Template} {tokens before tags after : List Token}
  {parts us : List Shape} {u : Token} {x z : ElementId} {line : Int} {a b base : Arena}

/-! ### Texts by their tokens -/

/-- Every text that was loaded is a token of text. -/
theorem JustLoaded.exists_readAs (h : JustLoaded raw parts) (hread : raw.ReadFrom source tokens)
    (hkind : ((Arena.load {} raw).1.get x).kind.isText = true) :
    ∃ u ∈ Token.texts tokens, u.ReadAs source (Arena.load {} raw).1 x := by
  have hin : x < (Arena.load {} raw).1.size :=
    Arena.lt_size_of_kind fun hnone => by rw [hnone] at hkind; cases hkind
  exact exists_of_forall₂_right (h.readAs hread) (List.mem_filter.2 ⟨h.all hin, hkind⟩)

theorem pairwise_of_forall₂ {α β : Type} {R : α → β → Prop} {S : α → α → Prop} {T : β → β → Prop}
    {xs : List α} {ys : List β} (h : List.Forall₂ R xs ys) (hxs : xs.Pairwise S)
    (himp : ∀ {x x' y y'}, R x y → R x' y' → S x x' → T y y') : ys.Pairwise T := by
  induction h with
  | nil => exact .nil
  | cons hxy hrest ih =>
    obtain ⟨hx, hxs⟩ := List.pairwise_cons.1 hxs
    refine List.pairwise_cons.2 ⟨fun y' hy' => ?_, ih hxs⟩
    obtain ⟨x', hx', hxy'⟩ := exists_of_forall₂_right hrest hy'
    exact himp hxy hxy' (hx x' hx')

/-- No token was loaded twice. -/
theorem JustLoaded.readAs_inj (h : JustLoaded raw parts) (hread : raw.ReadFrom source tokens)
    (hx : u.ReadAs source (Arena.load {} raw).1 x) (hz : u.ReadAs source (Arena.load {} raw).1 z) :
    x = z := by
  have hapart := pairwise_of_forall₂
    (T := fun x y => ((Arena.load {} raw).1.get x).location ≠ ((Arena.load {} raw).1.get y).location)
    (h.readAs hread) (hread.inOrder.order.filter _) fun hux hvy hbefore hsame => by
      rw [hux.location, hvy.location, Location.mk.injEq] at hsame
      rw [← hsame.2.1] at hbefore
      exact hux.placed.order hbefore
  have hmem : ∀ {y}, u.ReadAs source (Arena.load {} raw).1 y →
      y ∈ (ids [⟨(Arena.load {} raw).2, parts⟩]).filter fun x =>
        ((Arena.load {} raw).1.get x).kind.isText := fun {y} hy => by
    have hin : y < (Arena.load {} raw).1.size :=
      Arena.lt_size_of_kind (by rw [hy.kind]; exact Kind.noConfusion)
    exact List.mem_filter.2 ⟨h.all hin, by rw [hy.kind]; rfl⟩
  exact List.inj_on_of_nodup_map (List.pairwise_map.2 hapart) (hmem hx) (hmem hz)
    (hx.location.trans hz.location.symm)

/-! ### What a walk meets on the line -/

/-- A text that is not empty at some moment is what is left of its token. -/
theorem JustLoaded.exists_remnant (h : JustLoaded raw parts) (hread : raw.ReadFrom source tokens)
    (hsteps : Steps true (Arena.load {} raw).1 b) {text : String} {trimmed : Bool}
    (hkind : (b.get z).kind = .text text trimmed) (hshown : text ≠ "") :
    ∃ u ∈ Token.texts tokens, u.ReadAs source (Arena.load {} raw).1 z ∧
      ∃ front kept back, Remnant source true u (b.get z) front kept back ∧
      kept = text.toList := by
  have hbecame := hsteps.became z
  obtain ⟨u, hu, huz⟩ := h.exists_readAs hread (x := z) (by rw [← hbecame.isText, hkind]; rfl)
  obtain ⟨front, kept, back, hremnant⟩ :=
    huz.remnant hbecame fun trimmed hempty => hshown (Kind.text.inj (hkind.symm.trans hempty)).1
  obtain ⟨trimmed', hkept⟩ := hremnant.kind
  obtain ⟨rfl, -⟩ := Kind.text.inj (hkind.symm.trans hkept)
  exact ⟨u, hu, huz, front, kept, back, hremnant, (String.toList_ofList).symm⟩

/-- No interpolation shares the line. -/
theorem Token.AloneOn.interpolation (h : Token.AloneOn tokens before tags after line)
    (hread : raw.ReadFrom source tokens) (hloaded : JustLoaded raw parts)
    (hsteps : Steps true (Arena.load {} raw).1 b) {e : Expr} (hkind : (b.get z).kind = .interpolation e) :
    (b.get z).location.first.line ≠ line ∧ (b.get z).location.last.line ≠ line := by
  cases hsteps.became z with
  | trimmed before moment kind =>
    rw [kind] at hkind
    cases hkind
  | kept kind location =>
    have hkind' := kind.symm.trans hkind
    have hin : z ∈ ids [⟨(Arena.load {} raw).2, parts⟩] :=
      hloaded.all (Arena.lt_size_of_kind (by rw [hkind']; exact Kind.noConfusion))
    have hnode := List.mem_map_of_mem
      (f := fun x => (((Arena.load {} raw).1.get x).kind, ((Arena.load {} raw).1.get x).location)) hin
    rw [hloaded.holds.nodes, hkind',
      ← location fun branch condition hbranch => by rw [hkind'] at hbranch; cases hbranch] at hnode
    exact h.bracketed hread (hread.interpolations e _ hnode)

/-- What a walk forward meets on the line belongs to the text before the directives. -/
theorem Token.AloneOn.met_after (h : Token.AloneOn tokens before tags after line)
    (hread : raw.ReadFrom source tokens) (hloaded : JustLoaded raw parts)
    (hsteps : Steps true (Arena.load {} raw).1 b) (hheeds : (b.get z).kind.heedsTrailing = true)
    (hline : (b.get z).location.first.line = line) :
    ∃ u ∈ before.getLast?, u.ReadAs source (Arena.load {} raw).1 z := by
  rcases Kind.heedsTrailing_cases hheeds with ⟨e, hkind⟩ | ⟨text, trimmed, hkind, hheeds⟩
  · exact absurd hline (h.interpolation hread hloaded hsteps hkind).1
  obtain ⟨u, hu, huz, front, kept, back, hremnant, rfl⟩ :=
    hloaded.exists_remnant hread hsteps hkind (by rintro rfl; cases hheeds)
  have hfirst : (b.get z).location.first.line =
      if front.length > 0 then u.first.line + 1 else u.first.line := by
    rw [hremnant.location, Arena.trimmedLocation_eq]
    dsimp only
    split <;> rfl
  have hsplit := hremnant.trimmed.split
  have hfront : front ≠ [] → 1 ≤ u.value.toList.count '\n' := fun hne => by
    obtain ⟨blank, -, -, hblank⟩ := hremnant.trimmed.opening.resolve_left hne
    exact List.one_le_count_iff.2 (by rw [hsplit, hblank]; simp)
  have hnear : u ∈ before.getLast? ∨ u ∈ after.head? := by
    refine h.neighbour hread (List.mem_of_mem_filter hu) huz.text ?_ ?_
    · split at hfirst <;> omega
    · split at hfirst
      · next hlength =>
        have := hfront (List.length_pos_iff.1 hlength)
        omega
      · omega
  refine hnear.elim (fun hu => ⟨u, hu, huz⟩) fun hu => ?_
  -- The text after the directives begins with blanks and a line feed, and with nothing else on this line.
  have hstart := h.line_after hread hu huz.text
  have hnone : front = [] := by
    by_contra hne
    rw [if_pos (List.length_pos_iff.2 hne)] at hfirst
    omega
  obtain ⟨-, blank, hblank, hallBlank⟩ :=
    (h.after u hu).resolve_left fun heof => by rw [huz.text] at heof; cases heof
  have hfeed : '\n' ∈ text.toList := by
    obtain ⟨rest, hrest, -⟩ := Arena.exists_of_firstLine? hblank
    have hin : '\n' ∈ text.toList ++ back := by
      rw [← List.nil_append (text.toList ++ back), ← hnone, ← hsplit, hrest]
      simp
    rcases hremnant.trimmed.closing with hback | ⟨hback, -⟩
    · rwa [hback, List.append_nil] at hin
    · exact (List.mem_append.1 hin).resolve_right hback
  rw [hsplit, hnone, List.nil_append, Arena.firstLine?_append_of_mem hfeed] at hblank
  rw [Kind.heedsLine_blank hblank hallBlank] at hheeds
  cases hheeds

/-- What a walk back meets on the line belongs to the text before the directives. -/
theorem Token.AloneOn.met_before (h : Token.AloneOn tokens before tags after line)
    (hread : raw.ReadFrom source tokens) (hloaded : JustLoaded raw parts)
    (hsteps : Steps true (Arena.load {} raw).1 b) (hheeds : (b.get z).kind.heedsOpening = true)
    (hline : (b.get z).location.last.line = line) :
    ∃ u ∈ before.getLast?, u.ReadAs source (Arena.load {} raw).1 z := by
  rcases Kind.heedsOpening_cases hheeds with ⟨e, hkind⟩ | ⟨text, trimmed, hkind, hheeds⟩
  · exact absurd hline (h.interpolation hread hloaded hsteps hkind).2
  obtain ⟨u, hu, huz, front, kept, back, hremnant, rfl⟩ :=
    hloaded.exists_remnant hread hsteps hkind (by rintro rfl; cases hheeds)
  have hlast : (b.get z).location.last.line = u.first.line + u.value.toList.dropLast.count '\n' := by
    rw [hremnant.location, Arena.trimmedLocation_eq, ← (huz.placed.text huz.text).2]
    dsimp only
    split <;> rfl
  have hcount : u.value.toList.dropLast.count '\n' ≤ u.value.toList.count '\n' :=
    (List.dropLast_sublist _).count_le _
  have hnear := h.neighbour hread (List.mem_of_mem_filter hu) huz.text (by omega) (by omega)
  refine hnear.elim (fun hu => ⟨u, hu, huz⟩) fun hu => ?_
  -- The text after the directives ends on this line only if it is blanks and a line feed.
  have hstart := h.line_after hread hu huz.text
  obtain ⟨-, blank, hblank, -⟩ := (h.after u hu).resolve_left fun heof => by rw [huz.text] at heof; cases heof
  obtain ⟨rest, hrest, -⟩ := Arena.exists_of_firstLine? hblank
  have hnone : rest = [] := by
    by_contra hne
    have hin : '\n' ∈ u.value.toList.dropLast := by
      rw [hrest, List.dropLast_append_of_ne_nil (List.cons_ne_nil _ _), List.dropLast_cons_of_ne_nil hne]
      simp
    have := List.one_le_count_iff.2 hin
    omega
  have hends : front ++ (text.toList ++ back) = blank ++ ['\n'] := by
    rw [← hremnant.trimmed.split, hrest, hnone]
  have hback : back = [] := by
    by_contra hne
    obtain ⟨back', c, rfl⟩ := (List.eq_nil_or_concat' back).resolve_left hne
    rw [← List.append_assoc, ← List.append_assoc] at hends
    obtain rfl : c = '\n' := by simpa using List.append_inj_right' hends rfl
    exact (hremnant.trimmed.closing.resolve_left hne).1 (by simp)
  obtain ⟨init, c, hinit⟩ := (List.eq_nil_or_concat' text.toList).resolve_left hremnant.nonempty
  rw [hback, List.append_nil, hinit, ← List.append_assoc] at hends
  obtain rfl : c = '\n' := by simpa using List.append_inj_right' hends rfl
  rw [hinit, Kind.heedsLine_feed] at hheeds
  cases hheeds

/-! ### The text before the directives -/

theorem Token.AloneOn.blank (h : Token.AloneOn tokens before tags after line) (hu : u ∈ before.getLast?)
    {blank : List Char} (hblank : Kind.lastLine? u.value.toList = some blank) : Text.AllBlank blank := by
  rcases (h.before u hu).2 with ⟨blank', hblank', hall⟩ | ⟨-, hall⟩
  · rw [hblank] at hblank'
    obtain rfl := Option.some.inj hblank'
    exact hall
  · obtain ⟨init, hinit, -⟩ := Arena.exists_of_lastLine? hblank
    rw [hinit] at hall
    exact (Text.allBlank_cons.1 (Text.allBlank_append.1 hall).2).2

/-- The blanks before the directives are taken off the text before them, whenever that is trimmed. -/
theorem Token.AloneOn.trailing (h : Token.AloneOn tokens before tags after line)
    (hread : raw.ReadFrom source tokens) (hloaded : JustLoaded raw parts) (hu : u ∈ before.getLast?)
    {blank : List Char} (hblank : Kind.lastLine? u.value.toList = some blank)
    (hux : u.ReadAs source (Arena.load {} raw).1 x) {opening trailing : Nat}
    (moment : Trims true (Arena.load {} raw).1 b x u.value opening trailing) : trailing = blank.length := by
  have htail : b.tail? x u.value.toList = some blank := by rw [Arena.tail?, hblank]
  rcases Arena.trailingStrip_cases moment.trailing with ⟨hnone, hheeded⟩ | ⟨line', htail', -, htrailing⟩
  · rcases List.eq_nil_or_concat' blank with rfl | ⟨blank', c, rfl⟩
    · exact hnone
    obtain ⟨init, hinit, hfeed⟩ := Arena.exists_of_lastLine? hblank
    have hstart := h.line_before hread hu
    have hcount : 1 ≤ u.value.toList.count '\n' := List.one_le_count_iff.2 (by rw [hinit]; simp)
    have hlocation : (b.get x).location = ⟨some source, u.first, u.last⟩ := moment.location.trans hux.location
    have hline : (b.get x).location.last.line = line := by
      have hdrop : u.value.toList.dropLast.count '\n' = u.value.toList.count '\n' := by
        have hwhole : u.value.toList = (init ++ '\n' :: blank') ++ [c] := by rw [hinit]; simp
        have hc : c ≠ '\n' := fun hc => hfeed (by rw [hc]; simp)
        rw [hwhole, List.dropLast_concat]
        simp [List.count_append, hc]
      rw [hlocation, ← hstart, ← hdrop]
      exact (hux.placed.text hux.text).2
    -- Only the text itself begins on an earlier line and ends on this one.
    obtain ⟨y, z, -, hz, hheeds⟩ := Arena.exists_of_heededAfter (hheeded _ htail (h.blank hu hblank))
    obtain ⟨u', hu', huz⟩ := h.met_after hread hloaded moment.steps
      (Arena.heedsTrailing_of_ok hheeds) (hz.trans hline)
    obtain rfl : u = u' := Option.some.inj (hu.symm.trans hu')
    obtain rfl := hloaded.readAs_inj hread hux huz
    rw [hline, hlocation] at hz
    dsimp only at hz
    omega
  · rw [htail] at htail'
    obtain rfl := Option.some.inj htail'
    exact htrailing

/-- A text that ends in blanks that are taken off keeps none before what comes after it. -/
theorem Token.AloneOn.silent (h : Token.AloneOn tokens before tags after line)
    (hread : raw.ReadFrom source tokens) (hloaded : JustLoaded raw parts) (hu : u ∈ before.getLast?)
    {blank : List Char} (hblank : Kind.lastLine? u.value.toList = some blank)
    (hux : u.ReadAs source (Arena.load {} raw).1 x) (hsteps : Steps true (Arena.load {} raw).1 b) :
    (b.get x).kind.heedsOpening = false := by
  cases hsteps.became x with
  | kept kind =>
    rw [kind, hux.kind]
    exact Kind.heedsLine_blank hblank (h.blank hu hblank) _
  | @trimmed b' text opening trailing before' moment kind =>
    obtain ⟨rfl, -⟩ := Kind.text.inj (before'.symm.trans hux.kind)
    have htrailing := h.trailing hread hloaded hu hblank hux moment
    obtain ⟨init, hinit, -⟩ := Arena.exists_of_lastLine? hblank
    obtain ⟨front, back, -, hback, htrimmed⟩ := Arena.exists_trimmed moment.opening moment.trailing
    have hwhole : (front ++ Arena.trimmedText u.value.toList opening trailing) ++ back =
        (init ++ ['\n']) ++ blank := by
      rw [List.append_assoc, ← htrimmed.split, hinit, List.append_assoc]
      rfl
    have hkept := (List.append_inj' hwhole (hback.trans htrailing)).1
    rw [kind, Kind.heedsOpening, String.toList_ofList]
    rcases List.eq_nil_or_concat' (Arena.trimmedText u.value.toList opening trailing) with hempty |
      ⟨init', c, hinit'⟩
    · rw [hempty]
      rfl
    · rw [hinit', ← List.append_assoc] at hkept
      obtain rfl : c = '\n' := by simpa using List.append_inj_right' hkept rfl
      rw [hinit', Kind.heedsLine_feed]

/-- Blanks that begin the template, with no line feed among them, are a text of their own before all else. -/
theorem Token.AloneOn.exists_first (h : Token.AloneOn tokens before tags after line)
    (hread : raw.ReadFrom source tokens) (hloaded : JustLoaded raw parts) (hu : u ∈ before.getLast?)
    (hnone : Kind.lastLine? u.value.toList = none) :
    before = [u] ∧ Text.AllBlank u.value.toList ∧ ∃ x ss, parts = ⟨x, []⟩ :: ss ∧
    u.ReadAs source (Arena.load {} raw).1 x := by
  obtain ⟨htext, ⟨blank, hblank, -⟩ | ⟨honly, hall⟩⟩ := h.before u hu
  · rw [hnone] at hblank
    cases hblank
  have hsplit : tokens = u :: (tags ++ after) := by rw [h.split, honly]; rfl
  obtain ⟨elements, helements⟩ := hread.opens u (by rw [hsplit]; rfl) htext
  have hholds := hloaded.holds
  rw [Holds, helements] at hholds
  obtain ⟨-, -, hparts, -⟩ := hholds
  cases parts with
  | nil => simp only [Holds] at hparts
  | cons s ss =>
    obtain ⟨x, below⟩ := s
    rw [Holds] at hparts
    obtain ⟨hkind, hlocation, hbelow, -⟩ := hparts
    cases below with
    | cons s below => simp only [Tree.plain, Holds] at hbelow
    | nil =>
      obtain ⟨hplaced, hstands, -⟩ :=
        hread.of_mem (u := u) (List.mem_filter.2 ⟨by rw [hsplit]; simp, decide_eq_true htext⟩)
      exact ⟨honly, hall, x, ss, rfl, hplaced, hstands, htext, hkind, hlocation⟩

/-- Blanks that begin the template before directives are taken off before anything else happens. -/
theorem Token.AloneOn.exists_emptied {ss : List Shape} (h : Token.AloneOn tokens before tags after line)
    (hread : raw.ReadFrom source tokens) (hfinished : Finished true raw t (⟨x, []⟩ :: ss) us)
    (honly : before = [u]) (hall : Text.AllBlank u.value.toList)
    (hnone : Kind.lastLine? u.value.toList = none) (hux : u.ReadAs source (Arena.load {} raw).1 x) :
    ∃ a c, Steps true (Arena.load {} raw).1 a ∧ (a.get x).kind = .text "" true ∧
      (∀ y, y ≠ x → a.get y = (Arena.load {} raw).1.get y) ∧
      Steps true a c ∧ c.SameNodes t.arena := by
  obtain ⟨opening, trailing, hopening, htrailing, c, hsteps, hnodes⟩ := hfinished.exists_trimming hux.kind
  have hu : u ∈ before.getLast? := by rw [honly]; rfl
  have hfeed : '\n' ∉ u.value.toList := fun hin => by
    simp [Kind.lastLine?, Kind.firstLine?, hin] at hnone
  have hstart := h.line_before hread hu
  rw [List.count_eq_zero_of_not_mem hfeed] at hstart
  have hbegins : u.first = .start := hread.begins u (by rw [h.split, honly]; rfl)
  have htail : (Arena.load {} raw).1.tail? x u.value.toList = some u.value.toList := by
    rw [Arena.tail?, hnone, hux.location, hbegins]
    rfl
  have hwhole : trailing = u.value.toList.length := by
    rcases Arena.trailingStrip_cases htrailing with ⟨-, hheeded⟩ | ⟨rest, hrest, -, hlength⟩
    · obtain ⟨y, z, hwalk, hz, hheeds⟩ := Arena.exists_of_heededAfter (hheeded _ htail hall)
      have hline : ((Arena.load {} raw).1.get x).location.last.line = line := by
        rw [hux.location, ← hstart, (hux.placed.text hux.text).2,
          List.count_eq_zero_of_not_mem fun hin => hfeed (List.dropLast_subset _ hin)]
      obtain ⟨u', hu', huz⟩ := h.met_after hread hfinished.loaded .start
        (Arena.heedsTrailing_of_ok hheeds) (hz.trans hline)
      obtain rfl : u = u' := Option.some.inj (hu.symm.trans hu')
      obtain rfl := hfinished.loaded.readAs_inj hread hux huz
      have htidy := hfinished.loaded.tidy
      exact absurd hwalk
        (Arena.nextTerminal?_ne_first htidy.sound htidy.root hfinished.loaded.orphan htidy.children
        fun hparent => Arena.lt_size_of_parent hparent)
    · rw [htail] at hrest
      obtain rfl := Option.some.inj hrest
      exact hlength
  have hin : x < (Arena.load {} raw).1.size :=
    Arena.lt_size_of_kind (by rw [hux.kind]; exact Kind.noConfusion)
  refine ⟨_, c, .trimmed .start rfl hux.kind hopening htrailing, ?_,
    fun y hy => Arena.get_trimming_ne _ hy _ _ _, hsteps, hnodes⟩
  rw [Arena.get_trimming _ hin, Arena.trimmedText, hwhole, Nat.sub_self, List.take_zero, List.drop_nil]

/-! ### What is left -/

/-- An arena from which on the text before the directives keeps no blanks for others, and gives up its own. -/
structure Token.Cleared (source : Source) (raw : Tree) (t : Template) (before : List Token) (a : Arena) :
    Prop where
  start : Steps true (Arena.load {} raw).1 a
  became (x : ElementId) : Became true a t.arena x
  readAs {u : Token} {x : ElementId} : u.ReadAs source (Arena.load {} raw).1 x →
    x ∈ t.texts → u.ReadAs source a x
  silent {u : Token} {x : ElementId} {b : Arena} : u ∈ before.getLast? →
    u.ReadAs source (Arena.load {} raw).1 x → Steps true a b →
    (b.get x).kind.heedsOpening = false
  trailing {u : Token} {x : ElementId} {b : Arena} {opening trailing : Nat} : u ∈ before.getLast? →
    u.ReadAs source (Arena.load {} raw).1 x → x ∈ t.texts → Trims true a b x u.value opening trailing →
      ∃ blank, Kind.lastLine? u.value.toList = some blank ∧ trailing = blank.length

theorem Token.AloneOn.exists_cleared (h : Token.AloneOn tokens before tags after line)
    (hread : raw.ReadFrom source tokens) (hfinished : Finished true raw t parts us) :
    ∃ a, Token.Cleared source raw t before a := by
  cases hu : before.getLast? with
  | none =>
    refine ⟨_, .start, hfinished.became, fun hux _ => hux, fun hin => ?_, fun hin => ?_⟩ <;>
      rw [hu] at hin <;> cases hin
  | some u =>
    cases hblank : Kind.lastLine? u.value.toList with
    | some blank =>
      have hloaded := hfinished.loaded
      refine ⟨_, .start, hfinished.became, fun hux _ => hux, fun {v} _ _ hv hvx hsteps => ?_,
        fun {v} _ _ _ _ hv hvx _ moment => ?_⟩
      · obtain rfl : u = v := Option.some.inj (hu.symm.trans hv)
        exact h.silent hread hloaded hu hblank hvx hsteps
      · obtain rfl : u = v := Option.some.inj (hu.symm.trans hv)
        exact ⟨blank, hblank, h.trailing hread hloaded hu hblank hvx moment⟩
    | none =>
      obtain ⟨honly, hall, x, ss, rfl, hux⟩ := h.exists_first hread hfinished.loaded hu hblank
      obtain ⟨a, c, hstart, hempty, hother, hsteps, hnodes⟩ :=
        h.exists_emptied hread hfinished honly hall hblank hux
      have hbecame : ∀ y, Became true a t.arena y :=
        fun y => (hsteps.became y).congr (hnodes.2 y).1 (hnodes.2 y).2
      have hemptied : ∀ {b}, Became true a b x → (b.get x).kind = .text "" true := fun hbecame => by
        cases hbecame with
        | kept kind => exact kind.trans hempty
        | trimmed before => rw [hempty] at before; cases before
      have hgone : x ∉ t.texts := fun hx => hfinished.shown hx hread.root true (hemptied (hbecame x))
      have hsame : ∀ {v y}, v ∈ before.getLast? → v.ReadAs source (Arena.load {} raw).1 y →
          y = x := fun {v y} hv hvy => by
        obtain rfl : u = v := Option.some.inj (hu.symm.trans hv)
        exact hfinished.loaded.readAs_inj hread hvy hux
      refine ⟨a, hstart, hbecame, fun {v y} hvy hy => ?_, fun hv hvy hlater => ?_, fun hv hvy hy => ?_⟩
      · have hget := hother y fun heq => hgone (heq ▸ hy)
        exact ⟨hvy.placed, hvy.stands, hvy.text,
          by rw [hget]; exact hvy.kind, by rw [hget]; exact hvy.location⟩
      · obtain rfl := hsame hv hvy
        rw [hemptied (hlater.became _)]
        rfl
      · obtain rfl := hsame hv hvy
        exact absurd hy hgone

/-- The blanks and the line feed after the directives are taken off the text after them. -/
theorem Token.Cleared.opening {a : Arena} (hcleared : Token.Cleared source raw t before a)
    (h : Token.AloneOn tokens before tags after line) (hread : raw.ReadFrom source tokens)
    (hloaded : JustLoaded raw parts) (hu : u ∈ after.head?) (hux : u.ReadAs source a x)
    {opening trailing : Nat} (moment : Trims true a b x u.value opening trailing) :
    ∃ blank, Kind.firstLine? u.value.toList = some blank ∧ opening = blank.length + 1 := by
  obtain ⟨-, blank, hblank, hall⟩ :=
    (h.after u hu).resolve_left fun heof => by rw [hux.text] at heof; cases heof
  rcases Arena.openingStrip_cases moment.opening with ⟨-, hheeded⟩ | ⟨line', hline', -, hopening⟩
  · obtain ⟨leaf, -, hheeded⟩ := hheeded _ hblank hall
    obtain ⟨z, hz, hheeds⟩ := Arena.exists_of_heededBefore hheeded
    have hheeds := Arena.heedsOpening_of_ok hheeds
    have hline : (b.get x).location.first.line = line := by
      rw [moment.location, hux.location]
      exact h.line_after hread hu hux.text
    obtain ⟨v, hv, hvz⟩ := h.met_before hread hloaded
      (hcleared.start.trans moment.steps) hheeds (hz.trans hline)
    rw [hcleared.silent hv hvz moment.steps] at hheeds
    cases hheeds
  · exact ⟨line', hline', hopening⟩

/-- A text that is left was trimmed at some moment after any arena from which it came. -/
theorem Finished.exists_trims (h : Finished true raw t parts us) (hroot : raw.kind = .sequence)
    (hx : x ∈ t.texts) (hux : u.ReadAs source a x) (hbecame : Became true a t.arena x) :
    ∃ b opening trailing front kept back, Trims true a b x u.value opening trailing ∧
      Remnant source true u (t.arena.get x) front kept back ∧ front.length = opening ∧
      back.length = trailing := by
  cases hbecame with
  | kept kind =>
    have htrimmed := h.weeds.trimmed rfl (h.elements ▸ (h.mem_texts.1 hx).1) (kind.trans hux.kind)
    cases htrimmed
  | @trimmed b text opening trailing before moment kind location =>
    obtain ⟨rfl, -⟩ := Kind.text.inj (before.symm.trans hux.kind)
    obtain ⟨front, kept, back, hremnant, hlengths⟩ :=
      moment.exists_remnant hux kind location (h.shown hx hroot)
    exact ⟨b, opening, trailing, front, kept, back, moment, hremnant, hlengths⟩

/-- Before its last line feed a text stands on lines before its last. -/
theorem Token.lineOf_lt {init blank : List Char} (h : u.value.toList = init ++ '\n' :: blank) {i : Nat}
    (hi : i ≤ init.length) :
    u.lineOf i < u.first.line + u.value.toList.count '\n' := by
  have hcount : (init.take i).count '\n' ≤ init.count '\n' := (List.take_sublist i init).count_le _
  rw [lineOf, h, List.take_append_of_le_length hi, List.count_append, List.count_cons_self]
  omega

/-- After its first line feed a text stands on lines after its first. -/
theorem Token.lt_lineOf {blank rest : List Char} (h : u.value.toList = blank ++ '\n' :: rest) {i : Nat}
    (hi : blank.length < i) :
    u.first.line < u.lineOf i := by
  obtain ⟨k, rfl⟩ : ∃ k, i = blank.length + (k + 1) := ⟨i - blank.length - 1, by omega⟩
  rw [lineOf, h, List.take_length_add_append, List.count_append, List.take_succ_cons, List.count_cons_self]
  omega

end

/-- Directives that have a line for themselves, but for blanks, leave nothing of it: no text that is left
has a character of that line. -/
theorem Template.directiveLine_gone {name : Option String} {text : String} {t : Template}
    (h : Template.parse name text true = .ok t) :
    ∃ tokens, tokenize text = .ok tokens ∧
      ∀ before tags after line, Token.AloneOn tokens before tags after line →
      Sifted (fun u => Text.AllBlank u.value.toList)
        (fun u x => ∃ front kept back, u.LeftAs ⟨name, text⟩ true (t.arena.get x) front kept back ∧
          ∀ i, front.length ≤ i → i < front.length + kept.length → u.lineOf i ≠ line)
        (Token.texts tokens) t.texts := by
  obtain ⟨raw, parts, us, hraw, hfinished⟩ := exists_finished_of_parse h
  obtain ⟨tokens, hread⟩ := Tree.exists_readFrom hraw
  refine ⟨tokens, hread.tokenized, fun before tags after line halone => ?_⟩
  obtain ⟨a, hcleared⟩ := halone.exists_cleared hread hfinished
  refine (hfinished.sifted hread).imp (fun _ _ => And.right) ?_
  rintro u hu x hx ⟨hloaded, -⟩
  have hux := hcleared.readAs hloaded hx
  obtain ⟨b, opening, trailing, front, kept, back, moment, hremnant, hfront, hback⟩ :=
    hfinished.exists_trims hread.root hx hux (hcleared.became x)
  refine ⟨front, kept, back, hremnant.leftAs hux, fun i hi hlt hline => ?_⟩
  have hlength := congrArg List.length hremnant.trimmed.split
  rw [List.length_append, List.length_append] at hlength
  have hlast : u.lineOf i ≤ u.first.line + u.value.toList.count '\n' :=
    Int.add_le_add_left (Int.ofNat_le.2 ((List.take_sublist i _).count_le _)) _
  have hfirst : u.first.line ≤ u.lineOf i := Int.le_add_of_nonneg_right (Int.natCast_nonneg _)
  rcases halone.neighbour hread (List.mem_of_mem_filter hu) hux.text (hline ▸ hfirst)
    (hline ▸ hlast) with hin | hin
  · obtain ⟨blank, hblank, htrailing⟩ := hcleared.trailing hin hloaded hx moment
    obtain ⟨init, hinit, -⟩ := Arena.exists_of_lastLine? hblank
    rw [hinit, List.length_append, List.length_cons] at hlength
    have hbefore := Token.lineOf_lt hinit (i := i) (by omega)
    have hstart := halone.line_before hread hin
    omega
  · obtain ⟨blank, hblank, hopening⟩ := hcleared.opening halone hread hfinished.loaded hin hux moment
    obtain ⟨rest, hrest, -⟩ := Arena.exists_of_firstLine? hblank
    have hafter := Token.lt_lineOf hrest (i := i) (by omega)
    have hstart := halone.line_after hread hin hux.text
    omega

/-- A macro call between blanks on the first line. -/
theorem Template.directiveLine_gone_first :
    ∃ t tokens before tags after, Template.parse none " \x7b[@m]\x7d \nb" true = .ok t ∧
    t.texts.map (fun x => (t.arena.get x).kind) = [.text "b" true] ∧
    tokenize " \x7b[@m]\x7d \nb" = .ok tokens ∧
    Token.AloneOn tokens before tags after 1 ∧
    Sifted (fun u => Text.AllBlank u.value.toList)
      (fun u x => ∃ front kept back,
        u.LeftAs ⟨none, " \x7b[@m]\x7d \nb"⟩ true (t.arena.get x) front kept back ∧
        ∀ i, front.length ≤ i → i < front.length + kept.length → u.lineOf i ≠ 1)
      (Token.texts tokens) t.texts := by
  obtain ⟨t, ht, htexts⟩ := exists_of_parses none " \x7b[@m]\x7d \nb" true
    (fun t => t.texts.map (fun x => (t.arena.get x).kind) == [.text "b" true]) (by decide +kernel)
  obtain ⟨tokens, htokens, hgone⟩ := directiveLine_gone ht
  have hlexed : (tokenize " \x7b[@m]\x7d \nb").toOption = some
      ([⟨.text, " ", ⟨1, 1⟩, ⟨1, 1⟩⟩] ++
        ([⟨.opening, "\x7b[", ⟨1, 2⟩, ⟨1, 3⟩⟩, ⟨.atSign, "@", ⟨1, 4⟩, ⟨1, 4⟩⟩,
        ⟨.identifier, "m", ⟨1, 5⟩, ⟨1, 5⟩⟩, ⟨.closing, "]\x7d", ⟨1, 6⟩, ⟨1, 7⟩⟩] ++
          [⟨.text, " \nb", ⟨1, 8⟩, ⟨2, 1⟩⟩, ⟨.eof, "", ⟨2, 2⟩, ⟨2, 2⟩⟩])) := by decide +kernel
  rw [htokens] at hlexed
  obtain ⟨before, tags, after, halone⟩ : ∃ before tags after, Token.AloneOn tokens before tags after 1 := by
    refine ⟨_, _, _, Option.some.inj hlexed, ?_, List.cons_ne_nil _ _, by decide, ?_, ?_⟩
    · exact @Token.Directives.tag _ _ _ [_] [] rfl (.inr (.inr rfl)) (by decide) rfl .nil
    · rintro _ ⟨⟩
      exact ⟨rfl, .inr ⟨rfl, by decide⟩⟩
    · rintro _ ⟨⟩
      exact .inr ⟨rfl, [' '], by decide, by decide⟩
  exact ⟨t, tokens, before, tags, after, ht, beq_iff_eq.1 htexts, htokens, halone,
    hgone before tags after 1 halone⟩

end Stencil
