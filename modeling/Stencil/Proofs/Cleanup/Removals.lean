import Stencil.Proofs.Cleanup.Checked

/-! # What a pass takes out

A pass cleans up whatever it is given, of whatever kinds, as long as links fit and lead upwards to an
end: it stops nowhere, and what it takes out of a list of children is found where it was put. What
can go is let go of altogether, but an element whose place is taken still names the parent and the
place that it gave away. -/

namespace Stencil

section
variable {greatest : Int} {strip : Bool} {a b c : Arena} {used used' used'' : ElementId → Prop}
  {x y z p e g : ElementId} {up pre post : List ElementId}

/-! ### What changes below an element -/

/-- Links change in one part of an arena only. Elements get no further up than to those they stood below,
and whatever is out of use or has no parent stays where it is. -/
structure Arena.Rehangs (a b : Arena) (used used' : ElementId → Prop) : Prop where
  size : b.size = a.size
  parent {y q : ElementId} : (b.get y).parent = some q → a.Under y q
  fewer {y : ElementId} : used' y → used y
  child {y q : ElementId} : y ∈ b.children q → y ∈ a.children q ∨ used y
  unmoved {y : ElementId} : ¬ used y ∨ (a.get y).parent = none →
    (b.get y).parent = (a.get y).parent ∧ (b.get y).index = (a.get y).index
  still {y : ElementId} : used y → (a.get y).parent = none → used' y

/-- Nothing changes but an element and what is below it, and the element itself stays
in use and where it is. -/
structure Arena.ChangesBelow (x : ElementId) (a b : Arena) (used used' : ElementId → Prop) : Prop
    extends a.Rehangs b used used' where
  outside {y : ElementId} : y ≠ x → ¬ a.Under y x → b.get y = a.get y ∧ (used y → used' y)
  self : used x → used' x
  place : (b.get x).parent = (a.get x).parent ∧ (b.get x).index = (a.get x).index

namespace Arena

theorem Rehangs.under (h : a.Rehangs b used used') (hunder : b.Under y z) : a.Under y z := by
  induction hunder with
  | single hparent => exact h.parent hparent
  | tail _ hparent ih => exact ih.trans (h.parent hparent)

theorem Rehangs.trans (h : a.Rehangs b used used') (h' : b.Rehangs c used' used'') :
    a.Rehangs c used used'' where
  size := h'.size.trans h.size
  parent hparent := h.under (h'.parent hparent)
  fewer hy := h.fewer (h'.fewer hy)
  child hy := (h'.child hy).elim h.child fun hused => .inr (h.fewer hused)
  unmoved hy := by
    obtain ⟨hparent, hindex⟩ := h.unmoved hy
    obtain ⟨hparent', hindex'⟩ := h'.unmoved (hy.imp (fun hnot hused => hnot (h.fewer hused)) hparent.trans)
    exact ⟨hparent'.trans hparent, hindex'.trans hindex⟩
  still hy hnone := h'.still (h.still hy hnone) ((h.unmoved (.inr hnone)).1.trans hnone)

theorem ChangesBelow.trans (h : a.ChangesBelow x b used used') (h' : b.ChangesBelow x c used' used'') :
    a.ChangesBelow x c used used'' where
  toRehangs := h.toRehangs.trans h'.toRehangs
  outside hy hnot := by
    obtain ⟨hget, hused⟩ := h.outside hy hnot
    obtain ⟨hget', hused'⟩ := h'.outside hy fun hunder => hnot (h.under hunder)
    exact ⟨hget'.trans hget, fun hy => hused' (hused hy)⟩
  self hx := h'.self (h.self hx)
  place := ⟨h'.place.1.trans h.place.1, h'.place.2.trans h.place.2⟩

theorem SameLinks.rehangs (h : a.SameLinks b) (used : ElementId → Prop) : a.Rehangs b used used where
  size := h.size
  parent hparent := .single ((h.place _).1 ▸ hparent)
  fewer := id
  child hy := .inl (h.children _ ▸ hy)
  unmoved _ := h.place _
  still hy _ := hy

/-- The same links, and nothing else changed but an element and what is below it. -/
theorem SameLinks.changesBelow (h : a.SameLinks b) (used : ElementId → Prop)
    (houtside : ∀ y, y ≠ x → ¬ a.Under y x → b.get y = a.get y) : a.ChangesBelow x b used used where
  toRehangs := h.rehangs used
  outside hy hnot := ⟨houtside _ hy hnot, id⟩
  self := id
  place := h.place x

theorem ChangesBelow.refl (x : ElementId) (a : Arena) (used : ElementId → Prop) :
    a.ChangesBelow x a used used :=
  SameLinks.changesBelow ⟨rfl, fun _ => rfl, fun _ => ⟨rfl, rfl⟩⟩ used fun _ _ _ => rfl

/-- What changes below a child changes below its parent. -/
theorem ChangesBelow.ofChild (h : a.ChangesBelow e b used used') (hparent : (a.get e).parent = some p)
    (forest : ∀ y, ¬ a.Under y y) : a.ChangesBelow p b used used' := by
  have hne : p ≠ e := by
    rintro rfl
    exact forest p (.single hparent)
  have hnot : ¬ a.Under p e := fun hunder => forest p (hunder.tail hparent)
  obtain ⟨hget, hused⟩ := h.outside hne hnot
  refine ⟨h.toRehangs, fun {y} hy hyp => h.outside ?_ fun hunder => hyp (hunder.tail hparent), hused,
    by rw [hget]; exact ⟨rfl, rfl⟩⟩
  rintro rfl
  exact hyp (.single hparent)

theorem Ascends.congr (h : a.Ascends x up) (hsame : ∀ y ∈ x :: up, (b.get y).parent = (a.get y).parent) :
    b.Ascends x up := by
  induction h with
  | @top x orphan => exact .top ((hsame x List.mem_cons_self).trans orphan)
  | @step x p up parent _ ih =>
    exact .step ((hsame x List.mem_cons_self).trans parent)
      (ih fun y hy => hsame y (List.mem_cons_of_mem x hy))

/-- The way up from an element is not below it. -/
theorem ChangesBelow.ascends (h : a.ChangesBelow x b used used') (forest : ∀ y, ¬ a.Under y y)
    (hup : a.Ascends x up) :
    b.Ascends x up := by
  refine hup.congr fun y hy => ?_
  rcases List.mem_cons.1 hy with rfl | hy
  · exact h.place.1
  · have hunder : a.Under x y := hup.mem_iff.1 hy
    have hne : y ≠ x := by
      rintro rfl
      exact forest y hunder
    rw [(h.outside hne fun hback => forest y (hback.trans hunder)).1]

/-- The only child of an element takes its place. -/
theorem Rooted.changesBelow_putIn (h : a.Rooted used) (hp : used p) (he : a.children p = pre ++ e :: post)
    (hg : a.children e = [g]) (hput : PutIn a b p pre g post) (hsize : b.size = a.size) :
    a.ChangesBelow p b used fun y => used y ∧ y ≠ e := by
  obtain ⟨heused, heparent⟩ := h.sound.child_mem hp (he ▸ List.mem_append_right pre List.mem_cons_self)
  obtain ⟨hgused, hgparent⟩ := h.sound.child_mem heused (hg ▸ List.mem_singleton_self g)
  have hpe : p ≠ e := by
    rintro rfl
    exact h.forest p (.single heparent)
  have hunder : a.Under g p := .head hgparent (.single heparent)
  have hgone : ∀ {y}, ¬ used y ∨ (a.get y).parent = none → y ≠ g := by
    rintro y (hnot | hnone) rfl
    · exact hnot hgused
    · rw [hgparent] at hnone
      cases hnone
  refine ⟨⟨hsize, fun {y q} hparent => ?_, And.left, fun {y q} hy => ?_, fun hy => hput.links (hgone hy),
    fun {y} hy hnone => ⟨hy, ?_⟩⟩,
    fun {y} hy hnot => ?_, fun hp => ⟨hp, hpe⟩, hput.self⟩
  · by_cases hyg : y = g
    · subst hyg
      rw [hput.put] at hparent
      obtain rfl := Option.some.inj hparent
      exact hunder
    · exact .single ((hput.links hyg).1 ▸ hparent)
  · by_cases hqp : q = p
    · subst hqp
      rw [hput.children, List.mem_append, List.mem_cons] at hy
      rcases hy with hy | rfl | hy
      · exact .inl (he ▸ List.mem_append_left _ hy)
      · exact .inr hgused
      · exact .inl (he ▸ List.mem_append_right _ (List.mem_cons_of_mem e hy))
    · rw [hput.children_of_ne hqp] at hy
      exact .inl hy
  · rintro rfl
    rw [heparent] at hnone
    cases hnone
  · have hyg : y ≠ g := by
      rintro rfl
      exact hnot hunder
    refine ⟨hput.other hy hyg, fun hused => ⟨hused, ?_⟩⟩
    rintro rfl
    exact hnot (.single heparent)

/-- A child is taken out. -/
theorem Rooted.changesBelow_takenOut (h : a.Rooted used) (hp : used p) (he : a.children p = pre ++ e :: post)
    (hout : TakenOut a b p pre e post) (hsize : b.size = a.size) : a.ChangesBelow p b used used := by
  have hchild : ∀ y, y = e ∨ y ∈ post → used y ∧ (a.get y).parent = some p := fun y hy =>
    h.sound.child_mem hp (he ▸ List.mem_append_right pre (List.mem_cons.2 hy))
  have hmoved : ∀ {y}, ¬ used y ∨ (a.get y).parent = none → ¬ (y = e ∨ y ∈ post) := by
    rintro y (hnot | hnone) hy
    · exact hnot (hchild y hy).1
    · rw [(hchild y hy).2] at hnone
      cases hnone
  refine ⟨⟨hsize, fun {y q} hparent => ?_, id, fun {y q} hy => ?_, fun hy => ?_, fun hy _ => hy⟩,
    fun {y} hy hnot => ?_, id, hout.self⟩
  · by_cases hye : y = e
    · rw [hye, hout.removed] at hparent
      cases hparent
    by_cases hypost : y ∈ post
    · obtain ⟨j, hj⟩ := List.getElem?_of_mem hypost
      rw [hout.after hj] at hparent
      obtain rfl := Option.some.inj hparent
      exact .single (hchild y (.inr hypost)).2
    · exact .single ((hout.links hye hypost).1 ▸ hparent)
  · by_cases hqp : q = p
    · subst hqp
      rw [hout.children, List.mem_append] at hy
      rw [he, List.mem_append, List.mem_cons]
      exact .inl (hy.imp_right .inr)
    · rw [hout.children_of_ne hqp] at hy
      exact .inl hy
  · obtain ⟨hye, hypost⟩ := not_or.1 (hmoved hy)
    exact hout.links hye hypost
  · have hy' : ¬ (y = e ∨ y ∈ post) := fun hin => hnot (.single (hchild y hin).2)
    obtain ⟨hye, hypost⟩ := not_or.1 hy'
    exact ⟨hout.other hy hye hypost, id⟩

/-- What is left of a list of children when one is taken out. -/
theorem items_erase (hchildren : a.children p = pre ++ e :: post) :
    ((((a.get p).buffer.map fun b => { b with items := b.items.eraseIdx pre.length }).filter
      fun b => !b.items.isEmpty).map (·.items)).getD [] = pre ++ post := by
  rw [items_filter]
  simp only [children, Element.children] at hchildren
  cases hb : (a.get p).buffer with
  | none => simp [hb] at hchildren
  | some b =>
    have hbitems : b.items = pre ++ e :: post := by simpa [hb] using hchildren
    simp [hbitems, List.eraseIdx_append]

/-- An arena in which a child is taken out of its list and has lost its parent, but those
after it have not moved up. -/
def unlisted (a : Arena) (p : ElementId) (pre : List ElementId) (e : ElementId) : Arena :=
  (a.setBuffer p (((a.get p).buffer.map fun b => { b with items := b.items.eraseIdx pre.length }).filter
    fun b => !b.items.isEmpty)).detach e

theorem size_unlisted (a : Arena) (p : ElementId) (pre : List ElementId) (e : ElementId) :
    (a.unlisted p pre e).size = a.size := by
  rw [unlisted, detach, size_update, setBuffer, size_update]

theorem children_unlisted (hp : p < a.size) (hpe : p ≠ e) (hchildren : a.children p = pre ++ e :: post) :
    (a.unlisted p pre e).children p = pre ++ post := by
  rw [children, unlisted, detach, get_update_ne _ _ hpe, setBuffer, get_update_self a _ hp, Element.children]
  exact items_erase hchildren

theorem without_eq (hp : p < a.size) (hpe : p ≠ e) (hchildren : a.children p = pre ++ e :: post) :
    a.without p pre e = (a.unlisted p pre e).linkAll p pre.length post := by
  have hrelink : a.without p pre e = (a.unlisted p pre e).relink p pre.length := rfl
  rw [hrelink, relink, children_unlisted hp hpe hchildren, List.drop_left]

/-- A child that is taken out has no place any more. -/
theorem index_without (hp : p < a.size) (he : e < a.size) (hpe : p ≠ e)
    (hchildren : a.children p = pre ++ e :: post) (hpost : e ∉ post) :
    ((a.without p pre e).get e).index = 0 := by
  rw [without_eq hp hpe hchildren, get_linkAll_of_notMem _ _ _ hpost, unlisted, detach,
    get_update_self _ _ (by rw [setBuffer, size_update]; exact he)]

/-- Changes that come to the same for an element are the same. -/
theorem update_congr {f f' : Element → Element} (h : f (a.get x) = f' (a.get x)) :
    a.update x f = a.update x f' := by
  obtain ⟨elements⟩ := a
  refine congrArg Arena.mk (Array.ext (by simp) fun i hi hi' => ?_)
  have hlt : i < elements.size := by simpa using hi
  rw [Array.getElem_modify, Array.getElem_modify]
  split
  · next hsame =>
    subst hsame
    simpa [get, Array.getD_eq_getD_getElem?, hlt] using h
  · rfl

end Arena

/-! ### What is taken out stays so -/

/-- A removal has left its marks: what is dropped has no parent and no place, and what is replaced still
names the parent that does not list it any more, and the place it had there. -/
def Removal.Holds (a : Arena) (used : ElementId → Prop) : Removal → Prop
  | .dropped _ x => used x ∧ (a.get x).parent = none ∧ (a.get x).index = 0
  | .replaced p i x _ => x < a.size ∧ ¬ used x ∧ (a.get x).parent = some p ∧
    (a.get x).index = i ∧ x ∉ a.children p

theorem Removal.Holds.later {r : Removal} (h : r.Holds a used) (hr : a.Rehangs b used used') :
    r.Holds b used' := by
  cases r with
  | dropped p x =>
    obtain ⟨hx, hparent, hindex⟩ := h
    obtain ⟨hparent', hindex'⟩ := hr.unmoved (.inr hparent)
    exact ⟨hr.still hx hparent, hparent'.trans hparent, hindex'.trans hindex⟩
  | replaced p i x g =>
    obtain ⟨hin, hx, hparent, hindex, hlist⟩ := h
    obtain ⟨hparent', hindex'⟩ := hr.unmoved (.inl hx)
    exact ⟨hr.size ▸ hin, fun hx' => hx (hr.fewer hx'), hparent'.trans hparent, hindex'.trans hindex,
      fun hc => (hr.child hc).elim hlist hx⟩

/-- What is known of the arena while a pass goes on: links fit, the lines of all elements but texts that
have been trimmed leave room for one more, and what has gone out of use or been dropped is on record. -/
structure Tracks (greatest : Int) (a : Arena) (used : ElementId → Prop) (removals : List Removal) :
    Prop extends a.Rooted used where
  lines {x : ElementId} : x < a.size →
    (∃ text, (a.get x).kind = .text text true) ∨ (a.get x).location.first.line < greatest
  replaced {x : ElementId} : x < a.size → ¬ used x → ∃ p i g, .replaced p i x g ∈ removals
  holds {r : Removal} : r ∈ removals → r.Holds a used

namespace Tracks

variable {removals : List Removal}

/-- A pass goes on, and keeps a record of what goes out of use. -/
theorem later (h : Tracks greatest a used removals) (hr : a.Rehangs b used used') (hsound : b.Sound used')
    (hlines : ∀ x < b.size, (∃ text, (b.get x).kind = .text text true) ∨
      (b.get x).location.first.line < greatest)
    {removals' : List Removal} (hgone : ∀ x, used x → ¬ used' x → ∃ p i g, .replaced p i x g ∈ removals')
    (hkept : removals ⊆ removals') (hnew : ∀ r ∈ removals', r ∈ removals ∨ r.Holds b used') :
    Tracks greatest b used' removals' where
  sound := hsound
  forest x hunder := h.forest x (hr.under hunder)
  lines hx := hlines _ hx
  replaced {x} hx hnot := by
    by_cases hused : used x
    · exact hgone x hused hnot
    · obtain ⟨p, i, g, hin⟩ := h.replaced (hr.size ▸ hx) hused
      exact ⟨p, i, g, hkept hin⟩
  holds hr' := (hnew _ hr').elim (fun hold => (h.holds hold).later hr) id

theorem lines_sameNodes (h : Tracks greatest a used removals) (hnodes : a.SameNodes b) : ∀ x < b.size,
    (∃ text, (b.get x).kind = .text text true) ∨ (b.get x).location.first.line < greatest := fun x hx => by
  rw [(hnodes.2 x).1, (hnodes.2 x).2]
  exact h.lines (hnodes.1 ▸ hx)

theorem sameLinks (h : Tracks greatest a used removals) (hlinks : a.SameLinks b)
    (hlines : ∀ x < b.size, (∃ text, (b.get x).kind = .text text true) ∨
      (b.get x).location.first.line < greatest) :
    Tracks greatest b used removals :=
  h.later (hlinks.rehangs used) (h.sound.sameLinks hlinks) hlines (fun _ hused hnot => absurd hused hnot)
    (List.Subset.refl _) fun _ hr => .inl hr

/-- The children of an element are apart from it and in use. -/
theorem children_apart (h : Tracks greatest a used removals) (hp : used p)
    (hchildren : a.children p = pre ++ e :: post) :
    (p :: (pre ++ e :: post)).Nodup ∧ (∀ c ∈ p :: (pre ++ e :: post), c < a.size) ∧ used e ∧
    (a.get e).parent = some p ∧ p ≠ e := by
  have hchild : ∀ c ∈ pre ++ e :: post, used c ∧ (a.get c).parent = some p :=
    fun c hc => h.sound.child_mem hp (hchildren ▸ hc)
  obtain ⟨he, hparent⟩ := hchild e (List.mem_append_right pre List.mem_cons_self)
  have hnot : p ∉ pre ++ e :: post := fun hin => h.forest p (.single (hchild p hin).2)
  refine ⟨List.nodup_cons.2 ⟨hnot, hchildren ▸ h.sound.nodup_children hp⟩, ?_, he, hparent, ?_⟩
  · exact List.forall_mem_cons.2 ⟨h.sound.inside hp, fun c hc => h.sound.inside (hchild c hc).1⟩
  · rintro rfl
    exact hnot (List.mem_append_right pre List.mem_cons_self)

theorem dropped (h : Tracks greatest a used removals) (hp : used p)
    (hchildren : a.children p = pre ++ e :: post) :
    Tracks greatest (a.without p pre e) used (.dropped p e :: removals) ∧
      a.ChangesBelow p (a.without p pre e) used used ∧
      (a.without p pre e).children p = pre ++ post := by
  obtain ⟨hnodup, hin, he, -, hpe⟩ := h.children_apart hp hchildren
  have hout := Arena.takenOut_without hchildren hnodup hin
  have hnodes := Arena.sameNodes_without a p pre e
  have hchanges := h.toRooted.changesBelow_takenOut hp hchildren hout hnodes.1
  have hpost : e ∉ post := (List.nodup_cons.1 (List.nodup_append.1 (List.nodup_cons.1 hnodup).2).2.1).1
  have hindex := Arena.index_without (h.sound.inside hp) (h.sound.inside he) hpe hchildren hpost
  refine ⟨h.later hchanges.toRehangs (h.sound.takenOut hp hchildren hnodes.1 hout) (h.lines_sameNodes hnodes)
    (fun _ hused hnot => absurd hused hnot) (List.subset_cons_self _ _) fun r hr => ?_,
      hchanges, hout.children⟩
  rcases List.mem_cons.1 hr with rfl | hr
  · exact .inr ⟨he, hout.removed, hindex⟩
  · exact .inl hr

/-- What a child has given way to is linked in its place. -/
theorem placed (h : Tracks greatest a used removals) (hp : used p)
    (hchildren : a.children p = pre ++ e :: post) (hplace : g = e ∨ g ≠ e ∧ a.children e = [g]) :
    ∃ used', Tracks greatest (a.placing p pre.length e g) used'
      ((if g ≠ e then [.replaced p pre.length e g] else []) ++ removals) ∧
      a.ChangesBelow p (a.placing p pre.length e g) used used' ∧
      (a.placing p pre.length e g).children p = pre ++ g :: post := by
  obtain ⟨-, -, he, hparent, hpe⟩ := h.children_apart hp hchildren
  obtain ⟨-, -, hindex⟩ := h.sound.child hp (Arena.children_getElem?_length hchildren)
  rcases hplace with rfl | ⟨hge, honly⟩
  · have hlinks : a.SameLinks (a.link g p pre.length) :=
      Arena.sameLinks_update a g _ ⟨rfl, hparent.symm, hindex.symm⟩
    rw [Arena.placing, if_neg (not_not_intro rfl), if_neg (not_not_intro rfl)]
    refine ⟨used, h.sameLinks hlinks (h.lines_sameNodes (Arena.sameNodes_link a g p pre.length)),
      hlinks.changesBelow used fun y _ hnot => Arena.get_update_ne a _ ?_,
      (hlinks.children p).trans hchildren⟩
    rintro rfl
    exact hnot (.single hparent)
  · obtain ⟨hg, hgparent⟩ := h.sound.child_mem he (honly ▸ List.mem_singleton_self g)
    have hpg : p ≠ g := by
      rintro rfl
      exact h.forest p (.head hgparent (.single hparent))
    have hput := Arena.putIn_replacing hchildren hpg (h.sound.inside hp) (h.sound.inside hg)
    have hnodes := Arena.sameNodes_replacing a p pre g
    have hchanges := h.toRooted.changesBelow_putIn hp hchildren honly hput hnodes.1
    have hlisted : e ∉ (a.replacing p pre g).children p := by
      have hnodup : (pre ++ e :: post).Nodup := hchildren ▸ h.sound.nodup_children hp
      rw [hput.children, List.mem_append, List.mem_cons]
      have hmiddle := (List.nodup_cons.1 (List.nodup_middle.1 hnodup)).1
      rw [List.mem_append] at hmiddle
      rintro (hin | hin | hin)
      · exact hmiddle (.inl hin)
      · exact hge hin.symm
      · exact hmiddle (.inr hin)
    have hlinks := hput.links (Ne.symm hge)
    rw [Arena.placing, if_pos hge, if_pos hge, List.singleton_append]
    refine ⟨fun y => used y ∧ y ≠ e,
      h.later hchanges.toRehangs (h.sound.putIn hp hchildren honly hpe (Ne.symm hge) hnodes.1 hput)
      (h.lines_sameNodes hnodes) (fun y hused hnot => ?_) (List.subset_cons_self _ _) fun r hr => ?_,
        hchanges, hput.children⟩
    · obtain rfl : y = e := by
        by_contra hne
        exact hnot ⟨hused, hne⟩
      exact ⟨p, pre.length, g, List.mem_cons_self⟩
    · rcases List.mem_cons.1 hr with rfl | hr
      · exact .inr ⟨hnodes.1.symm ▸ h.sound.inside he, fun hused => hused.2 rfl, hlinks.1.trans hparent,
          hlinks.2.trans hindex, hlisted⟩
      · exact .inl hr

end Tracks

/-! ### Steps that succeed -/

namespace Checked

/-- A step has the same result with the checks as without, and a good one; the arena is tracked, and nothing
has changed but an element and what is below it. -/
def Runs {α : Type} (greatest : Int) (checked : Pass α) (plain : Edit α) (x : ElementId) (a : Arena)
    (used : ElementId → Prop) (removals : List Removal) (good : α → Arena → Prop) : Prop :=
  ∃ v b used' removals', checked ⟨a, removals⟩ = .ok v ⟨b, removals'⟩ ∧ plain a = .ok v b ∧
    Tracks greatest b used' removals' ∧
    a.ChangesBelow x b used used' ∧ good v b

section
variable {α β : Type} {m : Pass α} {m' : Edit α} {v : α} {s s' : Course}
  {removals removals' : List Removal} {i : Nat} {cs : List ElementId}

theorem bind_ok (h : m s = .ok v s') (f : α → Pass β) : (m >>= f) s = f v s' := by
  simp only [bind, EStateM.bind, h]

theorem observe_ok {f : Arena → Except Breach α} (h : f s.arena = .ok v) : observe f s = .ok v s := by
  rw [observe, h]

theorem observe_element_ok (hx : x < a.size) (removals : List Removal) :
    observe (element · x) ⟨a, removals⟩ = .ok (a.get x) ⟨a, removals⟩ := observe_ok (element_ok hx)

theorem observe_child_ok (hp : p < a.size) (hx : (a.children p)[i]? = some x) (removals : List Removal) :
    observe (child · p i) ⟨a, removals⟩ = .ok x ⟨a, removals⟩ := observe_ok (child_ok hp hx)

theorem change_ok (hx : x < a.size) (f : Element → Element) (removals : List Removal) :
    change x f ⟨a, removals⟩ = .ok () ⟨a.update x f, removals⟩ := by
  rw [change, bind_ok (observe_element_ok hx removals)]
  rfl

theorem relink_ok (hp : p < a.size) (hcs : (a.children p).drop i = cs) (hin : ∀ c ∈ cs, c < a.size)
    (removals : List Removal) :
    relink p cs.length i ⟨a, removals⟩ = .ok () ⟨a.linkAll p i cs, removals⟩ := by
  induction cs generalizing a i with
  | nil => rfl
  | cons c cs ih =>
    obtain ⟨hc, hrest⟩ := List.forall_mem_cons.1 hin
    have hplace : (a.children p)[i]? = some c := by
      rw [← Nat.add_zero i, ← List.getElem?_drop, hcs]
      rfl
    have hlinks : (a.link c p i).children p = a.children p := by
      rw [Arena.children, Arena.link]
      by_cases hpc : p = c
      · subst hpc
        rw [Arena.get_update_self a _ hp]
        rfl
      · rw [Arena.get_update_ne a _ hpc]
        rfl
    have hsize : (a.link c p i).size = a.size := by rw [Arena.link, Arena.size_update]
    have hdrop : ((a.link c p i).children p).drop (i + 1) = cs := by
      rw [hlinks, ← List.drop_drop, hcs]
      rfl
    rw [List.length_cons, relink, bind_ok (observe_child_ok hp hplace removals), link,
      bind_ok (change_ok hc _ removals)]
    exact ih (hsize.symm ▸ hp) hdrop fun d hd => hsize.symm ▸ hrest d hd

theorem removeChild_ok (hp : p < a.size) (hpe : p ≠ e) (hchildren : a.children p = pre ++ e :: post)
    (hin : ∀ c ∈ pre ++ e :: post, c < a.size) (removals : List Removal) :
    removeChild p pre.length ⟨a, removals⟩ = .ok e ⟨a.without p pre e, removals⟩ := by
  obtain ⟨he, hpost⟩ := List.forall_mem_cons.1 (List.forall_mem_append.1 hin).2
  have hsize := a.size_unlisted p pre e
  have hlisted := Arena.children_unlisted hp hpe hchildren
  have hdrop : ((a.unlisted p pre e).children p).drop pre.length = post := by rw [hlisted, List.drop_left]
  have hcount : ((a.unlisted p pre e).get p).children.length - pre.length = post.length := by
    have hlength := congrArg List.length hlisted
    rw [List.length_append] at hlength
    have hsame : ((a.unlisted p pre e).get p).children.length = pre.length + post.length := hlength
    omega
  have hrelink := relink_ok (hsize.symm ▸ hp) hdrop (fun c hc => hsize.symm ▸ hpost c hc) removals
  have hunlisted : (a.update p fun d => { d with
      buffer := (d.buffer.map fun b => { b with items := b.items.eraseIdx pre.length }).filter fun b =>
        !b.items.isEmpty }).update e
        (fun d => { d with parent := none, index := 0 }) = a.unlisted p pre e :=
          congrArg (Arena.detach · e) (Arena.update_congr rfl)
  rw [removeChild, bind_ok (observe_child_ok hp (Arena.children_getElem?_length hchildren) removals),
    bind_ok (change_ok hp _ removals), detach,
    bind_ok (change_ok (by rw [Arena.size_update]; exact he) _ removals), hunlisted]
  rw [bind_ok (observe_element_ok (hsize.symm ▸ hp) removals), hcount,
    bind_ok hrelink, Arena.without_eq hp hpe hchildren]
  rfl

/-! ### Dropping -/

theorem exists_split (h : i < a.childCount p) :
    ∃ pre e post, a.children p = pre ++ e :: post ∧ pre.length = i :=
  ⟨(a.children p).take i, (a.children p)[i], (a.children p).drop (i + 1), by
    rw [← List.drop_eq_getElem_cons h, List.take_append_drop], List.length_take_of_le (Nat.le_of_lt h)⟩

/-- Every round of the loop takes a child out or goes on to the next, so there are no more
of them than children. -/
theorem runs_dropIgnorable (strip : Bool) {steps index : Nat} (h : Tracks greatest a used removals)
    (hx : used x) (hsteps : a.childCount x ≤ index + steps) :
    Runs greatest (dropIgnorable strip x steps index)
      (Edit.dropIgnorable strip x steps index) x a used removals fun _ _ => True := by
  induction steps generalizing a removals index with
  | zero =>
    have hobserve := observe_element_ok (h.sound.inside hx) removals
    have hlast : ¬ index < (a.get x).children.length := Nat.not_lt.2 hsteps
    refine ⟨(), a, used, removals, ?_, rfl, h, .refl x a used, trivial⟩
    rw [dropIgnorable, bind_ok hobserve, if_neg hlast]
    rfl
  | succ steps ih =>
    have hobserve := observe_element_ok (h.sound.inside hx) removals
    by_cases hlast : index < a.childCount x
    · obtain ⟨pre, e, post, hchildren, rfl⟩ := exists_split hlast
      have hlast' : pre.length < (a.get x).children.length := hlast
      have hplace := Arena.children_getElem?_length hchildren
      obtain ⟨-, hin, he, -, hpe⟩ := h.children_apart hx hchildren
      have hchild : a.child x pre.length = .ok e := by rw [Arena.child, hplace]
      obtain ⟨ignorable, hchecked, hplain, -⟩ := agrees_isIgnorable h.sound he strip
      have hnext := observe_child_ok (h.sound.inside hx) hplace removals
      have hcan := observe_ok (f := (isIgnorable · e strip)) (s := ⟨a, removals⟩) hchecked
      have hplain := Edit.observe_ok (·.isIgnorable e strip) hplain
      cases ignorable with
      | true =>
        obtain ⟨htracks, hchanges, hchildren'⟩ := h.dropped hx hchildren
        have hremove := removeChild_ok (h.sound.inside hx) hpe hchildren (List.forall_mem_cons.1 hin).2
          (.dropped x e :: removals)
        have hcount : (a.without x pre e).childCount x ≤ pre.length + steps := by
          have hfewer : a.childCount x = (pre ++ e :: post).length := congrArg List.length hchildren
          rw [Arena.childCount, hchildren', List.length_append]
          rw [List.length_append, List.length_cons] at hfewer
          omega
        obtain ⟨v, b, used', removals', hchecked', hplain', htracks', hchanges', -⟩ := ih htracks hcount
        refine ⟨v, b, used', removals', ?_, ?_, htracks', hchanges.trans hchanges', trivial⟩
        · rw [dropIgnorable, bind_ok hobserve, if_pos hlast', bind_ok hnext, bind_ok hcan, if_pos rfl, record]
          exact (bind_ok hremove _).trans hchecked'
        · rw [Edit.dropIgnorable, Edit.bind_ok (Edit.get_ok a), if_pos hlast,
            Edit.bind_ok (Edit.observe_ok (·.child x pre.length) hchild), Edit.bind_ok hplain, if_pos rfl,
            Edit.bind_ok (Arena.removeChild_eq hchildren)]
          exact hplain'
      | false =>
        obtain ⟨v, b, used', removals', hchecked', hplain', hdone⟩ :=
          ih h (show a.childCount x ≤ (pre.length + 1) + steps by omega)
        refine ⟨v, b, used', removals', ?_, ?_, hdone⟩
        · rw [dropIgnorable, bind_ok hobserve, if_pos hlast', bind_ok hnext, bind_ok hcan,
            if_neg Bool.false_ne_true]
          exact hchecked'
        · rw [Edit.dropIgnorable, Edit.bind_ok (Edit.get_ok a), if_pos hlast,
            Edit.bind_ok (Edit.observe_ok (·.child x pre.length) hchild), Edit.bind_ok hplain,
            if_neg Bool.false_ne_true]
          exact hplain'
    · have hlast' : ¬ index < (a.get x).children.length := hlast
      refine ⟨(), a, used, removals, ?_, ?_, h, .refl x a used, trivial⟩
      · rw [dropIgnorable, bind_ok hobserve, if_neg hlast']
        rfl
      · rw [Edit.dropIgnorable, Edit.bind_ok (Edit.get_ok a), if_neg hlast]
        rfl

/-! ### Simplifying -/

theorem bytes_pos {text : List Char} (h : text ≠ []) : 0 < bytes text := by
  obtain ⟨c, cs, rfl⟩ := List.exists_cons_of_ne_nil h
  rw [bytes_cons]
  exact Nat.add_pos_left c.utf8Size_pos _

/-- Bytes are cut off exactly where characters are. -/
theorem bytes_pos_iff {text : List Char} : 0 < bytes text ↔ 0 < text.length := by
  cases text with
  | nil => exact Iff.rfl
  | cons c cs => exact iff_of_true (bytes_pos (List.cons_ne_nil c cs)) (Nat.succ_pos _)

theorem tracks_trimming (h : Tracks greatest a used removals) (hin : x < a.size) (text : String)
    (opening trailing : Nat) :
    Tracks greatest (a.trimming x text opening trailing) used removals := by
  have hlinks := a.sameLinks_trimming x text opening trailing
  refine h.sameLinks hlinks fun y hy => ?_
  by_cases hyx : y = x
  · rw [hyx, a.get_trimming hin]
    exact .inl ⟨_, rfl⟩
  · rw [a.get_trimming_ne hyx]
    exact h.lines (hlinks.size ▸ hy)

section
variable {text : String} {front kept back : List Char}

/-- A text of which nothing is cut off is marked as trimmed. -/
theorem trimText_uncut (hin : x < a.size) (hkind : (a.get x).kind = .text text false)
    (hopening : openingCut a x = .ok 0) (htrailing : trailingCut a x = .ok 0)
    (hkept : Arena.trimmedText text.toList 0 0 = text.toList) (removals : List Removal) :
    trimText greatest x ⟨a, removals⟩ = .ok () ⟨a.trimming x text 0 0, removals⟩ := by
  have hself := observe_element_ok hin removals
  have hsame : a.update x (fun e => { e with kind := .text text true }) = a.trimming x text 0 0 := by
    refine Arena.update_congr ?_
    rw [hkept, String.ofList_toList]
    rfl
  rw [trimText, bind_ok (observe_ok (f := (openingCut · x)) (s := ⟨a, removals⟩) hopening),
    bind_ok (observe_ok (f := (trailingCut · x)) (s := ⟨a, removals⟩) htrailing), bind_ok hself]
  simp only [hkind, and_self, if_true]
  rw [change_ok hin, hsame]

/-- A text of which something is cut off is cut between characters, and the line after
its own can be counted. -/
theorem trimText_cut (hin : x < a.size) (hkind : (a.get x).kind = .text text false)
    (hopening : openingCut a x = .ok (bytes front)) (htrailing : trailingCut a x = .ok (bytes back))
    (hsplit : text.toList = front ++ (kept ++ back))
    (hkept : Arena.trimmedText text.toList front.length back.length = kept)
    (hsome : ¬ (bytes front = 0 ∧ bytes back = 0)) (hline : (a.get x).location.first.line < greatest)
    (removals : List Removal) :
    trimText greatest x ⟨a, removals⟩ = .ok () ⟨a.trimming x text front.length back.length, removals⟩ := by
  have hself := observe_element_ok hin removals
  have hstop : bytes text.toList - bytes back = bytes (front ++ kept) := by
    rw [hsplit, ← List.append_assoc, bytes_append _ back, Nat.add_sub_cancel]
  have hdifference : difference (bytes text.toList) (bytes back) = .ok (bytes (front ++ kept)) := by
    rw [difference,
      if_pos (by rw [hsplit, ← List.append_assoc, bytes_append _ back]; exact Nat.le_add_left _ _), hstop]
  have hslice : slice text.toList (bytes front) (bytes (front ++ kept)) = .ok kept :=
    slice_eq_ok_iff.2 ⟨front, back, hsplit, rfl, rfl⟩
  have hfirst : (if bytes front > 0 then (lineBelow greatest (a.get x).location.first.line).map fun line =>
      (⟨line, 1⟩ : Position)
      else .ok (a.get x).location.first) =
        Except.ok (Arena.trimmedLocation (a.get x).location front.length back.length).first := by
    rw [Arena.trimmedLocation, lineBelow, if_pos hline]
    by_cases hopens : bytes front > 0
    · rw [if_pos hopens, if_pos (bytes_pos_iff.1 hopens)]
      split <;> rfl
    · rw [if_neg hopens, if_neg fun h => hopens (bytes_pos_iff.2 h)]
      split <;> rfl
  have hsame : a.update x (fun e => { e with
        kind := .text (.ofList kept) true
        location := { e.location with
          first := (Arena.trimmedLocation (a.get x).location front.length back.length).first
          last := if bytes back > 0 then ⟨(a.get x).location.last.line, 0⟩ else (a.get x).location.last } }) =
      a.trimming x text front.length back.length := by
    refine Arena.update_congr ?_
    rw [hkept, Arena.trimmedLocation]
    by_cases hcloses : bytes back > 0
    · rw [if_pos hcloses, if_pos (bytes_pos_iff.1 hcloses)]
      split <;> rfl
    · rw [if_neg hcloses, if_neg fun h => hcloses (bytes_pos_iff.2 h)]
      split <;> rfl
  rw [trimText, bind_ok (observe_ok (f := (openingCut · x)) (s := ⟨a, removals⟩) hopening),
    bind_ok (observe_ok (f := (trailingCut · x)) (s := ⟨a, removals⟩) htrailing), bind_ok hself]
  simp only [hkind]
  rw [if_neg hsome, bind_ok (observe_ok (s := ⟨a, removals⟩) hdifference),
    bind_ok (observe_ok (s := ⟨a, removals⟩) hslice), bind_ok (observe_ok (s := ⟨a, removals⟩) hfirst),
    change_ok hin, hsame]

end

theorem runs_trimText (h : Tracks greatest a used removals) (hx : used x) {text : String}
    (hkind : (a.get x).kind = .text text false) :
    Runs greatest (trimText greatest x) (Edit.trimText x text.toList) x a used removals fun _ _ => True := by
  have hin := h.sound.inside hx
  obtain ⟨opening, hopening, hopening'⟩ := openingCut_ok h.toRooted hx hkind
  obtain ⟨trailing, htrailing, htrailing'⟩ := trailingCut_ok h.toRooted hx hkind
  obtain ⟨front, back, rfl, rfl, htrimmed⟩ := Arena.exists_trimmed hopening htrailing
  have hsplit := htrimmed.split
  have hfront : text.toList.take front.length = front := by rw [hsplit, List.take_left]
  have hback : text.toList.drop (text.toList.length - back.length) = back := by
    rw [hsplit, ← List.append_assoc, List.length_append, Nat.add_sub_cancel, List.drop_left]
  rw [hfront] at hopening'
  rw [hback] at htrailing'
  refine ⟨(), a.trimming x text front.length back.length, used, removals, ?_, trimText_ok hopening htrailing,
    tracks_trimming h hin text front.length back.length,
    (a.sameLinks_trimming x text front.length back.length).changesBelow used
      fun y hy _ => a.get_trimming_ne hy _ _ _, trivial⟩
  by_cases hnone : bytes front = 0 ∧ bytes back = 0
  · obtain rfl : front = [] := by
      by_contra hsome
      exact Nat.ne_of_gt (bytes_pos hsome) hnone.1
    obtain rfl : back = [] := by
      by_contra hsome
      exact Nat.ne_of_gt (bytes_pos hsome) hnone.2
    rw [List.nil_append, List.append_nil] at hsplit
    exact trimText_uncut hin hkind hopening' htrailing' hsplit.symm removals
  · have hline : (a.get x).location.first.line < greatest := by
      rcases h.lines hin with ⟨_, htext⟩ | hline
      · rw [hkind] at htext
        cases htext
      · exact hline
    exact trimText_cut hin hkind hopening' htrailing' hsplit rfl hnone hline removals

/-- What takes the place of an element is the element, or the only child it has. -/
def Stands (x : ElementId) (g : ElementId) (b : Arena) : Prop := g = x ∨ g ≠ x ∧ b.children x = [g]

theorem exists_only (h : Tracks greatest a used removals) (hx : used x) (hone : a.childCount x = 1) :
    ∃ g, a.children x = [g] ∧ used g ∧ (a.get g).parent = some x ∧ g ≠ x ∧ child a x 0 = .ok g ∧
    a.child x 0 = .ok g := by
  obtain ⟨g, hchildren⟩ : ∃ g, a.children x = [g] := List.length_eq_one_iff.1 hone
  have hplace : (a.children x)[0]? = some g := by rw [hchildren]; rfl
  obtain ⟨-, -, hg, hparent, hxg⟩ := h.children_apart hx (show a.children x = [] ++ g :: [] from hchildren)
  exact ⟨g, hchildren, hg, hparent, Ne.symm hxg, child_ok (h.sound.inside hx) hplace,
    by rw [Arena.child, hplace]⟩

theorem runs_stay (h : Tracks greatest a used removals) :
    Runs greatest (pure x) (pure x) x a used removals (Stands x) :=
  ⟨x, a, used, removals, rfl, rfl, h, .refl x a used, .inl rfl⟩

/-- A sequence with one child gives way to it. -/
theorem runs_simplify_sequence (strip : Bool) (h : Tracks greatest a used removals) (hx : used x)
    (hkind : (a.get x).kind = .sequence) :
    Runs greatest (simplify greatest strip x) (Edit.simplify strip x) x a used removals (Stands x) := by
  have hself := observe_element_ok (h.sound.inside hx) removals
  simp only [Runs, simplify, Edit.simplify, bind_ok hself, Edit.bind_ok (Edit.get_ok a), hkind]
  by_cases hone : a.childCount x = 1
  · have hone' : (a.get x).children.length = 1 := hone
    obtain ⟨g, hchildren, -, -, hgx, hchecked, hplain⟩ := exists_only h hx hone
    simp only [if_pos hone, if_pos hone', observe_ok (f := (child · x 0)) (s := ⟨a, removals⟩) hchecked,
      Edit.observe_ok (·.child x 0) hplain]
    exact ⟨g, a, used, removals, rfl, rfl, h, .refl x a used, .inr ⟨hgx, hchildren⟩⟩
  · have hone' : ¬ (a.get x).children.length = 1 := hone
    simp only [if_neg hone, if_neg hone']
    exact runs_stay h

/-- An if block with one child gives way to it, whatever it is, and the child moves to where the block is. -/
theorem runs_simplify_ifBlock (strip : Bool) (h : Tracks greatest a used removals) (hx : used x)
    (hkind : (a.get x).kind = .ifBlock) :
    Runs greatest (simplify greatest strip x) (Edit.simplify strip x) x a used removals (Stands x) := by
  have hself := observe_element_ok (h.sound.inside hx) removals
  simp only [Runs, simplify, Edit.simplify, bind_ok hself, Edit.bind_ok (Edit.get_ok a), hkind]
  by_cases hone : a.childCount x = 1
  · have hone' : (a.get x).children.length = 1 := hone
    obtain ⟨g, hchildren, hg, hparent, hgx, hchecked, hplain⟩ := exists_only h hx hone
    have hlinks : a.SameLinks (a.update g fun e => { e with location := (a.get x).location }) :=
      Arena.sameLinks_update a g _ ⟨rfl, rfl, rfl⟩
    simp only [if_pos hone, if_pos hone',
      bind_ok (observe_ok (f := (child · x 0)) (s := ⟨a, removals⟩) hchecked),
      Edit.bind_ok (Edit.observe_ok (·.child x 0) hplain), bind_ok (change_ok (h.sound.inside hg) _ removals)]
    refine ⟨g, _, used, removals, rfl, rfl, h.sameLinks hlinks fun y hy => ?_,
      hlinks.changesBelow used fun y _ hnot => ?_, .inr ⟨hgx, (hlinks.children x).trans hchildren⟩⟩
    · by_cases hyg : y = g
      · rw [hyg, Arena.get_update_self a _ (h.sound.inside hg)]
        refine .inr ((h.lines (h.sound.inside hx)).resolve_left ?_)
        rintro ⟨_, htext⟩
        rw [hkind] at htext
        cases htext
      · rw [Arena.get_update_ne a _ hyg]
        exact h.lines (hlinks.size ▸ hy)
    · refine Arena.get_update_ne a _ ?_
      rintro rfl
      exact hnot (.single hparent)
  · have hone' : ¬ (a.get x).children.length = 1 := hone
    simp only [if_neg hone, if_neg hone']
    exact runs_stay h

theorem runs_simplify_text (strip : Bool) (h : Tracks greatest a used removals) (hx : used x) {text : String}
    {trimmed : Bool} (hkind : (a.get x).kind = .text text trimmed) :
    Runs greatest (simplify greatest strip x) (Edit.simplify strip x) x a used removals (Stands x) := by
  have hself := observe_element_ok (h.sound.inside hx) removals
  simp only [Runs, simplify, Edit.simplify, bind_ok hself, Edit.bind_ok (Edit.get_ok a), hkind]
  by_cases htrims : (strip && !trimmed) = true
  · obtain rfl : trimmed = false := by simpa using (Bool.and_eq_true_iff.1 htrims).2
    obtain ⟨v, b, used', removals', hchecked, hplain, htracks, hchanges, -⟩ := runs_trimText h hx hkind
    simp only [if_pos htrims, bind_ok hchecked, Edit.bind_ok hplain]
    exact ⟨x, b, used', removals', rfl, rfl, htracks, hchanges, .inl rfl⟩
  · simp only [if_neg htrims]
    exact runs_stay h

theorem runs_simplify (strip : Bool) (h : Tracks greatest a used removals) (hx : used x) :
    Runs greatest (simplify greatest strip x) (Edit.simplify strip x) x a used removals (Stands x) := by
  cases hkind : (a.get x).kind with
  | sequence => exact runs_simplify_sequence strip h hx hkind
  | ifBlock => exact runs_simplify_ifBlock strip h hx hkind
  | text t trimmed => exact runs_simplify_text strip h hx hkind
  | _ =>
    have hself := observe_element_ok (h.sound.inside hx) removals
    simp only [Runs, simplify, Edit.simplify, bind_ok hself, Edit.bind_ok (Edit.get_ok a), hkind]
    exact runs_stay h

/-! ### The whole pass -/

/-- A way to clean up elements below each of which the way is not longer than `depth`. -/
def CleansAlike (greatest : Int) (checked : ElementId → Pass ElementId) (plain : ElementId → Edit ElementId)
    (depth : Nat) : Prop :=
  ∀ {a : Arena} {used : ElementId → Prop} {removals : List Removal} {x : ElementId} {up : List ElementId},
    Tracks greatest a used removals →
    used x → a.Ascends x up → a.size ≤ up.length + depth →
    Runs greatest (checked x) (plain x) x a used removals (Stands x)

theorem putChild_ok (hp : p < a.size) (hi : i < a.childCount p) (g : ElementId) (removals : List Removal) :
    putChild p i g ⟨a, removals⟩ = .ok () ⟨a.putChild p i g, removals⟩ := by
  rw [putChild, bind_ok (observe_element_ok hp removals)]
  have hi : i < (((a.get p).buffer.map (·.items)).getD []).length := hi
  cases hbuffer : (a.get p).buffer with
  | none =>
    rw [hbuffer] at hi
    exact absurd hi (Nat.not_lt_zero i)
  | some b =>
    rw [hbuffer] at hi
    have hi : i < b.items.length := hi
    simp only [if_pos hi]
    exact change_ok hp _ removals

/-- What a child has given way to is linked in its place, on record if it is another element. -/
theorem cleanEach_cons_ok {checked : ElementId → Pass ElementId} (hp : p < a.size)
    (hchildren : a.children p = pre ++ e :: post) (hclean : checked e ⟨a, removals⟩ = .ok g ⟨b, removals'⟩)
    (hsame : b.get p = a.get p) (hp' : p < b.size) (hg : g < b.size) (rest : List Nat) :
    cleanEach checked p (pre.length :: rest) ⟨a, removals⟩ =
      cleanEach checked p rest ⟨b.placing p pre.length e g,
        (if g ≠ e then [.replaced p pre.length e g] else []) ++ removals'⟩ := by
  have hold := observe_child_ok hp (Arena.children_getElem?_length hchildren) removals
  rw [cleanEach, bind_ok hold, bind_ok hclean, Arena.placing]
  by_cases hge : g ≠ e
  · have hi : pre.length < b.childCount p := by
      rw [Arena.childCount, Arena.children, hsame, ← Arena.children, hchildren,
        List.length_append, List.length_cons]
      omega
    have hput := putChild_ok hp' hi g (.replaced p pre.length e g :: removals')
    have hlink := change_ok (a := b.putChild p pre.length g) (x := g)
      (by rw [Arena.putChild, Arena.size_update]; exact hg)
      (fun d => { d with parent := some p, index := pre.length }) (.replaced p pre.length e g :: removals')
    have hrecord : record (.replaced p pre.length e g) ⟨b, removals'⟩ =
      .ok () ⟨b, .replaced p pre.length e g :: removals'⟩ := rfl
    rw [if_pos hge, if_pos hge, if_pos hge, bind_ok hrecord, bind_ok hput, link]
    exact bind_ok hlink _
  · have hlink := change_ok (a := b) hg (fun d => { d with parent := some p, index := pre.length }) removals'
    rw [if_neg hge, if_neg hge, if_neg hge, link]
    exact bind_ok hlink _

/-- The children are cleaned up one after the other, and each is linked again before
the next is looked for. -/
theorem runs_cleanEach {checked : ElementId → Pass ElementId} {plain : ElementId → Edit ElementId}
    {depth : Nat} (hclean : CleansAlike greatest checked plain depth) {index count : Nat}
    (h : Tracks greatest a used removals) (hx : used x) (hup : a.Ascends x up)
    (hdepth : a.size ≤ up.length + (depth + 1)) (hcount : a.childCount x = index + count) :
    Runs greatest (cleanEach checked x (List.range' index count))
      (Edit.cleanEach plain x (List.range' index count)) x a used removals
      fun _ b => b.childCount x = a.childCount x := by
  induction count generalizing a used removals index with
  | zero => exact ⟨(), a, used, removals, rfl, rfl, h, .refl x a used, rfl⟩
  | succ count ih =>
    obtain ⟨pre, e, post, hchildren, rfl⟩ := exists_split (p := x) (show index < a.childCount x by omega)
    obtain ⟨-, -, he, hparent, hxe⟩ := h.children_apart hx hchildren
    have hold : a.child x pre.length = .ok e := by rw [Arena.child, Arena.children_getElem?_length hchildren]
    obtain ⟨g, b, used₁, removals₁, hchecked, hplain, htracks, hbelow, hstands⟩ :=
      hclean h he (.step hparent hup)
      (by rw [List.length_cons]; omega)
    -- The element itself is as before, and so is what it lists.
    obtain ⟨hsame, hself⟩ := hbelow.outside hxe fun hunder => h.forest x (hunder.tail hparent)
    have hchildren' : b.children x = pre ++ e :: post := by rw [Arena.children, hsame]; exact hchildren
    have hg : g < b.size := by
      rcases hstands with rfl | ⟨-, honly⟩
      · exact htracks.sound.inside (hbelow.self he)
      · exact htracks.sound.inside (htracks.sound.child_mem (hbelow.self he)
          (honly ▸ List.mem_singleton_self g)).1
    obtain ⟨used₂, htracks', hbelow', hlisted⟩ := htracks.placed (hself hx) hchildren' hstands
    have hbefore := (hbelow.ofChild hparent h.forest).trans hbelow'
    have hsize := hbefore.size
    have hcount' : (b.placing x pre.length e g).childCount x = a.childCount x := by
      rw [Arena.childCount, Arena.childCount, hlisted, hchildren, List.length_append, List.length_append]
      rfl
    obtain ⟨v, c, used', removals', hchecked', hplain', htracks'', hbelow'', hkept⟩ :=
      ih htracks' (hbefore.self hx) (hbefore.ascends h.forest hup) (hsize.symm ▸ hdepth)
        (show (b.placing x pre.length e g).childCount x = (pre.length + 1) + count by omega)
    refine ⟨(), c, used', removals', ?_, ?_, htracks'', hbefore.trans hbelow'', hkept.trans hcount'⟩
    · rw [List.range'_succ, cleanEach_cons_ok (h.sound.inside hx) hchildren hchecked hsame
        (htracks.sound.inside (hself hx)) hg]
      exact hchecked'
    · rw [List.range'_succ, cleanEach_cons hold hplain]
      exact hplain'

theorem cleansAlike (strip : Bool) (depth : Nat) :
    CleansAlike greatest (cleanWithin greatest strip depth) (Edit.cleanWithin strip depth) depth := by
  induction depth with
  | zero =>
    intro a used removals x up h hx hup hdepth
    exact absurd (hup.length_lt h.sound hx) (Nat.not_lt.2 hdepth)
  | succ depth ih =>
    intro a used removals x up h hx hup hdepth
    have hself := observe_element_ok (h.sound.inside hx) removals
    simp only [Runs, cleanWithin, Edit.cleanWithin, bind_ok hself, Edit.bind_ok (Edit.get_ok a)]
    by_cases hsome : a.childCount x > 0
    · have hsome' : (a.get x).children.length > 0 := hsome
      obtain ⟨_, b, used₁, removals₁, hchecked, hplain, htracks, hbelow, hcount⟩ :=
        runs_cleanEach ih h hx hup hdepth
          (show a.childCount x = 0 + a.childCount x from (Nat.zero_add _).symm)
      obtain ⟨_, c, used₂, removals₂, hchecked', hplain', htracks', hbelow', -⟩ :=
        runs_dropIgnorable strip htracks (hbelow.self hx) (show b.childCount x ≤ 0 + a.childCount x by omega)
      have hused : used₂ x := hbelow'.self (hbelow.self hx)
      have hitems := items_shrink (c.get x).buffer
      have hshrink : c.update x (fun e => { e with buffer := e.buffer.map ChildBuffer.shrink }) =
          c.setBuffer x ((c.get x).buffer.map ChildBuffer.shrink) := Arena.update_congr rfl
      have hlinks : c.SameLinks (c.setBuffer x ((c.get x).buffer.map ChildBuffer.shrink)) :=
        Arena.sameLinks_update c x _ ⟨hitems, rfl, rfl⟩
      have hstored := hlinks.changesBelow (x := x) used₂ fun y hy _ => Arena.get_update_ne c _ hy
      obtain ⟨g, d, used', removals', hchecked'', hplain'', hdone, hsimplified, hstands⟩ :=
        runs_simplify strip (htracks'.sameLinks hlinks
          (htracks'.lines_sameNodes (Arena.sameNodes_setBuffer c x _))) hused
      refine ⟨g, d, used', removals', ?_, ?_, hdone,
        ((hbelow.trans hbelow').trans hstored).trans hsimplified, hstands⟩
      · have hcount' : (a.get x).children.length = a.childCount x := rfl
        rw [if_pos hsome', hcount', List.range_eq_range', bind_ok hchecked, bind_ok hchecked',
          bind_ok (change_ok (htracks'.sound.inside hused) _ removals₂), hshrink]
        exact hchecked''
      · rw [if_pos hsome, List.range_eq_range', Edit.bind_ok hplain, Edit.bind_ok hplain']
        exact hplain''
    · have hsome' : ¬ (a.get x).children.length > 0 := hsome
      simp only [if_neg hsome, if_neg hsome']
      exact runs_simplify strip h hx

end

end Checked

/-- A consistent arena is tracked when no line is too far down. -/
theorem Tracks.start (h : a.Sound (· < a.size)) (forest : ∀ x, ¬ a.Under x x)
    (lines : ∀ x < a.size, (a.get x).location.first.line < greatest) : Tracks greatest a (· < a.size) [] where
  sound := h
  forest := forest
  lines hx := .inr (lines _ hx)
  replaced hx hnot := absurd hx hnot
  holds hr := by cases hr

/-- Cleaning up from any element on ends, and comes to the same with the checks as without. -/
theorem Tracks.exists_clean (strip : Bool) (h : Tracks greatest a (· < a.size) []) (hx : x < a.size) :
    ∃ g b used removals, Checked.clean greatest strip x ⟨a, []⟩ = .ok g ⟨b, removals⟩ ∧
      Edit.clean strip x a = .ok g b ∧
      Tracks greatest b used removals ∧ b.size = a.size := by
  obtain ⟨up, hup⟩ := h.exists_ascends (x := x) hx
  obtain ⟨g, b, used, removals, hchecked, hplain, htracks, hbelow, -⟩ :=
    Checked.cleansAlike strip a.size h hx hup (Nat.le_add_left _ _)
  exact ⟨g, b, used, removals, hchecked, hplain, htracks, hbelow.size⟩

end

end Stencil
