import Stencil.Proofs.Arena.Sound
import Mathlib.Data.List.Nodup

/-! # Changing links

What the edits of cleanup do to the links: taking a child out, and putting another element in the place
of a child. Neither touches what the elements are. -/

namespace Stencil.Arena

variable {a : Arena} {used : ElementId → Prop}

/-! ### Effects on single elements -/

theorem get_update_ne (a : Arena) {id other : ElementId} (f : Element → Element) (h : other ≠ id) :
    (a.update id f).get other = a.get other := by
  simp [get, update, Array.getD_eq_getD_getElem?, Array.getElem?_modify, Ne.symm h]

theorem get_update_self (a : Arena) {id : ElementId} (f : Element → Element) (h : id < a.size) :
    (a.update id f).get id = f (a.get id) := by
  rw [get_update a id id f h, if_pos rfl]

theorem get_update_of_size_le (a : Arena) {id : ElementId} (f : Element → Element)
    (h : a.size ≤ id) (x : ElementId) :
    (a.update id f).get x = a.get x := by
  have hout : ¬ id < a.elements.size := by simpa [size] using h
  by_cases hx : x = id
  · subst hx
    simp [get, update, Array.getD_eq_getD_getElem?, hout]
  · exact get_update_ne a f hx

theorem get_eq_default (a : Arena) {x : ElementId} (h : a.size ≤ x) : a.get x = default := by
  have hout : ¬ x < a.elements.size := Nat.not_lt_of_le h
  simp [get, Array.getD_eq_getD_getElem?, hout]

theorem size_linkAll (a : Arena) (p : ElementId) (i : Nat) (cs : List ElementId) :
    (a.linkAll p i cs).size = a.size := by
  induction cs generalizing a i with
  | nil => rfl
  | cons c cs ih => rw [linkAll, ih, link, size_update]

theorem size_foldl_detach (a : Arena) (cs : List ElementId) : (cs.foldl detach a).size = a.size := by
  induction cs generalizing a with
  | nil => rfl
  | cons c cs ih => rw [List.foldl_cons, ih, detach, size_update]

theorem get_linkAll_of_notMem (a : Arena) (p : ElementId) (i : Nat) {cs : List ElementId} {x : ElementId}
    (h : x ∉ cs) : (a.linkAll p i cs).get x = a.get x := by
  induction cs generalizing a i with
  | nil => rfl
  | cons c cs ih =>
    obtain ⟨hne, hrest⟩ := List.ne_and_not_mem_of_not_mem_cons h
    rw [linkAll, ih _ _ hrest, link, get_update_ne a _ hne]

theorem get_linkAll_of_mem (a : Arena) (p : ElementId) (i : Nat) {cs : List ElementId} (hnodup : cs.Nodup)
    (hinside : ∀ c ∈ cs, c < a.size) {x : ElementId} {j : Nat} (hx : cs[j]? = some x) :
    (a.linkAll p i cs).get x = { a.get x with parent := some p, index := i + j } := by
  induction cs generalizing a i j with
  | nil => simp at hx
  | cons c cs ih =>
    obtain ⟨hc, hcs⟩ := List.nodup_cons.1 hnodup
    have hlt : c < a.size := hinside c List.mem_cons_self
    rw [linkAll]
    cases j with
    | zero =>
      obtain rfl : c = x := by simpa using hx
      rw [get_linkAll_of_notMem _ _ _ hc, link, get_update_self a _ hlt]
      rfl
    | succ j =>
      have hx : cs[j]? = some x := by simpa using hx
      have hne : x ≠ c := by
        rintro rfl
        exact hc (List.mem_of_getElem? hx)
      rw [ih (a.link c p i) (i + 1) hcs
        (fun d hd => by rw [link, size_update]; exact hinside d (List.mem_cons_of_mem c hd)) hx,
        link, get_update_ne a _ hne, Nat.add_right_comm, Nat.add_assoc]

/-- What elements are, whatever their links. -/
def SameNodes (a a' : Arena) : Prop :=
  a'.size = a.size ∧ ∀ x, (a'.get x).kind = (a.get x).kind ∧ (a'.get x).location = (a.get x).location

theorem SameNodes.trans {a a' a'' : Arena} (h : SameNodes a a') (h' : SameNodes a' a'') : SameNodes a a'' :=
  ⟨h'.1.trans h.1, fun x => ⟨(h'.2 x).1.trans (h.2 x).1, (h'.2 x).2.trans (h.2 x).2⟩⟩

theorem sameNodes_update (a : Arena) (id : ElementId) (f : Element → Element)
    (hf : ∀ e, (f e).kind = e.kind ∧ (f e).location = e.location) : SameNodes a (a.update id f) := by
  refine ⟨size_update a id f, fun x => ?_⟩
  by_cases hlt : id < a.size
  · rw [get_update a id x f hlt]
    split
    · next h => rw [h]; exact hf _
    · exact ⟨rfl, rfl⟩
  · rw [get_update_of_size_le a f (Nat.le_of_not_lt hlt) x]
    exact ⟨rfl, rfl⟩

theorem sameNodes_link (a : Arena) (c p : ElementId) (i : Nat) : SameNodes a (a.link c p i) :=
  sameNodes_update a c _ fun _ => ⟨rfl, rfl⟩

theorem sameNodes_detach (a : Arena) (c : ElementId) : SameNodes a (a.detach c) :=
  sameNodes_update a c _ fun _ => ⟨rfl, rfl⟩

theorem sameNodes_setBuffer (a : Arena) (p : ElementId) (buffer : Option ChildBuffer) :
    SameNodes a (a.setBuffer p buffer) := sameNodes_update a p _ fun _ => ⟨rfl, rfl⟩

theorem sameNodes_putChild (a : Arena) (p : ElementId) (i : Nat) (c : ElementId) :
    SameNodes a (a.putChild p i c) :=
  sameNodes_update a p _ fun _ => ⟨rfl, rfl⟩

theorem sameNodes_linkAll (a : Arena) (p : ElementId) (i : Nat) (cs : List ElementId) :
    SameNodes a (a.linkAll p i cs) := by
  induction cs generalizing a i with
  | nil => exact ⟨rfl, fun _ => ⟨rfl, rfl⟩⟩
  | cons c cs ih => exact (sameNodes_link a c p i).trans (ih _ _)

/-- The same elements hang together. -/
structure SameLinks (a a' : Arena) : Prop where
  size : a'.size = a.size
  children (x : ElementId) : a'.children x = a.children x
  place (x : ElementId) : (a'.get x).parent = (a.get x).parent ∧ (a'.get x).index = (a.get x).index

theorem sameLinks_update (a : Arena) (id : ElementId) (f : Element → Element)
    (hf : (f (a.get id)).children = (a.get id).children ∧ (f (a.get id)).parent = (a.get id).parent ∧
      (f (a.get id)).index = (a.get id).index) : SameLinks a (a.update id f) := by
  have hget : ∀ x, ((a.update id f).get x).children = (a.get x).children ∧
      ((a.update id f).get x).parent = (a.get x).parent ∧
      ((a.update id f).get x).index = (a.get x).index := by
    intro x
    by_cases hlt : id < a.size
    · rw [get_update a id x f hlt]
      split
      · next h => rw [h]; exact hf
      · exact ⟨rfl, rfl, rfl⟩
    · rw [get_update_of_size_le a f (Nat.le_of_not_lt hlt) x]
      exact ⟨rfl, rfl, rfl⟩
  exact ⟨size_update a id f, fun x => (hget x).1, fun x => (hget x).2⟩

theorem Sound.sameLinks {a' : Arena} (h : Sound a used) (hsame : SameLinks a a') : Sound a' used := by
  refine ⟨fun hx => hsame.size ▸ h.inside hx, fun hp hc => ?_, fun hc hp => ?_⟩
  · rw [hsame.children] at hc
    rw [(hsame.place _).1, (hsame.place _).2]
    exact h.child hp hc
  · rw [(hsame.place _).1] at hp
    rw [(hsame.place _).2, hsame.children]
    exact h.parent hc hp

/-! ### Taking a child out -/

section
variable {p c : ElementId} {pre post : List ElementId}

/-- The arena after a child is taken out. -/
def without (a : Arena) (p : ElementId) (pre : List ElementId) (c : ElementId) : Arena :=
  let kept := ((a.get p).buffer.map fun b => { b with items := b.items.eraseIdx pre.length }).filter
    fun b => !b.items.isEmpty
  ((a.setBuffer p kept).detach c).relink p pre.length

theorem removeChild_eq (hchildren : a.children p = pre ++ c :: post) :
    Edit.removeChild p pre.length a = .ok c (a.without p pre c) := by
  have hchild : a.child p pre.length = .ok c := by
    rw [child, hchildren, List.getElem?_append_right (Nat.le_refl _), Nat.sub_self]
    rfl
  simp only [Edit.removeChild, Edit.observe, hchild, bind, EStateM.bind]
  rfl

theorem sameNodes_without (a : Arena) (p : ElementId) (pre : List ElementId) (c : ElementId) :
    SameNodes a (a.without p pre c) :=
  ((sameNodes_setBuffer a p _).trans (sameNodes_detach _ c)).trans (sameNodes_linkAll _ p _ _)

/-- The places that change when a child is taken out. -/
structure TakenOut (a a' : Arena) (p : ElementId) (pre : List ElementId) (c : ElementId)
    (post : List ElementId) :
    Prop where
  children : a'.children p = pre ++ post
  self : (a'.get p).parent = (a.get p).parent ∧ (a'.get p).index = (a.get p).index
  removed : (a'.get c).parent = none
  removed_children : a'.children c = a.children c
  after {j : Nat} {d : ElementId} : post[j]? = some d →
    a'.get d = { a.get d with parent := some p, index := pre.length + j }
  other {x : ElementId} : x ≠ p → x ≠ c → x ∉ post → a'.get x = a.get x

/-- Giving up an empty storage gives up no children. -/
theorem items_filter (buffer : Option ChildBuffer) :
    ((buffer.filter fun b => !b.items.isEmpty).map (·.items)).getD [] = (buffer.map (·.items)).getD [] := by
  cases buffer with
  | none => rfl
  | some b =>
    cases hb : b.items with
    | nil => simp [Option.filter, hb]
    | cons c cs => simp [Option.filter, hb]

theorem takenOut_without (hchildren : a.children p = pre ++ c :: post)
    (hnodup : (p :: (pre ++ c :: post)).Nodup) (hinside : ∀ x ∈ p :: (pre ++ c :: post), x < a.size) :
    TakenOut a (a.without p pre c) p pre c post := by
  obtain ⟨hp, hlist⟩ := List.nodup_cons.1 hnodup
  obtain ⟨-, hcpost, hdisjoint⟩ := List.nodup_append.1 hlist
  obtain ⟨hc, hpost⟩ := List.nodup_cons.1 hcpost
  have hpc : p ≠ c := fun h => hp (by rw [h]; exact List.mem_append_right _ List.mem_cons_self)
  have hppost : p ∉ post := fun h => hp (List.mem_append_right _ (List.mem_cons_of_mem _ h))
  have hpin : p < a.size := hinside p List.mem_cons_self
  have hcin : c < a.size := hinside c (List.mem_cons_of_mem _ (List.mem_append_right _ List.mem_cons_self))
  generalize hkept : ((a.get p).buffer.map fun b => { b with items := b.items.eraseIdx pre.length }).filter
    (fun b => !b.items.isEmpty) = kept
  have hitems : (kept.map (·.items)).getD [] = pre ++ post := by
    rw [← hkept, items_filter]
    simp only [children, Element.children] at hchildren
    cases hb : (a.get p).buffer with
    | none => simp [hb] at hchildren
    | some b =>
      have hbitems : b.items = pre ++ c :: post := by simpa [hb] using hchildren
      simp [hbitems, List.eraseIdx_append]
  have hdetached : ∀ x, ((a.setBuffer p kept).detach c).get x =
      if x = c then { a.get c with parent := none, index := 0 }
        else if x = p then { a.get p with buffer := kept } else a.get x := by
    intro x
    rw [detach, get_update _ _ _ _ (by rw [setBuffer, size_update]; exact hcin), setBuffer,
      get_update a p c _ hpin, get_update a p x _ hpin, if_neg (Ne.symm hpc)]
  have hdetachedChildren : ((a.setBuffer p kept).detach c).children p = pre ++ post := by
    rw [children, hdetached, if_neg hpc, if_pos rfl]
    exact hitems
  have hwithout : a.without p pre c = ((a.setBuffer p kept).detach c).linkAll p pre.length post := by
    rw [without, hkept, relink, hdetachedChildren, List.drop_left]
  have hsize : ((a.setBuffer p kept).detach c).size = a.size := by
    rw [detach, size_update, setBuffer, size_update]
  have hself : (a.without p pre c).get p = { a.get p with buffer := kept } := by
    rw [hwithout, get_linkAll_of_notMem _ _ _ hppost, hdetached, if_neg hpc, if_pos rfl]
  have hremoved : (a.without p pre c).get c = { a.get c with parent := none, index := 0 } := by
    rw [hwithout, get_linkAll_of_notMem _ _ _ hc, hdetached, if_pos rfl]
  refine ⟨?_, ?_, ?_, ?_, ?_, ?_⟩
  · rw [children, hself]
    exact hitems
  · rw [hself]
    exact ⟨rfl, rfl⟩
  · rw [hremoved]
  · rw [children, hremoved]
    rfl
  · intro j d hd
    have hdmem := List.mem_of_getElem? hd
    have hdc : d ≠ c := fun h => hc (h ▸ hdmem)
    have hdp : d ≠ p := fun h => hppost (h ▸ hdmem)
    have hin : ∀ x ∈ post, x < ((a.setBuffer p kept).detach c).size := by
      intro x hx
      rw [hsize]
      exact hinside x (List.mem_cons_of_mem _ (List.mem_append_right _ (List.mem_cons_of_mem _ hx)))
    rw [hwithout, get_linkAll_of_mem _ _ _ hpost hin hd, hdetached, if_neg hdc, if_neg hdp]
  · intro x hxp hxc hx
    rw [hwithout, get_linkAll_of_notMem _ _ _ hx, hdetached, if_neg hxc, if_neg hxp]

theorem TakenOut.children_of_ne {a' : Arena} (ht : TakenOut a a' p pre c post) {q : ElementId} (hq : q ≠ p) :
    a'.children q = a.children q := by
  by_cases hqc : q = c
  · rw [hqc]
    exact ht.removed_children
  · by_cases hqpost : q ∈ post
    · obtain ⟨j, hj⟩ := List.getElem?_of_mem hqpost
      rw [Arena.children, ht.after hj]
      rfl
    · rw [Arena.children, ht.other hq hqc hqpost, Arena.children]

/-- The links upwards of an element that is neither taken out nor moved are as before. -/
theorem TakenOut.links {a' : Arena} (ht : TakenOut a a' p pre c post) {x : ElementId} (hxc : x ≠ c)
    (hxpost : x ∉ post) :
    (a'.get x).parent = (a.get x).parent ∧ (a'.get x).index = (a.get x).index := by
  by_cases hxp : x = p
  · rw [hxp]
    exact ht.self
  · rw [ht.other hxp hxc hxpost]
    exact ⟨rfl, rfl⟩

theorem Sound.child_takenOut {a' : Arena} (h : Sound a used) (hp : used p)
    (hchildren : a.children p = pre ++ c :: post) (ht : TakenOut a a' p pre c post) {q d : ElementId}
    {i : Nat} (hq : used q) (hd : (a'.children q)[i]? = some d) :
    used d ∧ (a'.get d).parent = some q ∧ (a'.get d).index = i := by
  have hnodup : (pre ++ c :: post).Nodup := hchildren ▸ h.nodup_children hp
  obtain ⟨-, -, hdisjoint⟩ := List.nodup_append.1 hnodup
  by_cases hqp : q = p
  · subst hqp
    rw [ht.children] at hd
    by_cases hi : i < pre.length
    · rw [List.getElem?_append_left hi] at hd
      have hdpre := List.mem_of_getElem? hd
      have hplace : (a.children q)[i]? = some d := by rw [hchildren, List.getElem?_append_left hi, hd]
      obtain ⟨hdused, hdparent, hdindex⟩ := h.child hq hplace
      obtain ⟨hparent, hindex⟩ := ht.links (hdisjoint d hdpre c List.mem_cons_self)
        (fun hdpost => hdisjoint d hdpre d (List.mem_cons_of_mem _ hdpost) rfl)
      exact ⟨hdused, hparent.trans hdparent, hindex.trans hdindex⟩
    · rw [List.getElem?_append_right (by omega)] at hd
      have hdused := (h.child_mem hq
        (hchildren ▸ List.mem_append_right pre (List.mem_cons_of_mem c (List.mem_of_getElem? hd)))).1
      rw [ht.after hd]
      exact ⟨hdused, rfl, by simp only; omega⟩
  · rw [ht.children_of_ne hqp] at hd
    obtain ⟨hdused, hdparent, hdindex⟩ := h.child hq hd
    have hdnot : ∀ x ∈ pre ++ c :: post, d ≠ x := by
      rintro x hx rfl
      exact hqp (Option.some.inj (hdparent.symm.trans (h.child_mem hp (hchildren ▸ hx)).2))
    obtain ⟨hparent, hindex⟩ := ht.links (hdnot c (List.mem_append_right _ List.mem_cons_self))
      (fun hdpost => hdnot d (List.mem_append_right _ (List.mem_cons_of_mem _ hdpost)) rfl)
    exact ⟨hdused, hparent.trans hdparent, hindex.trans hdindex⟩

theorem Sound.parent_takenOut {a' : Arena} (h : Sound a used) (hp : used p)
    (hchildren : a.children p = pre ++ c :: post) (ht : TakenOut a a' p pre c post) {d q : ElementId}
    (hd : used d) (hq : (a'.get d).parent = some q) :
    used q ∧ (a'.children q)[(a'.get d).index]? = some d := by
  by_cases hdc : d = c
  · rw [hdc, ht.removed] at hq
    cases hq
  by_cases hdpost : d ∈ post
  · obtain ⟨j, hj⟩ := List.getElem?_of_mem hdpost
    rw [ht.after hj] at hq ⊢
    obtain rfl : p = q := Option.some.inj hq
    refine ⟨hp, ?_⟩
    simp only [ht.children]
    rw [List.getElem?_append_right (Nat.le_add_right _ _), Nat.add_sub_cancel_left, hj]
  obtain ⟨hparent, hindex⟩ := ht.links hdc hdpost
  rw [hparent] at hq
  obtain ⟨hqused, hplace⟩ := h.parent hd hq
  refine ⟨hqused, ?_⟩
  rw [hindex]
  by_cases hqp : q = p
  · subst hqp
    rw [hchildren] at hplace
    rw [ht.children]
    have hdpre : (a.get d).index < pre.length := by
      by_contra hle
      rw [List.getElem?_append_right (by omega)] at hplace
      rcases List.mem_cons.1 (List.mem_of_getElem? hplace) with h | h
      · exact hdc h
      · exact hdpost h
    rw [List.getElem?_append_left hdpre] at hplace ⊢
    exact hplace
  · rw [ht.children_of_ne hqp]
    exact hplace

theorem Sound.takenOut {a' : Arena} (h : Sound a used) (hp : used p)
    (hchildren : a.children p = pre ++ c :: post) (hsize : a'.size = a.size)
    (ht : TakenOut a a' p pre c post) : Sound a' used :=
  ⟨fun hx => hsize ▸ h.inside hx, h.child_takenOut hp hchildren ht, h.parent_takenOut hp hchildren ht⟩

/-! ### Putting another element in the place of a child -/

/-- The arena after an element takes the place of a child. -/
def replacing (a : Arena) (p : ElementId) (pre : List ElementId) (g : ElementId) : Arena :=
  (a.putChild p pre.length g).link g p pre.length

theorem sameNodes_replacing (a : Arena) (p : ElementId) (pre : List ElementId) (g : ElementId) :
    SameNodes a (a.replacing p pre g) := (sameNodes_putChild a p _ g).trans (sameNodes_link _ g p _)

/-- The places that change when an element takes the place of a child. -/
structure PutIn (a a' : Arena) (p : ElementId) (pre : List ElementId) (g : ElementId)
    (post : List ElementId) :
    Prop where
  children : a'.children p = pre ++ g :: post
  self : (a'.get p).parent = (a.get p).parent ∧ (a'.get p).index = (a.get p).index
  put : a'.get g = { a.get g with parent := some p, index := pre.length }
  other {x : ElementId} : x ≠ p → x ≠ g → a'.get x = a.get x

theorem putIn_replacing {e g : ElementId} (hchildren : a.children p = pre ++ e :: post) (hpg : p ≠ g)
    (hp : p < a.size) (hg : g < a.size) : PutIn a (a.replacing p pre g) p pre g post := by
  have hget : ∀ x, (a.replacing p pre g).get x =
      if x = g then { a.get g with parent := some p, index := pre.length }
      else if x = p then { a.get p with buffer := (a.get p).buffer.map fun b =>
        { b with items := b.items.set pre.length g } }
      else a.get x := by
    intro x
    rw [replacing, link, get_update _ _ _ _ (by rw [putChild, size_update]; exact hg), putChild,
      get_update a p g _ hp, get_update a p x _ hp, if_neg (Ne.symm hpg)]
  refine ⟨?_, ?_, ?_, ?_⟩
  · rw [children, hget, if_neg hpg, if_pos rfl]
    simp only [Arena.children, Element.children] at hchildren ⊢
    cases hb : (a.get p).buffer with
    | none => simp [hb] at hchildren
    | some b =>
      have hbitems : b.items = pre ++ e :: post := by simpa [hb] using hchildren
      simp [hbitems]
  · rw [hget, if_neg hpg, if_pos rfl]
    exact ⟨rfl, rfl⟩
  · rw [hget, if_pos rfl]
  · intro x hxp hxg
    rw [hget, if_neg hxg, if_neg hxp]

theorem PutIn.children_of_ne {a' : Arena} {g : ElementId} (hput : PutIn a a' p pre g post)
    {q : ElementId} (hq : q ≠ p) :
    a'.children q = a.children q := by
  by_cases hqg : q = g
  · rw [hqg, Arena.children, hput.put]
    rfl
  · rw [Arena.children, hput.other hq hqg, Arena.children]

/-- The links upwards of an element that is not moved are as before. -/
theorem PutIn.links {a' : Arena} {g : ElementId} (hput : PutIn a a' p pre g post)
    {x : ElementId} (hxg : x ≠ g) :
    (a'.get x).parent = (a.get x).parent ∧ (a'.get x).index = (a.get x).index := by
  by_cases hxp : x = p
  · rw [hxp]
    exact hput.self
  · rw [hput.other hxp hxg]
    exact ⟨rfl, rfl⟩

theorem PutIn.getElem?_of_ne {a' : Arena} {e g : ElementId} (hput : PutIn a a' p pre g post)
    (he : a.children p = pre ++ e :: post) {i : Nat} (hi : i ≠ pre.length) :
    (a'.children p)[i]? = (a.children p)[i]? := by
  rw [hput.children, he]
  by_cases hlt : i < pre.length
  · rw [List.getElem?_append_left hlt, List.getElem?_append_left hlt]
  · rw [List.getElem?_append_right (by omega), List.getElem?_append_right (by omega)]
    obtain ⟨j, hj⟩ : ∃ j, i - pre.length = j + 1 := ⟨i - pre.length - 1, by omega⟩
    rw [hj, List.getElem?_cons_succ, List.getElem?_cons_succ]

theorem Sound.child_putIn {a' : Arena} {e g : ElementId} (h : Sound a used) (hp : used p)
    (he : a.children p = pre ++ e :: post) (hg : a.children e = [g]) (heg : e ≠ g)
    (hput : PutIn a a' p pre g post) {q d : ElementId} {i : Nat} (hq : used q ∧ q ≠ e)
    (hd : (a'.children q)[i]? = some d) :
    (used d ∧ d ≠ e) ∧ (a'.get d).parent = some q ∧ (a'.get d).index = i := by
  obtain ⟨hq, hqe⟩ := hq
  obtain ⟨heused, heparent, heindex⟩ := h.child hp (children_getElem?_length he)
  obtain ⟨hgused, hgparent⟩ := h.child_mem heused (hg ▸ List.mem_singleton_self g)
  by_cases hnew : q = p ∧ i = pre.length
  · obtain ⟨rfl, rfl⟩ := hnew
    rw [children_getElem?_length hput.children] at hd
    obtain rfl : g = d := Option.some.inj hd
    rw [hput.put]
    exact ⟨⟨hgused, Ne.symm heg⟩, rfl, rfl⟩
  -- Any other child was one before.
  have hbefore : (a.children q)[i]? = some d := by
    by_cases hqp : q = p
    · rw [hqp] at hd ⊢
      rwa [← hput.getElem?_of_ne he fun hi => hnew ⟨hqp, hi⟩]
    · rwa [← hput.children_of_ne hqp]
  obtain ⟨hdused, hdparent, hdindex⟩ := h.child hq hbefore
  have hdg : d ≠ g := by
    rintro rfl
    exact hqe (Option.some.inj (hdparent.symm.trans hgparent))
  have hde : d ≠ e := by
    rintro rfl
    exact hnew ⟨Option.some.inj (hdparent.symm.trans heparent), hdindex.symm.trans heindex⟩
  obtain ⟨hparent, hindex⟩ := hput.links hdg
  exact ⟨⟨hdused, hde⟩, hparent.trans hdparent, hindex.trans hdindex⟩

theorem Sound.parent_putIn {a' : Arena} {e g : ElementId} (h : Sound a used) (hp : used p)
    (he : a.children p = pre ++ e :: post) (hg : a.children e = [g]) (hpe : p ≠ e)
    (hput : PutIn a a' p pre g post) {d q : ElementId} (hd : used d ∧ d ≠ e)
    (hq : (a'.get d).parent = some q) : (used q ∧ q ≠ e) ∧ (a'.children q)[(a'.get d).index]? = some d := by
  obtain ⟨hd, hde⟩ := hd
  by_cases hdg : d = g
  · subst hdg
    rw [hput.put] at hq ⊢
    obtain rfl : p = q := Option.some.inj hq
    exact ⟨⟨hp, hpe⟩, children_getElem?_length hput.children⟩
  obtain ⟨hparent, hindex⟩ := hput.links hdg
  rw [hparent] at hq
  obtain ⟨hqused, hplace⟩ := h.parent hd hq
  have hqe : q ≠ e := by
    rintro rfl
    rw [hg] at hplace
    exact hdg (List.mem_singleton.1 (List.mem_of_getElem? hplace))
  refine ⟨⟨hqused, hqe⟩, ?_⟩
  rw [hindex]
  by_cases hqp : q = p
  · subst hqp
    rwa [hput.getElem?_of_ne he]
    intro hi
    rw [hi, children_getElem?_length he] at hplace
    exact hde (Option.some.inj hplace).symm
  · rwa [hput.children_of_ne hqp]

/-- An element whose only child takes its place goes out of use. -/
theorem Sound.putIn {a' : Arena} {e g : ElementId} (h : Sound a used) (hp : used p)
    (he : a.children p = pre ++ e :: post) (hg : a.children e = [g]) (hpe : p ≠ e) (heg : e ≠ g)
    (hsize : a'.size = a.size) (hput : PutIn a a' p pre g post) :
    Sound a' fun x => used x ∧ x ≠ e :=
  ⟨fun hx => hsize ▸ h.inside hx.1, h.child_putIn hp he hg heg hput, h.parent_putIn hp he hg hpe hput⟩

end

end Stencil.Arena
