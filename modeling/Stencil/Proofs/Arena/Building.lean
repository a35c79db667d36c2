import Stencil.Proofs.Arena.Loading
import Mathlib.Logic.Relation
import Mathlib.Logic.Function.Basic

/-! # Building arenas

Whoever builds an arena edits the children of one element at a time. As long as what is put in hangs
nowhere else, and not above the place it is put in, the elements know their places, no storage is too small,
and no element stands below itself. -/

namespace Stencil

namespace Arena

/-! ### Consistency -/

/-- An element stands below another. -/
def Under (a : Arena) : ElementId → ElementId → Prop := Relation.TransGen fun c p => (a.get c).parent = some p

/-- Parents and children know each other, whoever has children has storage for them, and no element stands
below itself. -/
structure Consistent (a : Arena) : Prop where
  links : a.Sound (· < a.size)
  storage (p : ElementId) : (a.get p).buffer = none ↔ a.children p = []
  capacity {p : ElementId} {b : ChildBuffer} : (a.get p).buffer = some b → b.items.length ≤ b.capacity
  forest (x : ElementId) : ¬ a.Under x x

/-- An element that can become a child of another: it hangs nowhere, and the other is not below it. -/
structure Insertable (a : Arena) (p c : ElementId) : Prop where
  inside : c < a.size
  orphan : (a.get c).parent = none
  ne : c ≠ p
  notAbove : ¬ a.Under p c

/-- Some elements are listed as the children of one, in place of those it had; those that are not listed
any more have lost their parent. -/
structure Relisted (a a' : Arena) (p : ElementId) (cs : List ElementId) : Prop where
  size : a'.size = a.size
  children : a'.children p = cs
  released {c : ElementId} : c ∈ a.children p → c ∉ cs → (a'.get c).parent = none
  other {c : ElementId} : c ∉ a.children p → c ∉ cs →
    (a'.get c).parent = (a.get c).parent ∧ (a'.get c).index = (a.get c).index
  storage : (a'.get p).buffer = none ↔ cs = []
  capacity {b : ChildBuffer} : (a'.get p).buffer = some b → b.items.length ≤ b.capacity
  buffer {q : ElementId} : q ≠ p → (a'.get q).buffer = (a.get q).buffer

/-- The elements that are listed also know their place. -/
structure Rearranged (a a' : Arena) (p : ElementId) (cs : List ElementId) :
    Prop extends Relisted a a' p cs where
  placed {j : Nat} {c : ElementId} : cs[j]? = some c → (a'.get c).parent = some p ∧ (a'.get c).index = j

section
variable {a a' : Arena} {p c : ElementId} {cs : List ElementId}

theorem Rearranged.children_of_ne (h : Rearranged a a' p cs) {q : ElementId} (hq : q ≠ p) :
    a'.children q = a.children q := by
  rw [Arena.children, Element.children, h.buffer hq]
  rfl

theorem Rearranged.children_eq (h : Rearranged a a' p cs) :
    a'.children = Function.update a.children p cs := by
  funext q
  by_cases hq : q = p
  · rw [hq, h.children, Function.update_self]
  · rw [h.children_of_ne hq, Function.update_of_ne hq]

/-- Elements that are taken in hang nowhere or at the same element. -/
theorem Consistent.parent_of_mem (h : a.Consistent) (hp : p < a.size)
    (hnew : a.Insertable p c ∨ c ∈ a.children p) {q : ElementId} (hparent : (a.get c).parent = some q) :
    c ∈ a.children p ∧ q = p := by
  rcases hnew with hnew | hnew
  · rw [hnew.orphan] at hparent
    cases hparent
  · exact ⟨hnew, Option.some.inj (hparent.symm.trans (h.links.child_mem hp hnew).2)⟩

theorem Consistent.links_rearranged (h : a.Consistent) (hr : Rearranged a a' p cs) (hp : p < a.size)
    (hnew : ∀ c ∈ cs, a.Insertable p c ∨ c ∈ a.children p) : a'.Sound (· < a'.size) := by
  have hinside : ∀ {c}, c ∈ cs → c < a.size := fun hc =>
    (hnew _ hc).elim (·.inside) fun hc => (h.links.child_mem hp hc).1
  rw [hr.size]
  refine ⟨fun hx => hr.size ▸ hx, fun {q c i} hq hc => ?_, fun {c q} hc hparent => ?_⟩
  · by_cases hqp : q = p
    · subst hqp
      rw [hr.children] at hc
      exact ⟨hinside (List.mem_of_getElem? hc), hr.placed hc⟩
    · rw [hr.children_of_ne hqp] at hc
      obtain ⟨hcin, hparent, hindex⟩ := h.links.child hq hc
      have hold : c ∉ a.children p := fun hcp =>
        hqp (Option.some.inj (hparent.symm.trans (h.links.child_mem hp hcp).2))
      have hcs : c ∉ cs := fun hcs => hold (h.parent_of_mem hp (hnew c hcs) hparent).1
      obtain ⟨hsame, hsame'⟩ := hr.other hold hcs
      exact ⟨hcin, hsame.trans hparent, hsame'.trans hindex⟩
  · by_cases hcs : c ∈ cs
    · obtain ⟨j, hj⟩ := List.getElem?_of_mem hcs
      obtain ⟨hplaced, hindex⟩ := hr.placed hj
      obtain rfl := Option.some.inj (hplaced.symm.trans hparent)
      exact ⟨hp, by rw [hr.children, hindex]; exact hj⟩
    · by_cases hold : c ∈ a.children p
      · rw [hr.released hold hcs] at hparent
        cases hparent
      · obtain ⟨hsame, hsame'⟩ := hr.other hold hcs
        rw [hsame] at hparent
        obtain ⟨hq, hplace⟩ := h.links.parent hc hparent
        have hqp : q ≠ p := by
          rintro rfl
          exact hold (List.mem_of_getElem? hplace)
        exact ⟨hq, by rw [hr.children_of_ne hqp, hsame']; exact hplace⟩

/-- A link upwards is an old one, or leads from an element that was taken in. -/
theorem Rearranged.parent_cases (hr : Rearranged a a' p cs) {x y : ElementId}
    (h : (a'.get x).parent = some y) :
    (a.get x).parent = some y ∨ x ∈ cs ∧ y = p := by
  by_cases hcs : x ∈ cs
  · obtain ⟨j, hj⟩ := List.getElem?_of_mem hcs
    exact .inr ⟨hcs, Option.some.inj (h.symm.trans (hr.placed hj).1)⟩
  · by_cases hold : x ∈ a.children p
    · rw [hr.released hold hcs] at h
      cases h
    · exact .inl ((hr.other hold hcs).1 ▸ h)

/-- Above the place where elements are taken in nothing changes, since none of them stands there. -/
theorem Consistent.under_of_rearranged (h : a.Consistent) (hr : Rearranged a a' p cs) (hp : p < a.size)
    (hnew : ∀ c ∈ cs, a.Insertable p c ∨ c ∈ a.children p) {y : ElementId} (hy : a'.Under p y) :
    a.Under p y := by
  have hlink : ∀ {x y}, x = p ∨ a.Under p x → (a'.get x).parent = some y → (a.get x).parent = some y := by
    intro x y hx hparent
    rcases hr.parent_cases hparent with hold | ⟨hcs, rfl⟩
    · exact hold
    · rcases hnew x hcs with hinsertable | hchild
      · exact (hx.elim hinsertable.ne hinsertable.notAbove).elim
      · exact (h.links.child_mem hp hchild).2
  induction hy with
  | single hparent => exact .single (hlink (.inl rfl) hparent)
  | tail _ hparent ih => exact .tail ih (hlink (.inr ih) hparent)

/-- A new way upwards is an old one, or leads through the place where elements were taken in. -/
theorem Rearranged.under_cases (hr : Rearranged a a' p cs) {x y : ElementId} (h : a'.Under x y) :
    a.Under x y ∨ a'.Under x p ∧ (y = p ∨ a'.Under p y) := by
  induction h with
  | single hparent =>
    rcases hr.parent_cases hparent with hold | ⟨-, rfl⟩
    · exact .inl (.single hold)
    · exact .inr ⟨.single hparent, .inl rfl⟩
  | @tail z y hxz hparent ih =>
    rcases ih with hunder | ⟨hxp, rfl | hpz⟩
    · rcases hr.parent_cases hparent with hold | ⟨-, rfl⟩
      · exact .inl (.tail hunder hold)
      · exact .inr ⟨.tail hxz hparent, .inl rfl⟩
    · exact .inr ⟨hxp, .inr (.single hparent)⟩
    · exact .inr ⟨hxp, .inr (.tail hpz hparent)⟩

/-- Giving an element other children keeps an arena consistent, if those hung nowhere before and not above
it, or were its children already. -/
theorem Consistent.rearranged (h : a.Consistent) (hr : Rearranged a a' p cs) (hp : p < a.size)
    (hnew : ∀ c ∈ cs, a.Insertable p c ∨ c ∈ a.children p) : a'.Consistent where
  links := h.links_rearranged hr hp hnew
  storage q := by
    by_cases hq : q = p
    · rw [hq, hr.children]
      exact hr.storage
    · rw [hr.buffer hq, hr.children_of_ne hq]
      exact h.storage q
  capacity {q b} hb := by
    by_cases hq : q = p
    · rw [hq] at hb
      exact hr.capacity hb
    · rw [hr.buffer hq] at hb
      exact h.capacity hb
  forest x hx := by
    rcases hr.under_cases hx with hold | ⟨hxp, hpx⟩
    · exact h.forest x hold
    · have hcycle : a'.Under p p := hpx.elim (fun e => e ▸ hxp) fun hpx => hpx.trans hxp
      exact h.forest p (h.under_of_rearranged hr hp hnew hcycle)

/-! ### Rearranging -/

/-- What a change leaves alone in every element it leaves alone in the arena. -/
theorem get_update_keeps {β : Type} (read : Element → β) (a : Arena) (id x : ElementId)
    {f : Element → Element} (hf : ∀ e, read (f e) = read e) :
    read ((a.update id f).get x) = read (a.get x) := by
  by_cases hid : id < a.size
  · rw [get_update a id x f hid]
    split
    · next h => rw [hf, h]
    · rfl
  · rw [get_update_of_size_le a f (Nat.le_of_not_lt hid)]

theorem places_setBuffer (a : Arena) (p : ElementId) (buffer : Option ChildBuffer) (x : ElementId) :
    ((a.setBuffer p buffer).get x).parent = (a.get x).parent ∧
    ((a.setBuffer p buffer).get x).index = (a.get x).index :=
  ⟨get_update_keeps (·.parent) a p x fun _ => rfl, get_update_keeps (·.index) a p x fun _ => rfl⟩

theorem buffer_linkAll (a : Arena) (p : ElementId) (i : Nat) (cs : List ElementId) (x : ElementId) :
    ((a.linkAll p i cs).get x).buffer = (a.get x).buffer := by
  induction cs generalizing a i with
  | nil => rfl
  | cons c cs ih =>
    rw [linkAll, ih]
    exact get_update_keeps (·.buffer) a c x fun _ => rfl

theorem get_foldl_detach_of_notMem (a : Arena) {cs : List ElementId} {x : ElementId} (hx : x ∉ cs) :
    (cs.foldl detach a).get x = a.get x := by
  induction cs generalizing a with
  | nil => rfl
  | cons c cs ih =>
    obtain ⟨hne, hrest⟩ := List.ne_and_not_mem_of_not_mem_cons hx
    rw [List.foldl_cons, ih _ hrest, detach, get_update_ne a _ hne]

theorem parent_foldl_detach_of_mem (a : Arena) {cs : List ElementId} (hinside : ∀ c ∈ cs, c < a.size)
    {x : ElementId} (hx : x ∈ cs) : ((cs.foldl detach a).get x).parent = none := by
  induction cs generalizing a with
  | nil => cases hx
  | cons c cs ih =>
    rw [List.foldl_cons]
    by_cases hrest : x ∈ cs
    · exact ih _ (fun d hd => by rw [detach, size_update]; exact hinside d (List.mem_cons_of_mem c hd)) hrest
    · obtain rfl : x = c := (List.mem_cons.1 hx).resolve_right hrest
      rw [get_foldl_detach_of_notMem _ hrest, detach, get_update_self a _ (hinside x List.mem_cons_self)]

theorem buffer_foldl_detach (a : Arena) (cs : List ElementId) (x : ElementId) :
    ((cs.foldl detach a).get x).buffer = (a.get x).buffer := by
  induction cs generalizing a with
  | nil => rfl
  | cons c cs ih =>
    rw [List.foldl_cons, ih]
    exact get_update_keeps (·.buffer) a c x fun _ => rfl

/-- Linking those that are listed in a place where they were not before. -/
theorem Relisted.linkAll {b : Arena} (h : Relisted a b p cs) (i : Nat) {ds : List ElementId} (hds : ds.Nodup)
    (hinside : ∀ d ∈ ds, d < a.size) (hlisted : ∀ d ∈ ds, d ∈ cs)
    (hplaced : ∀ {j c}, cs[j]? = some c →
      (∃ k, j = i + k ∧ ds[k]? = some c) ∨ c ∉ ds ∧ (b.get c).parent = some p ∧ (b.get c).index = j) :
    Rearranged a (b.linkAll p i ds) p cs where
  size := (size_linkAll b p i ds).trans h.size
  children := by
    rw [Arena.children, Element.children, buffer_linkAll]
    exact h.children
  released hold hcs := by
    rw [get_linkAll_of_notMem b p i fun hc => hcs (hlisted _ hc)]
    exact h.released hold hcs
  other hold hcs := by
    rw [get_linkAll_of_notMem b p i fun hc => hcs (hlisted _ hc)]
    exact h.other hold hcs
  storage := by
    rw [buffer_linkAll]
    exact h.storage
  capacity hb := by
    rw [buffer_linkAll] at hb
    exact h.capacity hb
  buffer hq := by
    rw [buffer_linkAll]
    exact h.buffer hq
  placed {j c} hc := by
    rcases hplaced hc with ⟨k, rfl, hk⟩ | ⟨hnot, hplace⟩
    · rw [get_linkAll_of_mem b p i hds (fun d hd => h.size.symm ▸ hinside d hd) hk]
      exact ⟨rfl, rfl⟩
    · rw [get_linkAll_of_notMem b p i hnot]
      exact hplace

end

end Arena

/-! ### Storage -/

namespace ChildBuffer

theorem items_reserve (b : Option ChildBuffer) : (reserve b).items = (b.map (·.items)).getD [] := by
  cases b with
  | none => rfl
  | some b =>
    simp only [reserve]
    split <;> rfl

/-- There is room for one more. -/
theorem length_lt_reserve {b : Option ChildBuffer} (h : ∀ b', b = some b' → b'.items.length ≤ b'.capacity) :
    (reserve b).items.length < (reserve b).capacity := by
  cases b with
  | none => decide
  | some b =>
    have hle := h b rfl
    simp only [reserve]
    split
    · simp only
      omega
    · omega

theorem length_ofList_le {cs : List ElementId} {b : ChildBuffer} (h : ofList cs = some b) :
    b.items.length ≤ b.capacity := by
  suffices hpush : ∀ (cs : List ElementId) (b : Option ChildBuffer),
      (∀ b', b = some b' → b'.items.length ≤ b'.capacity) →
      ∀ b', cs.foldl (fun b c => some (push b c)) b = some b' → b'.items.length ≤ b'.capacity from
    hpush cs none nofun b h
  intro cs
  induction cs with
  | nil => exact fun b hb => hb
  | cons c cs ih =>
    intro b hb
    refine ih (some (push b c)) ?_
    rintro _ ⟨⟩
    have hlt := length_lt_reserve hb
    simp only [push, List.length_append, List.length_singleton]
    omega

end ChildBuffer

namespace Arena

/-! ### Edits -/

section
variable {a : Arena} {p c : ElementId} {i : Nat} {cs : List ElementId}

theorem children_of_buffer {b : Arena} {buffer : Option ChildBuffer} (h : (b.get p).buffer = buffer) :
    b.children p = (buffer.map (·.items)).getD [] := by
  rw [children, Element.children, h]

theorem Consistent.notMem_of_insertable (h : a.Consistent) (hp : p < a.size) (hc : a.Insertable p c) :
    c ∉ a.children p := by
  intro hmem
  have hparent := (h.links.child_mem hp hmem).2
  rw [hc.orphan] at hparent
  cases hparent

/-- The arena after a child is inserted. -/
def inserting (a : Arena) (p : ElementId) (i : Nat) (c : ElementId) : Arena :=
  let b := ChildBuffer.reserve (a.get p).buffer
  (a.setBuffer p (some { b with items := b.items.insertIdx i c })).relink p i

theorem insertChild_eq (a : Arena) (p : ElementId) (i : Nat) (c : ElementId) : Edit.insertChild p i c a =
    if i > a.childCount p then .error (.child i (a.childCount p)) a else .ok () (a.inserting p i c) := by
  change (if i > a.childCount p then throw (.child i (a.childCount p))
    else set (a.inserting p i c) : Edit Unit) a = _
  split <;> rfl

/-- The new child is listed with the others. -/
theorem relisted_inserting (h : a.Consistent) (hp : p < a.size) (hi : i ≤ a.childCount p) :
    Relisted a (a.setBuffer p (some { ChildBuffer.reserve (a.get p).buffer with
      items := (a.children p).insertIdx i c })) p ((a.children p).insertIdx i c) := by
  have hperm := List.perm_insertIdx c (a.children p) hi
  have hlength : ((a.children p).insertIdx i c).length = (a.children p).length + 1 := hperm.length_eq
  have hself {buffer : Option ChildBuffer} : ((a.setBuffer p buffer).get p).buffer = buffer := by
    rw [setBuffer, get_update_self a _ hp]
  refine ⟨size_update a p _, children_of_buffer hself, fun {x} hx hxcs => ?_, fun {x} _ _ => ?_,
    ?_, fun {b} hb => ?_,
    fun {q} hq => ?_⟩
  · exact absurd (hperm.mem_iff.2 (List.mem_cons_of_mem c hx)) hxcs
  · exact places_setBuffer a p _ x
  · rw [hself]
    refine ⟨by rintro ⟨⟩, fun hnil => ?_⟩
    rw [hnil] at hlength
    cases hlength
  · have hroom := ChildBuffer.length_lt_reserve (b := (a.get p).buffer) fun b hb => h.capacity hb
    rw [hself] at hb
    obtain rfl := Option.some.inj hb
    rw [ChildBuffer.items_reserve] at hroom
    change (a.children p).length < _ at hroom
    simp only [hlength]
    omega
  · rw [setBuffer, get_update_ne a _ hq]

theorem rearranged_inserting (h : a.Consistent) (hp : p < a.size) (hc : a.Insertable p c)
    (hi : i ≤ a.childCount p) :
    Rearranged a (a.inserting p i c) p ((a.children p).insertIdx i c) := by
  have hlisted := relisted_inserting (c := c) h hp hi
  have hperm := List.perm_insertIdx c (a.children p) hi
  have hnodup : ((a.children p).insertIdx i c).Nodup :=
    hperm.nodup_iff.2 (List.nodup_cons.2 ⟨h.notMem_of_insertable hp hc, h.links.nodup_children hp⟩)
  have hinside : ∀ d ∈ (a.children p).insertIdx i c, d < a.size := by
    intro d hd
    rcases List.mem_cons.1 (hperm.mem_iff.1 hd) with rfl | hd
    · exact hc.inside
    · exact (h.links.child_mem hp hd).1
  have hitems : (ChildBuffer.reserve (a.get p).buffer).items = a.children p := ChildBuffer.items_reserve _
  rw [inserting, hitems, relink, hlisted.children]
  refine hlisted.linkAll i (hnodup.sublist (List.drop_sublist _ _))
    (fun d hd => hinside d (List.mem_of_mem_drop hd))
    (fun d hd => List.mem_of_mem_drop hd) fun {j d} hd => ?_
  by_cases hij : i ≤ j
  · exact .inl ⟨j - i, by omega, by rw [List.getElem?_drop, Nat.add_sub_cancel' hij]; exact hd⟩
  · -- The children before the new one stay where they are.
    have hold : (a.children p)[j]? = some d := by
      rw [← hd, List.getElem?_insertIdx_of_lt (by omega)]
    obtain ⟨-, hparent, hindex⟩ := h.links.child hp hold
    have hplaces := places_setBuffer a p (some { ChildBuffer.reserve (a.get p).buffer with
      items := (a.children p).insertIdx i c }) d
    refine .inr ⟨fun hdrop => ?_, hplaces.1.trans hparent, hplaces.2.trans hindex⟩
    have htake : d ∈ ((a.children p).insertIdx i c).take i :=
      List.mem_of_getElem? (i := j) (by rw [List.getElem?_take_of_lt (by omega)]; exact hd)
    exact List.disjoint_take_drop hnodup (Nat.le_refl i) htake hdrop

/-- The arena after an element is listed in place of a child, which loses its parent. -/
def put (a : Arena) (p : ElementId) (i : Nat) (old c : ElementId) : Arena :=
  if old ≠ c then (a.putChild p i c).detach old else a.putChild p i c

theorem setChildAt_eq (a : Arena) (p : ElementId) (i : Nat) (c : ElementId) : Edit.setChildAt p i c a =
    match (a.children p)[i]? with
    | some old => .ok () ((a.put p i old c).link c p i)
    | none => .error (.child i (a.childCount p)) a := by
  cases hold : (a.children p)[i]? with
  | none =>
    have hchild : a.child p i = .error (.child i (a.childCount p)) := by rw [child, hold]
    simp only [Edit.setChildAt, Edit.observe, bind, EStateM.bind, hchild]
  | some old =>
    have hchild : a.child p i = .ok old := by rw [child, hold]
    simp only [Edit.setChildAt, Edit.observe, bind, EStateM.bind, hchild, put]
    by_cases hsame : old = c
    · simp only [hsame, ne_eq, not_true_eq_false, if_false]
      rfl
    · simp only [hsame, ne_eq, not_false_eq_true, if_true]
      rfl

section
variable {old : ElementId}

theorem get_put_of_ne (a : Arena) (p : ElementId) (i : Nat) {x : ElementId} (hx : x ≠ old ∨ x = c) :
    (a.put p i old c).get x = (a.putChild p i c).get x := by
  unfold put
  split
  · next hne => exact get_update_ne _ _ (hx.elim id fun hxc hxo => hne (hxo.symm.trans hxc))
  · rfl

theorem places_put_of_ne (a : Arena) (p : ElementId) (i : Nat) {x : ElementId} (hx : x ≠ old ∨ x = c) :
    ((a.put p i old c).get x).parent = (a.get x).parent ∧
    ((a.put p i old c).get x).index = (a.get x).index := by
  rw [get_put_of_ne a p i hx]
  exact ⟨get_update_keeps (·.parent) a p x fun _ => rfl, get_update_keeps (·.index) a p x fun _ => rfl⟩

theorem buffer_put (a : Arena) (p : ElementId) (i : Nat) (old c x : ElementId) :
    ((a.put p i old c).get x).buffer = ((a.putChild p i c).get x).buffer := by
  unfold put
  split
  · exact get_update_keeps (·.buffer) _ old x fun _ => rfl
  · rfl

theorem size_put (a : Arena) (p : ElementId) (i : Nat) (old c : ElementId) :
    (a.put p i old c).size = a.size := by
  unfold put
  split
  · rw [detach, size_update, putChild, size_update]
  · rw [putChild, size_update]

/-- The new child is listed where the old one was. -/
theorem relisted_put (h : a.Consistent) (hp : p < a.size) (hold : (a.children p)[i]? = some old) :
    Relisted a (a.put p i old c) p ((a.children p).set i c) := by
  obtain ⟨hi, -⟩ := List.getElem?_eq_some_iff.1 hold
  have holdMem := List.mem_of_getElem? hold
  have hset : c ∈ (a.children p).set i c := List.mem_of_getElem? (List.getElem?_set_self hi)
  obtain ⟨buffer, hbuffer⟩ : ∃ buffer, (a.get p).buffer = some buffer := by
    refine Option.ne_none_iff_exists'.1 fun hnone => ?_
    rw [(h.storage p).1 hnone] at holdMem
    cases holdMem
  have hitems : buffer.items = a.children p := (children_of_buffer hbuffer).symm
  have hself : ((a.put p i old c).get p).buffer = some { buffer with items := (a.children p).set i c } := by
    rw [buffer_put, putChild, get_update_self a _ hp, hbuffer, ← hitems]
    rfl
  refine ⟨size_put a p i old c, children_of_buffer hself, fun {x} hx hxcs => ?_, fun {x} hx hxcs => ?_,
    ?_, fun {b} hb => ?_,
    fun {q} hq => ?_⟩
  · obtain ⟨j, hj⟩ := List.getElem?_of_mem hx
    have hji : j = i := by
      by_contra hne
      exact hxcs (List.mem_of_getElem? (i := j) (by rw [List.getElem?_set_ne (Ne.symm hne)]; exact hj))
    obtain rfl : old = x := Option.some.inj (hold.symm.trans (hji ▸ hj))
    have hne : old ≠ c := fun e => hxcs (e ▸ hset)
    rw [put, if_pos hne, detach, get_update_self _ _
      (by rw [putChild, size_update]; exact (h.links.child hp hold).1)]
  · exact places_put_of_ne a p i (.inl fun hxo => hx (hxo ▸ holdMem))
  · rw [hself]
    refine ⟨by rintro ⟨⟩, fun hnil => ?_⟩
    rw [hnil] at hset
    cases hset
  · have hle := h.capacity hbuffer
    rw [hself] at hb
    obtain rfl := Option.some.inj hb
    rw [hitems] at hle
    rwa [List.length_set]
  · rw [buffer_put, putChild, get_update_ne a _ hq]

theorem rearranged_put (h : a.Consistent) (hp : p < a.size)
    (hc : a.Insertable p c ∨ (a.children p)[i]? = some c) (hold : (a.children p)[i]? = some old) :
    Rearranged a ((a.put p i old c).link c p i) p ((a.children p).set i c) := by
  obtain ⟨hi, -⟩ := List.getElem?_eq_some_iff.1 hold
  have hchild : ∀ {j d}, (a.children p)[j]? = some d → d < a.size ∧ (a.get d).parent = some p ∧
      (a.get d).index = j :=
    fun hd => h.links.child hp hd
  -- The new element is none of the other children.
  have hother : ∀ {j}, (a.children p)[j]? = some c → j = i := by
    intro j hj
    rcases hc with hc | hc
    · exact absurd (List.mem_of_getElem? hj) (h.notMem_of_insertable hp hc)
    · exact (hchild hj).2.2.symm.trans (hchild hc).2.2
  refine (relisted_put h hp hold).linkAll i (List.nodup_singleton c) (fun d hd => ?_)
    (fun d hd => ?_) fun {j d} hd => ?_
  · rw [List.mem_singleton.1 hd]
    exact hc.elim (·.inside) fun hc => (hchild hc).1
  · rw [List.mem_singleton.1 hd]
    exact List.mem_of_getElem? (List.getElem?_set_self hi)
  · by_cases hji : j = i
    · subst hji
      rw [List.getElem?_set_self hi] at hd
      exact .inl ⟨0, rfl, by rw [Option.some.inj hd]; rfl⟩
    · rw [List.getElem?_set_ne (Ne.symm hji)] at hd
      have hdc : d ≠ c := by
        rintro rfl
        exact hji (hother hd)
      have hdo : d ≠ old := by
        rintro rfl
        exact hji ((hchild hd).2.2.symm.trans (hchild hold).2.2)
      obtain ⟨hparent, hindex⟩ := places_put_of_ne (c := c) a p i (.inl hdo)
      exact .inr ⟨fun hmem => hdc (List.mem_singleton.1 hmem), hparent.trans (hchild hd).2.1,
        hindex.trans (hchild hd).2.2⟩

end

theorem rearranged_setChildren (h : a.Consistent) (hp : p < a.size) (hnodup : cs.Nodup)
    (hnew : ∀ c ∈ cs, a.Insertable p c ∨ c ∈ a.children p) :
    Rearranged a (a.setChildren p (ChildBuffer.ofList cs)) p cs := by
  generalize hkept : (ChildBuffer.ofList cs).filter (fun b => !b.items.isEmpty) = kept
  have hitems : (kept.map (·.items)).getD [] = cs := by rw [← hkept, items_filter, ChildBuffer.items_ofList]
  generalize hd : (a.children p).foldl detach (a.setBuffer p none) = d
  have hdsize : d.size = a.size := by rw [← hd, size_foldl_detach, setBuffer, size_update]
  generalize hb : d.setBuffer p kept = b
  have hbuffer : (b.get p).buffer = kept := by
    rw [← hb, setBuffer, get_update_self d _ (hdsize.symm ▸ hp)]
  have hchildren : b.children p = cs := (children_of_buffer hbuffer).trans hitems
  have hplaces : ∀ x, (b.get x).parent = (d.get x).parent ∧ (b.get x).index = (d.get x).index := fun x =>
    hb ▸ places_setBuffer d p kept x
  have hlisted : Relisted a b p cs := by
    refine ⟨?_, hchildren, fun {x} hx _ => ?_, fun {x} hx _ => ?_, ?_, fun {b'} hb' => ?_, fun {q} hq => ?_⟩
    · rw [← hb, setBuffer, size_update, hdsize]
    · rw [(hplaces x).1, ← hd]
      refine parent_foldl_detach_of_mem _ (fun c hc => ?_) hx
      rw [setBuffer, size_update]
      exact (h.links.child_mem hp hc).1
    · have hkeep : d.get x = (a.setBuffer p none).get x := by rw [← hd, get_foldl_detach_of_notMem _ hx]
      rw [(hplaces x).1, (hplaces x).2, hkeep]
      exact places_setBuffer a p none x
    · rw [hbuffer]
      cases kept with
      | none => simpa using hitems
      | some b' =>
        obtain ⟨-, hfilled⟩ := Option.filter_eq_some_iff.1 hkept
        refine ⟨by rintro ⟨⟩, fun hnil => ?_⟩
        rw [hnil] at hitems
        simp only [Option.map_some, Option.getD_some] at hitems
        rw [hitems] at hfilled
        cases hfilled
    · rw [hbuffer] at hb'
      rw [hb'] at hkept
      exact ChildBuffer.length_ofList_le (Option.filter_eq_some_iff.1 hkept).1
    · rw [← hb, setBuffer, get_update_ne d _ hq, ← hd, buffer_foldl_detach, setBuffer, get_update_ne a _ hq]
  have hset : a.setChildren p (ChildBuffer.ofList cs) = b.linkAll p 0 cs := by
    simp only [setChildren, hd, hkept, hb, relink, hchildren, List.drop_zero]
  rw [hset]
  refine hlisted.linkAll 0 hnodup (fun c hc => ?_) (fun c hc => hc) fun {j c} hc =>
    .inl ⟨j, (Nat.zero_add j).symm, hc⟩
  exact (hnew c hc).elim (·.inside) fun hc => (h.links.child_mem hp hc).1

/-- A new element has no links, like a number that no element has yet. -/
theorem links_create (a : Arena) (kind : Kind) (location : Location) (x : ElementId) :
    ((a.create kind location).1.get x).buffer = (a.get x).buffer ∧
      ((a.create kind location).1.get x).parent = (a.get x).parent ∧
      ((a.create kind location).1.get x).index = (a.get x).index := by
  rw [get_create]
  split
  · next hx =>
    rw [hx, get_eq_default a (Nat.le_refl _)]
    exact ⟨rfl, rfl, rfl⟩
  · exact ⟨rfl, rfl, rfl⟩

theorem children_create (a : Arena) (kind : Kind) (location : Location) :
    (a.create kind location).1.children = a.children := by
  funext x
  rw [Arena.children, Element.children, (links_create a kind location x).1]
  rfl

theorem Consistent.create (h : a.Consistent) (kind : Kind) (location : Location) :
    (a.create kind location).1.Consistent := by
  have hlinks := links_create a kind location
  have hold : ∀ {x}, x < (a.create kind location).1.size → x ≠ a.size → x < a.size := fun hx hne => by
    rw [size_create] at hx
    omega
  have hgrows : ∀ {x}, x < a.size → x < (a.create kind location).1.size := fun hx => by
    rw [size_create]
    omega
  refine ⟨⟨id, fun {p c i} hp hc => ?_, fun {c p} hc hparent => ?_⟩, fun p => ?_,
    fun {p b} hb => ?_, fun x hx => ?_⟩
  · rw [children_create] at hc
    have hpa : p ≠ a.size := by
      rintro rfl
      rw [Arena.children, get_eq_default a (Nat.le_refl _)] at hc
      cases hc
    obtain ⟨hcin, hparent, hindex⟩ := h.links.child (hold hp hpa) hc
    exact ⟨hgrows hcin, (hlinks c).2.1.trans hparent, (hlinks c).2.2.trans hindex⟩
  · rw [(hlinks c).2.1] at hparent
    have hca : c ≠ a.size := by
      rintro rfl
      rw [get_eq_default a (Nat.le_refl _)] at hparent
      cases hparent
    obtain ⟨hp, hplace⟩ := h.links.parent (hold hc hca) hparent
    exact ⟨hgrows hp, by rw [children_create, (hlinks c).2.2]; exact hplace⟩
  · rw [(hlinks p).1, children_create]
    exact h.storage p
  · rw [(hlinks p).1] at hb
    exact h.capacity hb
  · have hsame : (fun c p => ((a.create kind location).1.get c).parent = some p) = fun c p =>
        (a.get c).parent = some p := by
      funext c p
      rw [(hlinks c).2.1]
    rw [Under, hsame] at hx
    exact h.forest x hx

end

end Arena

/-! ### Steps -/

/-- What whoever builds an arena can do. -/
inductive BuildStep
  | create (kind : Kind) (location : Location)
  | add (parent child : ElementId)
  | insert (parent : ElementId) (index : Nat) (child : ElementId)
  | setAt (parent : ElementId) (index : Nat) (child : ElementId)
  /-- Gives an element the children that were pushed on a list of their own. -/
  | setChildren (parent : ElementId) (children : List ElementId)

namespace BuildStep

def run : BuildStep → Edit Unit
  | create kind location => do let _ ← Edit.create kind location
  | add parent child => Edit.addChild parent child
  | insert parent index child => Edit.insertChild parent index child
  | setAt parent index child => Edit.setChildAt parent index child
  | setChildren parent children => Edit.setChildren parent (ChildBuffer.ofList children)

/-- What is put in hangs nowhere, and the place it is put in is not below it. A child may be put in its own
place again, and among the children that are set may be those there were, but each only once. -/
def Fits (a : Arena) : BuildStep → Prop
  | create _ _ => True
  | add parent child | insert parent _ child => parent < a.size ∧ a.Insertable parent child
  | setAt parent index child =>
    parent < a.size ∧ (a.Insertable parent child ∨ (a.children parent)[index]? = some child)
  | setChildren parent children =>
    parent < a.size ∧ children.Nodup ∧ ∀ c ∈ children, a.Insertable parent c ∨ c ∈ a.children parent

/-- What a step makes of the lists of children, or the index that is out of range. -/
def onChildren (children : ElementId → List ElementId) :
    BuildStep → Except OutOfRange (ElementId → List ElementId)
  | create _ _ => .ok children
  | add parent child => .ok (Function.update children parent (children parent ++ [child]))
  | insert parent index child =>
    if index ≤ (children parent).length then
      .ok (Function.update children parent ((children parent).insertIdx index child))
    else .error (.child index (children parent).length)
  | setAt parent index child =>
    if index < (children parent).length then
      .ok (Function.update children parent ((children parent).set index child))
    else .error (.child index (children parent).length)
  | setChildren parent cs => .ok (Function.update children parent cs)

/-- The outcome of a step: the lists of children are as expected, and who is no child any more has no
parent, in an arena that is consistent again; or an index is out of range, and nothing has changed. -/
def Does (a : Arena) (step : BuildStep) : Prop :=
  match step.onChildren a.children with
  | .ok children => ∃ a', step.run a = .ok () a' ∧ a'.Consistent ∧ a'.children = children ∧
      ∀ p c, c ∈ a.children p → c ∉ children p → (a'.get c).parent = none
  | .error e => step.run a = .error e a

section
variable {a a' : Arena} {p c : ElementId} {cs : List ElementId}

theorem does_of_rearranged (h : a.Consistent) {step : BuildStep} (hrun : step.run a = .ok () a')
    (hr : a.Rearranged a' p cs) (hp : p < a.size) (hnew : ∀ c ∈ cs, a.Insertable p c ∨ c ∈ a.children p)
    (hexpected : step.onChildren a.children = .ok (Function.update a.children p cs)) : step.Does a := by
  rw [Does, hexpected]
  refine ⟨a', hrun, h.rearranged hr hp hnew, hr.children_eq, fun q c hc hgone => ?_⟩
  by_cases hq : q = p
  · subst hq
    rw [Function.update_self] at hgone
    exact hr.released hc hgone
  · rw [Function.update_of_ne hq] at hgone
    exact absurd hc hgone

theorem does_insert (h : a.Consistent) (hp : p < a.size) (hc : a.Insertable p c) (i : Nat) :
    (insert p i c).Does a := by
  have hrun : (insert p i c).run a = _ := Arena.insertChild_eq a p i c
  by_cases hi : i ≤ a.childCount p
  · refine does_of_rearranged h (hrun.trans (if_neg (Nat.not_lt.2 hi)))
      (Arena.rearranged_inserting h hp hc hi) hp
      (fun d hd => ?_) (if_pos hi)
    rcases List.mem_cons.1 ((List.perm_insertIdx c (a.children p) hi).mem_iff.1 hd) with rfl | hd
    · exact .inl hc
    · exact .inr hd
  · have hexpected : (insert p i c).onChildren a.children = .error (.child i (a.childCount p)) := if_neg hi
    rw [Does, hexpected]
    exact hrun.trans (if_pos (Nat.lt_of_not_le hi))

/-- Adding is inserting at the end. -/
theorem does_add (h : a.Consistent) (hp : p < a.size) (hc : a.Insertable p c) : (add p c).Does a := by
  have hinsert := does_insert h hp hc (a.childCount p)
  have hexpected : (insert p (a.childCount p) c).onChildren a.children = (add p c).onChildren a.children := by
    simp only [onChildren, Arena.childCount, Nat.le_refl, if_true, List.insertIdx_length_self]
  rw [Does, hexpected] at hinsert
  exact hinsert

theorem does_setAt (h : a.Consistent) (hp : p < a.size) {i : Nat}
    (hc : a.Insertable p c ∨ (a.children p)[i]? = some c) : (setAt p i c).Does a := by
  have hrun : (setAt p i c).run a = _ := Arena.setChildAt_eq a p i c
  by_cases hi : i < (a.children p).length
  · have hold := List.getElem?_eq_getElem hi
    rw [hold] at hrun
    refine does_of_rearranged h hrun (Arena.rearranged_put h hp hc hold) hp (fun d hd => ?_) (if_pos hi)
    rcases List.mem_or_eq_of_mem_set hd with hd | rfl
    · exact .inr hd
    · exact hc.imp id List.mem_of_getElem?
  · have hexpected : (setAt p i c).onChildren a.children = .error (.child i (a.childCount p)) := if_neg hi
    rw [List.getElem?_eq_none (Nat.le_of_not_lt hi)] at hrun
    rw [Does, hexpected]
    exact hrun

/-- A step that fits does what it should to a consistent arena. -/
theorem does_of_fits (h : a.Consistent) {step : BuildStep} (hfits : step.Fits a) : step.Does a := by
  cases step with
  | create kind location =>
    refine ⟨_, rfl, h.create kind location, Arena.children_create a kind location, fun p c hc hgone => ?_⟩
    exact absurd hc hgone
  | add p c => exact does_add h hfits.1 hfits.2
  | insert p i c => exact does_insert h hfits.1 hfits.2 i
  | setAt p i c => exact does_setAt h hfits.1 hfits.2
  | setChildren p cs =>
    obtain ⟨hp, hnodup, hnew⟩ := hfits
    exact does_of_rearranged h rfl (Arena.rearranged_setChildren h hp hnodup hnew) hp hnew rfl

end

end BuildStep

/-- Arenas that are built by steps that fit. A step that fails goes for one that was not taken. -/
inductive Built : Arena → Prop
  | empty : Built {}
  | ok {a a' : Arena} {step : BuildStep} (built : Built a) (fits : step.Fits a)
    (run : step.run a = .ok () a') : Built a'
  | error {a a' : Arena} {step : BuildStep} {e : OutOfRange} (built : Built a) (fits : step.Fits a)
    (run : step.run a = .error e a') : Built a'

/-- Nothing stands above an element without parent. -/
theorem Arena.not_under_of_orphan {a : Arena} {p c : ElementId} (h : (a.get p).parent = none) :
    ¬ a.Under p c := by
  intro hunder
  obtain ⟨q, hq, -⟩ := Relation.TransGen.head'_iff.1 hunder
  rw [h] at hq
  cases hq

theorem Arena.consistent_empty : ({} : Arena).Consistent where
  links := sound_empty
  storage _ := ⟨fun _ => rfl, fun _ => rfl⟩
  capacity h := by cases h
  forest x hx := by
    cases hx with
    | single h => cases h
    | tail _ h => cases h

theorem Built.consistent {a : Arena} (h : Built a) : a.Consistent := by
  induction h with
  | empty => exact Arena.consistent_empty
  | @ok a a' step _ fits run ih =>
    have hdoes := BuildStep.does_of_fits ih fits
    unfold BuildStep.Does at hdoes
    split at hdoes
    · obtain ⟨b, hb, hconsistent, -⟩ := hdoes
      obtain ⟨-, rfl⟩ := EStateM.Result.ok.inj (hb.symm.trans run)
      exact hconsistent
    · cases hdoes.symm.trans run
  | @error a a' step e _ fits run ih =>
    have hdoes := BuildStep.does_of_fits ih fits
    unfold BuildStep.Does at hdoes
    split at hdoes
    · obtain ⟨b, hb, -⟩ := hdoes
      cases hb.symm.trans run
    · obtain ⟨-, rfl⟩ := EStateM.Result.error.inj (hdoes.symm.trans run)
      exact ih

/-- Every arena that is built is consistent, and whatever fitting step comes next, the children are the
lists one expects, who is replaced has no parent, and an index out of range changes nothing. -/
theorem Built.consistent_and_does {a : Arena} (h : Built a) :
    a.Consistent ∧ ∀ step : BuildStep, step.Fits a → step.Does a :=
  ⟨h.consistent, fun _ hfits => BuildStep.does_of_fits h.consistent hfits⟩

/-- An element takes the place of another, which loses its parent. -/
theorem Built.consistent_and_does_replaced : ∃ a, Built a ∧ a.children 0 = [2] ∧ (a.get 1).parent = none ∧
    a.Consistent ∧ ∀ step : BuildStep, step.Fits a → step.Does a := by
  have hroot := @Built.ok _ _ (.create .sequence {}) .empty trivial rfl
  have htext := @Built.ok _ _ (.create (.text "a" false) {}) hroot trivial rfl
  have hother := @Built.ok _ _ (.create (.text "b" false) {}) htext trivial rfl
  have hadded := @Built.ok _ _ (.add 0 1) hother
    ⟨by decide, by decide, rfl, by decide, Arena.not_under_of_orphan rfl⟩ rfl
  have hreplaced := @Built.ok _ _ (.setAt 0 0 2) hadded
    ⟨by decide, .inl ⟨by decide, rfl, by decide, Arena.not_under_of_orphan rfl⟩⟩ rfl
  exact ⟨_, hreplaced, rfl, rfl, hreplaced.consistent_and_does⟩

end Stencil
