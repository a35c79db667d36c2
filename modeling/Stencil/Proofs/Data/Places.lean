import Mathlib.Data.String.Basic
import Stencil.Proofs.Outcomes
import Stencil.Json.Reader

/-! # Places in data

Where the parts of some data stand: in arrays by their index, in objects by their key. Data that was read from
a text lists the members of every object by ascending key. -/

namespace Stencil

namespace Json

/-- Data by the data in it. -/
@[elab_as_elim]
theorem parts_induction {P : Json → Prop} (null : P .null) (bool : ∀ b, P (.bool b))
    (number : ∀ n, P (.number n)) (string : ∀ s, P (.string s))
    (array : ∀ items, (∀ j ∈ items, P j) → P (.array items))
    (object : ∀ members, (∀ m ∈ members, P m.2) → P (.object members)) (j : Json) : P j :=
  Json.rec null bool number string array object nofun (fun _ _ hj hjs =>
    List.forall_mem_cons.2 ⟨hj, hjs⟩) nofun
    (fun _ _ hm hms => List.forall_mem_cons.2 ⟨hm, hms⟩) (fun _ _ hj => hj) j

/-- A step into an array or an object. -/
inductive Step
  | item (index : Nat)
  | member (key : String)
deriving DecidableEq, Repr

/-- What stands at a place: the steps lead to it from the outside inwards. -/
inductive At : Json → List Step → Json → Prop
  | here (j : Json) : At j [] j
  | item {items : List Json} {i : Nat} {j v : Json} {path : List Step} :
    items[i]? = some j → At j path v → At (.array items) (.item i :: path) v
  | member {members : List (String × Json)} {key : String} {j v : Json} {path : List Step} :
    (key, j) ∈ members → At j path v → At (.object members) (.member key :: path) v

/-- Of two places, none within the other, the one that is reached first: items go by
index and members by key. -/
inductive Precedes : List Step → List Step → Prop
  | item {i k : Nat} (path other : List Step) : i < k → Precedes (.item i :: path) (.item k :: other)
  | member {key later : String} (path other : List Step) :
    key < later → Precedes (.member key :: path) (.member later :: other)
  | step (s : Step) {path other : List Step} : Precedes path other → Precedes (s :: path) (s :: other)

/-- Members by ascending key, each key once. -/
def Ascending (members : List (String × Json)) : Prop := members.Pairwise (·.1 < ·.1)

/-- Every object lists its members by ascending key, each key once. -/
def Ordered (j : Json) : Prop := ∀ path members, j.At path (.object members) → Ascending members

theorem ordered_array_iff {items : List Json} : (Json.array items).Ordered ↔ ∀ j ∈ items, j.Ordered := by
  constructor
  · intro h j hj path members hat
    obtain ⟨i, hi⟩ := List.mem_iff_getElem?.1 hj
    exact h _ members (.item hi hat)
  · rintro h _ members (_ | ⟨hi, hat⟩ | _)
    exact h _ (List.mem_of_getElem? hi) _ members hat

theorem ordered_object_iff {members : List (String × Json)} :
    (Json.object members).Ordered ↔ Ascending members ∧ ∀ m ∈ members, m.2.Ordered := by
  constructor
  · intro h
    exact ⟨h [] members (.here _), fun m hm path inner hat => h (.member m.1 :: path) inner (.member hm hat)⟩
  · rintro ⟨hascending, hinner⟩ _ inner (_ | _ | ⟨hm, hat⟩)
    · exact hascending
    · exact hinner _ hm _ inner hat

/-! ### Reading -/

theorem mem_insertMember {key : String} {value : Json} {members : List (String × Json)} {m : String × Json}
    (h : m ∈ insertMember key value members) : m = (key, value) ∨ m ∈ members := by
  induction members with
  | nil => exact .inl (List.mem_singleton.1 h)
  | cons first rest ih =>
    obtain ⟨k, v⟩ := first
    unfold insertMember at h
    split at h
    · exact (List.mem_cons.1 h).imp_right fun h => List.mem_cons_of_mem _ h
    · split at h
      · exact List.mem_cons.1 h
      · rcases List.mem_cons.1 h with rfl | h
        · exact .inr List.mem_cons_self
        · exact (ih h).imp_right fun h => List.mem_cons_of_mem _ h

theorem Ascending.insertMember {members : List (String × Json)} (h : Ascending members)
    (key : String) (value : Json) :
    Ascending (insertMember key value members) := by
  induction members with
  | nil => exact List.pairwise_singleton _ _
  | cons first rest ih =>
    obtain ⟨k, v⟩ := first
    obtain ⟨hfirst, hrest⟩ := List.pairwise_cons.1 h
    unfold Json.insertMember
    split
    · next heq => exact List.pairwise_cons.2 ⟨fun m hm => heq ▸ hfirst m hm, hrest⟩
    · next hne =>
      split
      · next hlt =>
        refine List.pairwise_cons.2 ⟨fun m hm => ?_, h⟩
        rcases List.mem_cons.1 hm with rfl | hm
        · exact hlt
        · exact hlt.trans (hfirst m hm)
      · next hge =>
        refine List.pairwise_cons.2 ⟨fun m hm => ?_, ih hrest⟩
        rcases mem_insertMember hm with rfl | hm
        · exact lt_of_le_of_ne (not_lt.1 hge) fun heq => hne heq.symm
        · exact hfirst m hm

/-- The members that are read so far. -/
def OrderedMembers (members : List (String × Json)) : Prop := Ascending members ∧ ∀ m ∈ members, m.2.Ordered

theorem OrderedMembers.insertMember {members : List (String × Json)} (h : OrderedMembers members)
    (key : String) {value : Json} (hvalue : value.Ordered) :
    OrderedMembers (Json.insertMember key value members) := by
  refine ⟨h.1.insertMember key value, fun m hm => ?_⟩
  rcases mem_insertMember hm with rfl | hm
  · exact hvalue
  · exact h.2 m hm

theorem ordered_null : Json.null.Ordered := nofun

theorem ordered_bool (b : Bool) : (Json.bool b).Ordered := nofun

theorem ordered_number (n : Number) : (Json.number n).Ordered := nofun

theorem ordered_string (s : String) : (Json.string s).Ordered := nofun

theorem orderedMembers_nil : OrderedMembers [] := ⟨.nil, nofun⟩

/-- What the readers make within a bound is ordered. -/
structure ReadsOrdered (bound : Nat) : Prop where
  value {cs : List Char} {j : Json} {rest : List Char} : valueFrom bound cs = .ok (j, rest) → j.Ordered
  items {cs : List Char} {items : List Json} {rest : List Char} : itemsFrom bound cs = .ok (items, rest) →
    ∀ j ∈ items, j.Ordered
  members {read : List (String × Json)} {cs : List Char} {members : List (String × Json)} {rest : List Char} :
    OrderedMembers read → membersFrom bound read cs = .ok (members, rest) → OrderedMembers members

theorem ReadsOrdered.value_succ {bound : Nat} (ih : ReadsOrdered bound) {cs : List Char} {j : Json}
    {rest : List Char} (h : valueFrom (bound + 1) cs = .ok (j, rest)) : j.Ordered := by
  unfold valueFrom at h
  split at h
  · cases h
  · obtain ⟨_, _, h⟩ := exists_of_bind_eq_ok h
    cases h
    exact ordered_null
  · obtain ⟨_, _, h⟩ := exists_of_bind_eq_ok h
    cases h
    exact ordered_bool _
  · obtain ⟨_, _, h⟩ := exists_of_bind_eq_ok h
    cases h
    exact ordered_bool _
  · obtain ⟨_, _, h⟩ := exists_of_bind_eq_ok h
    cases h
    exact ordered_string _
  · split at h
    · cases h
      exact ordered_array_iff.2 nofun
    · obtain ⟨⟨items, _⟩, hitems, h⟩ := exists_of_bind_eq_ok h
      cases h
      exact ordered_array_iff.2 (ih.items hitems)
  · split at h
    · cases h
      exact ordered_object_iff.2 orderedMembers_nil
    · obtain ⟨⟨members, _⟩, hmembers, h⟩ := exists_of_bind_eq_ok h
      cases h
      exact ordered_object_iff.2 (ih.members orderedMembers_nil hmembers)
  · obtain ⟨_, _, h⟩ := exists_of_bind_eq_ok h
    cases h
    exact ordered_number _
  · obtain ⟨_, _, h⟩ := exists_of_bind_eq_ok h
    cases h
    exact ordered_number _

theorem ReadsOrdered.items_succ {bound : Nat} (ih : ReadsOrdered bound) {cs : List Char} {items : List Json}
    {rest : List Char} (h : itemsFrom (bound + 1) cs = .ok (items, rest)) : ∀ j ∈ items, j.Ordered := by
  unfold itemsFrom at h
  obtain ⟨⟨item, rest'⟩, hitem, h⟩ := exists_of_bind_eq_ok h
  have hordered : item.Ordered := ih.value hitem
  dsimp only at h
  split at h
  · cases h
  · cases h
    exact fun j hj => List.mem_singleton.1 hj ▸ hordered
  · obtain ⟨⟨items', _⟩, hitems, h⟩ := exists_of_bind_eq_ok h
    cases h
    exact List.forall_mem_cons.2 ⟨hordered, ih.items hitems⟩
  · cases h

theorem ReadsOrdered.members_succ {bound : Nat} (ih : ReadsOrdered bound) {read : List (String × Json)}
    {cs : List Char} {members : List (String × Json)} {rest : List Char} (hread : OrderedMembers read)
    (h : membersFrom (bound + 1) read cs = .ok (members, rest)) : OrderedMembers members := by
  unfold membersFrom at h
  split at h
  · cases h
  · obtain ⟨⟨key, rest'⟩, _, h⟩ := exists_of_bind_eq_ok h
    dsimp only at h
    split at h
    · cases h
    · obtain ⟨⟨value, rest'⟩, hvalue, h⟩ := exists_of_bind_eq_ok h
      have hinserted := hread.insertMember key (ih.value hvalue)
      dsimp only at h
      split at h
      · cases h
      · cases h
        exact hinserted
      · exact ih.members hinserted h
      · cases h
    · cases h
  · cases h

theorem readsOrdered (bound : Nat) : ReadsOrdered bound := by
  induction bound with
  | zero => exact ⟨fun h => (by cases h), fun h => (by cases h), fun _ h => (by cases h)⟩
  | succ bound ih => exact ⟨ih.value_succ, ih.items_succ, ih.members_succ⟩

/-- Whatever a text is read as lists the members of its objects by ascending key. -/
theorem ordered_parse {text : String} {j : Json} (h : parse text = .ok j) : j.Ordered := by
  unfold parse at h
  obtain ⟨⟨value, rest⟩, hvalue, h⟩ := exists_of_bind_eq_ok h
  dsimp only at h
  split at h
  · cases h
    exact (readsOrdered _).value hvalue
  · cases h

end Json

end Stencil
