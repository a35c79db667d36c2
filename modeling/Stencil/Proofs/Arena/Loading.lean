import Stencil.Proofs.Arena.Shape

/-! # Loading trees

A tree that is loaded into an arena is found there again: every element is created after its children,
with the links between them, and elements that were there before are left alone. -/

namespace Stencil

open Shape

/-! ### A new element on top of others -/

theorem ChildBuffer.items_ofList (children : List ElementId) :
    ((ChildBuffer.ofList children).map (·.items)).getD [] = children := by
  have hpush : ∀ (b : Option ChildBuffer),
      ((children.foldl (fun b c => some (ChildBuffer.push b c)) b).map (·.items)).getD [] =
      (b.map (·.items)).getD [] ++ children := by
    induction children with
    | nil => simp
    | cons c cs ih =>
      intro b
      have hitems : (ChildBuffer.push b c).items = (b.map (·.items)).getD [] ++ [c] := by
        cases b with
        | none => rfl
        | some b =>
          simp only [ChildBuffer.push, ChildBuffer.reserve]
          split <;> rfl
      rw [List.foldl_cons, ih, Option.map_some, Option.getD_some, hitems, List.append_assoc]
      rfl
  exact hpush none

namespace Arena

/-- The places that change when an element is created with some children. -/
structure Adopted (a a' : Arena) (kind : Kind) (location : Location) (cs : List ElementId) : Prop where
  size : a'.size = a.size + 1
  children : a'.children a.size = cs
  self : (a'.get a.size).kind = kind ∧ (a'.get a.size).location = location ∧ (a'.get a.size).parent = none
  child {i : Nat} {c : ElementId} : cs[i]? = some c →
    a'.get c = { a.get c with parent := some a.size, index := i }
  other {x : ElementId} : x ≠ a.size → x ∉ cs → a'.get x = a.get x

theorem adopted_create (a : Arena) (kind : Kind) (location : Location) {cs : List ElementId}
    (hnodup : cs.Nodup) (hinside : ∀ c ∈ cs, c < a.size) :
    Adopted a ((a.create kind location).1.setChildren a.size (ChildBuffer.ofList cs)) kind location cs := by
  have hin : a.size < (a.create kind location).1.size := by rw [size_create]; omega
  have hnone : (a.create kind location).1.children a.size = [] := by
    rw [Arena.children, get_create, if_pos rfl]
    rfl
  have hnew : a.size ∉ cs := fun h => Nat.lt_irrefl _ (hinside _ h)
  generalize hkept : (ChildBuffer.ofList cs).filter (fun b => !b.items.isEmpty) = kept
  generalize hb : (((a.create kind location).1.setBuffer a.size none).setBuffer a.size kept) = b
  have hget : ∀ x, b.get x = if x = a.size then { kind, location, buffer := kept } else a.get x := by
    intro x
    rw [← hb, setBuffer, setBuffer, get_update _ _ _ _ (by rwa [size_update]), get_update _ _ _ _ hin,
      get_update _ _ _ _ hin, get_create, get_create, if_pos rfl]
    split
    · simp only [if_true]
    · rfl
  have hchildren : b.children a.size = cs := by
    rw [Arena.children, hget, if_pos rfl, Element.children, ← hkept, items_filter, ChildBuffer.items_ofList]
  have hsize : b.size = a.size + 1 := by
    rw [← hb, setBuffer, setBuffer, size_update, size_update, size_create]
  have hset : (a.create kind location).1.setChildren a.size (ChildBuffer.ofList cs) =
      b.linkAll a.size 0 cs := by
    rw [setChildren, hnone]
    simp only [List.foldl_nil]
    rw [hkept, hb, relink, hchildren, List.drop_zero]
  have hself : (b.linkAll a.size 0 cs).get a.size = { kind, location, buffer := kept } := by
    rw [get_linkAll_of_notMem _ _ _ hnew, hget, if_pos rfl]
  rw [hset]
  refine ⟨(size_linkAll _ _ _ _).trans hsize, ?_, ?_, fun {i c} hc => ?_, fun {x} hx hxcs => ?_⟩
  · rw [Arena.children, get_linkAll_of_notMem _ _ _ hnew]
    exact hchildren
  · rw [hself]
    exact ⟨rfl, rfl, rfl⟩
  · have hne : c ≠ a.size := by
      rintro rfl
      exact hnew (List.mem_of_getElem? hc)
    rw [get_linkAll_of_mem _ _ _ hnodup
      (fun d hd => by rw [hsize]; exact Nat.lt_succ_of_lt (hinside d hd)) hc, hget,
      if_neg hne, Nat.zero_add]
  · rw [get_linkAll_of_notMem _ _ _ hxcs, hget, if_neg hx]

theorem Adopted.children_of_ne {a a' : Arena} {kind : Kind} {location : Location} {cs : List ElementId}
    (h : Adopted a a' kind location cs) {x : ElementId} (hx : x ≠ a.size) : a'.children x = a.children x := by
  by_cases hxcs : x ∈ cs
  · obtain ⟨i, hi⟩ := List.getElem?_of_mem hxcs
    rw [Arena.children, h.child hi]
    rfl
  · rw [Arena.children, h.other hx hxcs]
    rfl

/-- A new element on top of elements without parent fits in. -/
theorem Sound.adopted {a a' : Arena} {kind : Kind} {location : Location} {cs : List ElementId}
    (hsound : a.Sound (· < a.size)) (h : Adopted a a' kind location cs) (hinside : ∀ c ∈ cs, c < a.size)
    (hroots : ∀ c ∈ cs, (a.get c).parent = none) : a'.Sound (· < a'.size) := by
  have hgrows : ∀ {x : ElementId}, x < a.size → x < a'.size :=
    fun hx => by rw [h.size]; exact Nat.lt_succ_of_lt hx
  have hbelow : ∀ {x : ElementId}, x < a'.size → x ≠ a.size → x < a.size := by
    intro x hx hne
    rw [h.size] at hx
    exact Nat.lt_of_le_of_ne (Nat.le_of_lt_succ hx) hne
  refine ⟨id, fun {p c i} hp hc => ?_, fun {c p} hc hparent => ?_⟩
  · by_cases hpa : p = a.size
    · subst hpa
      rw [h.children] at hc
      have hin := hinside c (List.mem_of_getElem? hc)
      rw [h.child hc]
      exact ⟨hgrows hin, rfl, rfl⟩
    · rw [h.children_of_ne hpa] at hc
      obtain ⟨hin, hparent, hindex⟩ := hsound.child (hbelow hp hpa) hc
      have hccs : c ∉ cs := by
        intro hccs
        rw [hroots c hccs] at hparent
        cases hparent
      rw [h.other (Nat.ne_of_lt hin) hccs]
      exact ⟨hgrows hin, hparent, hindex⟩
  · by_cases hca : c = a.size
    · rw [hca, h.self.2.2] at hparent
      cases hparent
    · by_cases hccs : c ∈ cs
      · obtain ⟨i, hi⟩ := List.getElem?_of_mem hccs
        rw [h.child hi] at hparent ⊢
        obtain rfl : a.size = p := Option.some.inj hparent
        exact ⟨by rw [h.size]; exact Nat.lt_succ_self _, by rw [h.children]; exact hi⟩
      · rw [h.other hca hccs] at hparent ⊢
        obtain ⟨hp, hslot⟩ := hsound.parent (hbelow hc hca) hparent
        exact ⟨hgrows hp, by rw [h.children_of_ne (Nat.ne_of_lt hp)]; exact hslot⟩

end Arena

/-! ### Loading -/

namespace Shape

/-- The elements of some shapes are those of some trees. -/
def Holds (a : Arena) : List Shape → List Tree → Prop
  | [], [] => True
  | ⟨id, parts⟩ :: ss, t :: ts => (a.get id).kind = t.kind ∧ (a.get id).location = t.location ∧
    Holds a parts t.children ∧
    Holds a ss ts
  | _, _ => False

theorem Holds.sameNodes {a a' : Arena} {ss : List Shape} {ts : List Tree} (h : Holds a ss ts)
    (hsame : ∀ x ∈ ids ss, (a'.get x).kind = (a.get x).kind ∧ (a'.get x).location = (a.get x).location) :
    Holds a' ss ts := by
  induction ss using forest_induction generalizing ts with
  | nil =>
    cases ts with
    | nil => simp only [Holds]
    | cons t ts => simp only [Holds] at h
  | cons id parts ss ihParts ih =>
    cases ts with
    | nil => simp only [Holds] at h
    | cons t ts =>
      rw [Holds] at h ⊢
      obtain ⟨hkind, hlocation, hparts, hss⟩ := h
      obtain ⟨⟨hsameKind, hsameLocation⟩, hsameParts, hsameRest⟩ := forall_mem_ids_cons.1 hsame
      exact ⟨hsameKind.trans hkind, hsameLocation.trans hlocation,
        ihParts hparts hsameParts, ih hss hsameRest⟩

/-- The topmost elements are those of the trees, one by one. -/
theorem Holds.roots {a : Arena} {ss : List Shape} {ts : List Tree} (h : Holds a ss ts) :
    ss.map (fun s => ((a.get s.root).kind, (a.get s.root).location)) = ts.map fun t =>
      (t.kind, t.location) := by
  induction ss generalizing ts with
  | nil =>
    cases ts with
    | nil => rfl
    | cons t ts => simp only [Holds] at h
  | cons s ss ih =>
    obtain ⟨id, parts⟩ := s
    cases ts with
    | nil => simp only [Holds] at h
    | cons t ts =>
      rw [Holds] at h
      obtain ⟨hkind, hlocation, -, hss⟩ := h
      rw [List.map_cons, List.map_cons, ih hss, ← hkind, ← hlocation]
      rfl

theorem Holds.append {a : Arena} {ss vs : List Shape} {ts us : List Tree} (h : Holds a ss ts)
    (h' : Holds a vs us) :
    Holds a (ss ++ vs) (ts ++ us) := by
  induction ss generalizing ts with
  | nil =>
    cases ts with
    | nil => exact h'
    | cons t ts => simp only [Holds] at h
  | cons s ss ih =>
    obtain ⟨id, parts⟩ := s
    cases ts with
    | nil => simp only [Holds] at h
    | cons t ts =>
      rw [Holds] at h
      rw [List.cons_append, List.cons_append, Holds]
      exact ⟨h.1, h.2.1, h.2.2.1, ih h.2.2.2⟩

end Shape

/-- Some trees have been loaded: their elements are new and hang together as in the trees. -/
structure Loaded (a a' : Arena) (ts : List Tree) (ss : List Shape) : Prop where
  sound : a'.Sound (· < a'.size)
  grows : a.size ≤ a'.size
  old {x : ElementId} : x < a.size → a'.get x = a.get x
  spans : Spans a' ss
  nodup : (ids ss).Nodup
  new {x : ElementId} : x ∈ ids ss → a.size ≤ x ∧ x < a'.size
  all {x : ElementId} : a.size ≤ x → x < a'.size → x ∈ ids ss
  roots {s : Shape} : s ∈ ss → (a'.get s.root).parent = none
  holds : Holds a' ss ts

theorem Arena.loads_cons (a : Arena) (t : Tree) (ts : List Tree) :
    a.loads (t :: ts) = ((a.load t).1.loads ts |>.1, (a.load t).2 :: ((a.load t).1.loads ts).2) := by
  rw [Arena.loads]

theorem Arena.load_eq (a : Arena) (t : Tree) : a.load t =
    (((a.loads t.children).1.create t.kind t.location).1.setChildren (a.loads t.children).1.size
      (ChildBuffer.ofList (a.loads t.children).2), (a.loads t.children).1.size) := by
  obtain ⟨kind, location, inBlock, children⟩ := t
  rw [Arena.load]
  rfl

theorem Arena.size_setChildren (a : Arena) (parent : ElementId) (buffer : Option ChildBuffer) :
    (a.setChildren parent buffer).size = a.size := by
  simp only [setChildren, relink, size_linkAll, setBuffer, size_update, size_foldl_detach]

theorem Arena.size_loads (a : Arena) (ts : List Tree) : (a.loads ts).1.size = a.size + Tree.sizes ts := by
  induction ts using Tree.forest_induction generalizing a with
  | nil => rw [loads]; rfl
  | cons t ts ihParts ih =>
    rw [loads_cons, ih, load_eq, size_setChildren, size_create, ihParts, Tree.sizes, Tree.size_eq]
    omega

/-- A tree that is loaded makes an element for each of its nodes. -/
theorem Arena.size_load (a : Arena) (t : Tree) : (a.load t).1.size = a.size + t.size := by
  rw [load_eq, size_setChildren, size_create, size_loads, Tree.size_eq]
  omega

/-- Loading an element on top of its loaded children. -/
theorem Loaded.load {a a₁ : Arena} {t : Tree} {parts : List Shape} (h : Loaded a a₁ t.children parts)
    {a₂ : Arena} (hadopted : Arena.Adopted a₁ a₂ t.kind t.location (parts.map root)) :
    Loaded a a₂ [t] [⟨a₁.size, parts⟩] := by
  have hroot : ∀ {c}, c ∈ parts.map root → c ∈ ids parts := fun hc => (roots_sublist_ids parts).subset hc
  have hsound : a₂.Sound (· < a₂.size) := by
    refine h.sound.adopted hadopted (fun c hc => (h.new (hroot hc)).2) fun c hc => ?_
    obtain ⟨s, hs, rfl⟩ := List.mem_map.1 hc
    exact h.roots hs
  have hfresh : ∀ {x}, x ∈ ids parts → x ≠ a₁.size := fun hx => Nat.ne_of_lt (h.new hx).2
  have hsize : a₁.size < a₂.size := by rw [hadopted.size]; exact Nat.lt_succ_self _
  refine ⟨hsound, Nat.le_trans h.grows (Nat.le_of_lt hsize), fun {x} hx => ?_,
    spans_singleton.2 ⟨hadopted.children, h.spans.of_children fun x hx =>
      hadopted.children_of_ne (hfresh hx)⟩, ?_,
    fun {x} hx => ?_, fun {x} hx hx' => ?_, fun {s} hs => ?_, ?_⟩
  · rw [hadopted.other (Nat.ne_of_lt (Nat.lt_of_lt_of_le hx h.grows)) fun hin =>
      Nat.not_le_of_lt hx (h.new (hroot hin)).1]
    exact h.old hx
  · rw [ids_singleton]
    exact List.nodup_cons.2 ⟨fun hin => hfresh hin rfl, h.nodup⟩
  · rw [ids_singleton] at hx
    rcases List.mem_cons.1 hx with rfl | hx
    · exact ⟨h.grows, hsize⟩
    · exact ⟨(h.new hx).1, Nat.lt_trans (h.new hx).2 hsize⟩
  · rw [hadopted.size] at hx'
    rw [ids_singleton, List.mem_cons]
    exact (Nat.eq_or_lt_of_le (Nat.le_of_lt_succ hx')).imp_right (h.all hx)
  · obtain rfl := List.mem_singleton.1 hs
    exact hadopted.self.2.2
  · simp only [Holds, and_true]
    refine ⟨hadopted.self.1, hadopted.self.2.1, h.holds.sameNodes fun x hx => ?_⟩
    by_cases hchild : x ∈ parts.map root
    · obtain ⟨i, hi⟩ := List.getElem?_of_mem hchild
      rw [hadopted.child hi]
      exact ⟨rfl, rfl⟩
    · rw [hadopted.other (hfresh hx) hchild]
      exact ⟨rfl, rfl⟩

theorem Loaded.append {a a₁ a₂ : Arena} {ts us : List Tree} {ss vs : List Shape} (h : Loaded a a₁ ts ss)
    (h' : Loaded a₁ a₂ us vs) : Loaded a a₂ (ts ++ us) (ss ++ vs) := by
  have hkept : ∀ {x}, x ∈ ids ss → a₂.get x = a₁.get x := fun hx => h'.old (h.new hx).2
  refine ⟨h'.sound, Nat.le_trans h.grows h'.grows, fun {x} hx => ?_, spans_append.2 ⟨?_, h'.spans⟩,
    ?_, fun {x} hx => ?_,
    fun {x} hx hx' => ?_, fun {s} hs => ?_, ?_⟩
  · rw [h'.old (Nat.lt_of_lt_of_le hx h.grows)]
    exact h.old hx
  · exact h.spans.of_children fun x hx => congrArg Element.children (hkept hx)
  · rw [ids_append]
    refine List.nodup_append.2 ⟨h.nodup, h'.nodup, ?_⟩
    rintro x hx y hy rfl
    exact Nat.not_le_of_lt (h.new hx).2 (h'.new hy).1
  · rw [ids_append] at hx
    rcases List.mem_append.1 hx with hx | hx
    · exact ⟨(h.new hx).1, Nat.lt_of_lt_of_le (h.new hx).2 h'.grows⟩
    · exact ⟨Nat.le_trans h.grows (h'.new hx).1, (h'.new hx).2⟩
  · rw [ids_append, List.mem_append]
    exact (Nat.lt_or_ge x a₁.size).imp (h.all hx) fun hge => h'.all hge hx'
  · rcases List.mem_append.1 hs with hs | hs
    · rw [hkept (root_mem_ids hs)]
      exact h.roots hs
    · exact h'.roots hs
  · refine (h.holds.sameNodes fun x hx => ?_).append h'.holds
    rw [hkept hx]
    exact ⟨rfl, rfl⟩

/-- An element is loaded when its children are. -/
theorem Loaded.of_children {a : Arena} {t : Tree} {parts : List Shape}
    (hroots : (a.loads t.children).2 = parts.map root)
    (h : Loaded a (a.loads t.children).1 t.children parts) :
    Loaded a (a.load t).1 [t] [⟨(a.load t).2, parts⟩] := by
  have hsub := roots_sublist_ids parts
  have hadopted := Arena.adopted_create (a.loads t.children).1 t.kind t.location (hsub.nodup h.nodup)
    fun c hc => (h.new (hsub.subset hc)).2
  rw [Arena.load_eq, hroots]
  exact h.load hadopted

theorem exists_loaded (ts : List Tree) {a : Arena} (h : a.Sound (· < a.size)) :
    ∃ ss, (a.loads ts).2 = ss.map root ∧ Loaded a (a.loads ts).1 ts ss := by
  induction ts using Tree.forest_induction generalizing a with
  | nil =>
    refine ⟨[], by rw [Arena.loads]; rfl, ?_⟩
    rw [Arena.loads]
    exact ⟨h, Nat.le_refl _, fun _ => rfl, spans_nil,
      by simp, by simp, fun hx hx' => absurd hx (Nat.not_le_of_lt hx'),
      by simp, by simp only [Holds]⟩
  | cons t ts ihParts ih =>
    obtain ⟨parts, hroots, hparts⟩ := ihParts h
    have hhead := Loaded.of_children hroots hparts
    obtain ⟨ss, hss, hrest⟩ := ih hhead.sound
    rw [Arena.loads_cons]
    exact ⟨⟨(a.load t).2, parts⟩ :: ss, by rw [hss]; rfl, hhead.append hrest⟩

theorem exists_load (t : Tree) {a : Arena} (h : a.Sound (· < a.size)) :
    ∃ parts, Loaded a (a.load t).1 [t] [⟨(a.load t).2, parts⟩] := by
  obtain ⟨parts, hroots, hparts⟩ := exists_loaded t.children h
  exact ⟨parts, .of_children hroots hparts⟩

end Stencil
