import Stencil.Proofs.Cleanup.Terminals
import Mathlib.Data.Fintype.EquivFin

/-! # A pass that checks itself

Cleanup takes much for granted: that the elements and children it asks for are there, that its numbers keep
within their types, that it cuts texts between characters, and that its walks and loops come to an end. Here
is the same pass with all of that checked. It counts bytes, as a stored text has them, and it keeps a record
of what it takes out of lists of children. Where links fit and lead upwards to an end, what it asks is
answered as without the checks. -/

namespace Stencil

namespace Checked

/-! ### Numbers and texts -/

/-- The number of the line below, when no number is greater than `greatest`. -/
def lineBelow (greatest line : Int) : Except Breach Int :=
  if line < greatest then .ok (line + 1) else .error .overflow

/-- The number of bytes that a text takes. -/
def bytes (text : List Char) : Nat := (String.ofList text).utf8ByteSize

/-- What stands before a byte of a text, and what stands from it on. -/
def cutAt : (text : List Char) → (offset : Nat) → Except Breach (List Char × List Char)
  | text, 0 => .ok ([], text)
  | [], _ + 1 => .error .cut
  | c :: cs, offset + 1 =>
    if offset + 1 < c.utf8Size then .error .cut
    else (cutAt cs (offset + 1 - c.utf8Size)).map fun (front, rest) => (c :: front, rest)

/-- The part of a text between two bytes. -/
def slice (text : List Char) (start stop : Nat) : Except Breach (List Char) :=
  if stop < start then .error .cut
  else do
    let (front, _) ← cutAt text stop
    let (_, piece) ← cutAt front start
    return piece

/-- The byte that is the first line feed. -/
def firstFeed? : List Char → Option Nat
  | [] => none
  | c :: cs => if c = '\n' then some 0 else (firstFeed? cs).map (c.utf8Size + ·)

/-- The byte that is the last line feed. -/
def lastFeed? : List Char → Option Nat
  | [] => none
  | c :: cs =>
    match lastFeed? cs with
    | some offset => some (c.utf8Size + offset)
    | none => if c = '\n' then some 0 else none

/-! ### Walks -/

def element (a : Arena) (id : ElementId) : Except Breach Element :=
  if id < a.size then .ok (a.get id) else .error .place

def child (a : Arena) (id : ElementId) (index : Nat) : Except Breach ElementId := do
  match (← element a id).children[index]? with
  | some c => return c
  | none => throw .place

/-- The sibling before an element or after it. -/
def sibling? (a : Arena) (back : Bool) (id : ElementId) : Except Breach (Option ElementId) := do
  let e ← element a id
  match e.parent with
  | none => return none
  | some parent =>
    if back then
      match e.index with
      | 0 => return none
      | index + 1 => return some (← child a parent index)
    else if e.index + 1 < (← element a parent).children.length then
      return some (← child a parent (e.index + 1))
    else return none

def isTerminal (e : Element) : Bool := e.children.isEmpty || e.kind.isUnit

/-- The first leaf below an element, or the last. -/
def leaf (a : Arena) (last : Bool) : (depth : Nat) → ElementId → Except Breach ElementId
  | 0, id => do
    if isTerminal (← element a id) then return id else throw .endless
  | depth + 1, id => do
    let e ← element a id
    if isTerminal e then return id
    else
      let index ← if last then difference e.children.length 1 else pure 0
      leaf a last depth (← child a id index)

/-- The leaf before an element or after it, climbing at most `height` times. -/
def terminalWithin (a : Arena) (back : Bool) : (height : Nat) → ElementId → Except Breach (Option ElementId)
  | 0, _ => throw .endless
  | height + 1, id => do
    match ← sibling? a back id with
    | some sibling => return some (← leaf a back a.size sibling)
    | none =>
      match (← element a id).parent with
      | some parent => terminalWithin a back height parent
      | none => return none

def terminal? (a : Arena) (back : Bool) (id : ElementId) : Except Breach (Option ElementId) :=
  terminalWithin a back (a.size + 1) id

/-! ### What can go -/

def isQuiet (a : Arena) (atTop : Bool) : Option ElementId → Except Breach Bool
  | some sibling => return (← element a sibling).kind.isSilent
  | none => return atTop

def isAtTop (a : Arena) (e : Element) : Except Breach Bool :=
  match e.parent with
  | some parent => return (← element a parent).parent.isNone
  | none => return true

def isDroppedText (a : Arena) (id : ElementId) (text : List Char) (strip : Bool) : Except Breach Bool := do
  if text.isEmpty then return true
  if !strip || !decide (Text.AllBlank text) then return false
  let atTop ← isAtTop a (← element a id)
  if ← isQuiet a atTop (← sibling? a true id) then isQuiet a atTop (← sibling? a false id) else return false

def isIgnorable (a : Arena) (id : ElementId) (strip : Bool) : Except Breach Bool := do
  let e ← element a id
  match e.kind with
  | .text t _ => isDroppedText a id t.toList strip
  | .sequence => return e.children.isEmpty
  | .comment _ => return true
  | _ => return false

def goesWhenStripping (a : Arena) (id : ElementId) : Except Breach Bool := do
  match (← element a id).kind with
  | .text _ _ => isIgnorable a id true
  | _ => return false

/-- Whether an element keeps the blanks of a text after it, when the text asks back, or before it. -/
def heeds (a : Arena) (back : Bool) (id : ElementId) : Except Breach Bool := do
  if ← goesWhenStripping a id then return false
  let e ← element a id
  return if back then e.kind.heedsOpening else e.kind.heedsTrailing

/-- Whether, going on from a leaf, one that touches `line` keeps its blanks. -/
def heeded (a : Arena) (back : Bool) (line : Int) : (steps : Nat) → Option ElementId → Except Breach Bool
  | _, none => return false
  | 0, some _ => throw .endless
  | steps + 1, some id => do
    let e ← element a id
    if (if back then e.location.last.line else e.location.first.line) ≠ line then return false
    if ← heeds a back id then return true
    heeded a back line steps (← terminal? a back id)

/-! ### Trimming -/

def textOf (e : Element) : List Char :=
  match e.kind with
  | .text t _ => t.toList
  | _ => []

/-- The number of bytes to take off the beginning of a text. -/
def openingCut (a : Arena) (id : ElementId) : Except Breach Nat := do
  let e ← element a id
  match firstFeed? (textOf e) with
  | none => return 0
  | some feed =>
    let (line, _) ← cutAt (textOf e) feed
    if !decide (Text.AllBlank line) then return 0
    if ← heeded a true e.location.first.line (a.size + 1) (← terminal? a true id) then return 0
    return feed + 1

/-- The number of bytes to take off the end of a text. -/
def trailingCut (a : Arena) (id : ElementId) : Except Breach Nat := do
  let e ← element a id
  let start? := match lastFeed? (textOf e) with
    | some feed => some (feed + 1)
    | none => if e.location.first.column = 1 then some 0 else none
  match start? with
  | none => return 0
  | some start =>
    let (_, line) ← cutAt (textOf e) start
    if !decide (Text.AllBlank line) then return 0
    if ← heeded a false e.location.last.line (a.size + 1) (← terminal? a false id) then return 0
    difference (bytes (textOf e)) start

end Checked

/-- What a pass takes out of a list of children: an element that can go, or one whose place another takes. -/
inductive Removal where
  | dropped (parent child : ElementId)
  | replaced (parent : ElementId) (index : Nat) (child replacement : ElementId)
deriving DecidableEq, Repr

namespace Checked

/-- What a pass has come to: the arena, and what has been taken out of lists of children, the latest first. -/
structure Course where
  arena : Arena
  removals : List Removal := []

/-- A step of a pass that checks itself. -/
abbrev Pass := EStateM Breach Course

def observe {α : Type} (f : Arena → Except Breach α) : Pass α := fun s =>
  match f s.arena with
  | .ok x => .ok x s
  | .error e => .error e s

def record (r : Removal) : Pass Unit := modify fun s => { s with removals := r :: s.removals }

def change (id : ElementId) (f : Element → Element) : Pass Unit := do
  let _ ← observe (element · id)
  modify fun s => { s with arena := s.arena.update id f }

def link (child parent : ElementId) (index : Nat) : Pass Unit :=
  change child fun e => { e with parent := some parent, index }

def detach (child : ElementId) : Pass Unit := change child fun e => { e with parent := none, index := 0 }

/-- Links some children of a parent again, the first of them at `index`. -/
def relink (parent : ElementId) : (count index : Nat) → Pass Unit
  | 0, _ => pure ()
  | count + 1, index => do
    link (← observe (child · parent index)) parent index
    relink parent count (index + 1)

def removeChild (parent : ElementId) (index : Nat) : Pass ElementId := do
  let removed ← observe (child · parent index)
  change parent fun e =>
    { e with buffer := (e.buffer.map fun b => { b with items := b.items.eraseIdx index }).filter fun b =>
      !b.items.isEmpty }
  detach removed
  relink parent ((← observe (element · parent)).children.length - index) index
  return removed

def putChild (parent : ElementId) (index : Nat) (child : ElementId) : Pass Unit := do
  match (← observe (element · parent)).buffer with
  | none => pure ()
  | some b =>
    if index < b.items.length then
      change parent fun e => { e with buffer := e.buffer.map fun b =>
        { b with items := b.items.set index child } }
    else throw .place

def trimText (greatest : Int) (id : ElementId) : Pass Unit := do
  let opening ← observe (openingCut · id)
  let trailing ← observe (trailingCut · id)
  let e ← observe (element · id)
  match e.kind with
  | .text t _ =>
    if opening = 0 ∧ trailing = 0 then change id fun e => { e with kind := .text t true }
    else
      let stop ← observe fun _ => difference (bytes t.toList) trailing
      let kept ← observe fun _ => slice t.toList opening stop
      let first ← observe fun _ =>
        if opening > 0 then (lineBelow greatest e.location.first.line).map fun line =>
          ⟨line, 1⟩ else .ok e.location.first
      let last := if trailing > 0 then ⟨e.location.last.line, 0⟩ else e.location.last
      change id fun e =>
        { e with kind := .text (.ofList kept) true, location := { e.location with first, last } }
  | _ => pure ()

def simplify (greatest : Int) (strip : Bool) (id : ElementId) : Pass ElementId := do
  let e ← observe (element · id)
  match e.kind with
  | .sequence => if e.children.length = 1 then observe (child · id 0) else return id
  | .ifBlock =>
    if e.children.length = 1 then
      let branch ← observe (child · id 0)
      change branch fun d => { d with location := e.location }
      return branch
    else return id
  | .text _ trimmed =>
    if strip && !trimmed then trimText greatest id
    return id
  | _ => return id

def cleanEach (clean : ElementId → Pass ElementId) (id : ElementId) : List Nat → Pass Unit
  | [] => pure ()
  | index :: rest => do
    let old ← observe (child · id index)
    let replacement ← clean old
    if replacement ≠ old then
      record (.replaced id index old replacement)
      putChild id index replacement
    link replacement id index
    cleanEach clean id rest

def dropIgnorable (strip : Bool) (id : ElementId) : (steps index : Nat) → Pass Unit
  | 0, index => do
    if index < (← observe (element · id)).children.length then throw .endless
  | steps + 1, index => do
    if index < (← observe (element · id)).children.length then
      let next ← observe (child · id index)
      if ← observe (isIgnorable · next strip) then
        record (.dropped id next)
        let _ ← removeChild id index
        dropIgnorable strip id steps index
      else dropIgnorable strip id steps (index + 1)

def cleanWithin (greatest : Int) (strip : Bool) : (depth : Nat) → ElementId → Pass ElementId
  | 0, id => do
    if (← observe (element · id)).children.length > 0 then throw .endless
    simplify greatest strip id
  | depth + 1, id => do
    let count := (← observe (element · id)).children.length
    if count > 0 then
      cleanEach (cleanWithin greatest strip depth) id (List.range count)
      dropIgnorable strip id count 0
      change id fun e => { e with buffer := e.buffer.map ChildBuffer.shrink }
    simplify greatest strip id

/-- Cleans up an element and everything below it, as `Edit.clean` does, and refuses to go on where something
is not as it is taken to be. -/
def clean (greatest : Int) (strip : Bool) (id : ElementId) : Pass ElementId := do
  cleanWithin greatest strip (← get).arena.size id

end Checked

/-! ### Cutting texts -/

namespace Checked

section
variable {text front piece back line rest : List Char} {c : Char} {start stop offset : Nat}

@[simp] theorem bytes_nil : bytes [] = 0 := by rw [bytes, String.ofList_nil, String.utf8ByteSize_empty]

@[simp] theorem bytes_append (front rest : List Char) : bytes (front ++ rest) = bytes front + bytes rest := by
  rw [bytes, String.ofList_append, String.utf8ByteSize_append]
  rfl

@[simp] theorem bytes_cons : bytes (c :: text) = c.utf8Size + bytes text := by
  rw [← List.singleton_append, bytes_append, bytes, ← String.singleton_eq_ofList,
    String.utf8ByteSize_singleton]

theorem cutAt_append (front rest : List Char) : cutAt (front ++ rest) (bytes front) = .ok (front, rest) := by
  induction front with
  | nil => cases rest <;> rfl
  | cons c front ih =>
    obtain ⟨n, hn⟩ : ∃ n, bytes (c :: front) = n + 1 := Nat.exists_eq_succ_of_ne_zero (by
      have := c.utf8Size_pos
      rw [bytes_cons]
      omega)
    have hrest : n + 1 - c.utf8Size = bytes front := by rw [← hn, bytes_cons, Nat.add_sub_cancel_left]
    have hwhole : ¬ n + 1 < c.utf8Size := by rw [← hn, bytes_cons]; omega
    rw [hn, List.cons_append, cutAt, if_neg hwhole, hrest, ih]
    rfl

/-- A text is cut only where a character begins, or at its end. -/
theorem cutAt_eq_ok (h : cutAt text offset = .ok (front, rest)) :
    text = front ++ rest ∧ bytes front = offset := by
  induction text generalizing offset front rest with
  | nil =>
    cases offset with
    | zero => cases h; exact ⟨rfl, rfl⟩
    | succ offset => cases h
  | cons c cs ih =>
    cases offset with
    | zero => cases h; exact ⟨rfl, rfl⟩
    | succ offset =>
      rw [cutAt] at h
      split at h
      · cases h
      · next hwhole =>
        cases hcut : cutAt cs (offset + 1 - c.utf8Size) with
        | error e => rw [hcut] at h; cases h
        | ok parts =>
          rw [hcut] at h
          cases h
          obtain ⟨hcs, hbytes⟩ := ih hcut
          rw [List.cons_append, ← hcs, bytes_cons, hbytes]
          exact ⟨rfl, by omega⟩

/-- A slice is what stands between two cuts, the second of which is not before the first. -/
theorem slice_eq_ok_iff : slice text start stop = .ok piece ↔
    ∃ front back, text = front ++ (piece ++ back) ∧ bytes front = start ∧ bytes (front ++ piece) = stop := by
  rw [slice]
  constructor
  · intro h
    split at h
    · cases h
    cases hstop : cutAt text stop with
    | error e => rw [hstop] at h; cases h
    | ok parts =>
      obtain ⟨before, back⟩ := parts
      cases hstart : cutAt before start with
      | error e => simp only [hstop, hstart, bind, Except.bind] at h; cases h
      | ok parts' =>
        obtain ⟨front, found⟩ := parts'
        simp only [hstop, hstart, bind, Except.bind, pure, Except.pure, Except.ok.injEq] at h
        subst h
        obtain ⟨rfl, hbytes⟩ := cutAt_eq_ok hstop
        obtain ⟨rfl, hbytes'⟩ := cutAt_eq_ok hstart
        exact ⟨front, back, by rw [List.append_assoc], hbytes', hbytes⟩
  · rintro ⟨front, back, rfl, rfl, rfl⟩
    rw [if_neg (by rw [bytes_append]; omega), ← List.append_assoc, cutAt_append]
    simp only [bind, Except.bind, cutAt_append]
    rfl

theorem firstFeed?_append (h : '\n' ∉ line) (rest : List Char) :
    firstFeed? (line ++ '\n' :: rest) = some (bytes line) := by
  induction line with
  | nil => rfl
  | cons c line ih =>
    obtain ⟨hc, hline⟩ := List.ne_and_not_mem_of_not_mem_cons h
    rw [List.cons_append, firstFeed?, if_neg (Ne.symm hc), ih hline, Option.map_some, bytes_cons]

theorem firstFeed?_eq_none (h : '\n' ∉ text) : firstFeed? text = none := by
  induction text with
  | nil => rfl
  | cons c text ih =>
    obtain ⟨hc, htext⟩ := List.ne_and_not_mem_of_not_mem_cons h
    rw [firstFeed?, if_neg (Ne.symm hc), ih htext, Option.map_none]

theorem lastFeed?_eq_none (h : '\n' ∉ text) : lastFeed? text = none := by
  induction text with
  | nil => rfl
  | cons c text ih =>
    obtain ⟨hc, htext⟩ := List.ne_and_not_mem_of_not_mem_cons h
    simp only [lastFeed?, ih htext, if_neg (Ne.symm hc)]

theorem lastFeed?_append (h : '\n' ∉ line) (front : List Char) :
    lastFeed? (front ++ '\n' :: line) = some (bytes front) := by
  induction front with
  | nil => simp only [List.nil_append, lastFeed?, lastFeed?_eq_none h, bytes_nil, if_true]
  | cons c front ih => simp only [List.cons_append, lastFeed?, ih, bytes_cons]

theorem notMem_of_firstLine?_eq_none (h : Kind.firstLine? text = none) : '\n' ∉ text := by
  intro hfeed
  rw [Kind.firstLine?, if_pos hfeed] at h
  cases h

theorem notMem_of_lastLine?_eq_none (h : Kind.lastLine? text = none) : '\n' ∉ text := fun hfeed =>
  notMem_of_firstLine?_eq_none (Option.map_eq_none_iff.1 h) (List.mem_reverse.2 hfeed)

end

end Checked

/-! ### Arenas whose walks end -/

/-- The links between the elements in use fit, and no element stands below itself. -/
structure Arena.Rooted (a : Arena) (used : ElementId → Prop) : Prop where
  sound : a.Sound used
  forest (x : ElementId) : ¬ a.Under x x

section
variable {a : Arena} {used : ElementId → Prop} {x y p r : ElementId} {up : List ElementId}
  {ss : List Shape} {index : Nat}

/-- From every element in use a way leads up to one without parent. -/
theorem Arena.Rooted.exists_ascends (h : a.Rooted used) (hx : used x) : ∃ up, a.Ascends x up := by
  have hwf : WellFounded fun p c : Fin a.size => a.Under c p := by
    have : Std.Irrefl fun p c : Fin a.size => a.Under c p := ⟨fun y => h.forest y⟩
    have : IsTrans (Fin a.size) fun p c => a.Under c p := ⟨fun _ _ _ hqp hpc => hpc.trans hqp⟩
    exact Finite.wellFounded_of_trans_of_irrefl _
  suffices hall : ∀ y : Fin a.size, used y → ∃ up, a.Ascends y up from hall ⟨x, h.sound.inside hx⟩ hx
  intro y
  induction y using hwf.induction with
  | _ y ih =>
    intro hy
    cases hparent : (a.get y).parent with
    | none => exact ⟨[], .top hparent⟩
    | some p =>
      obtain ⟨hp, -⟩ := h.sound.parent hy hparent
      obtain ⟨up, hup⟩ := ih ⟨p, h.sound.inside hp⟩ (.single hparent) hp
      exact ⟨p :: up, .step hparent hup⟩

/-- Every element in use is part of a tree whose root has no parent. -/
theorem Arena.Rooted.exists_root (h : a.Rooted used) (hx : used x) :
    ∃ r ss, Tidy a used r ss ∧ (a.get r).parent = none ∧ x ∈ a.preorder r := by
  obtain ⟨up, hup⟩ := h.exists_ascends hx
  induction hup with
  | @top x orphan =>
    obtain ⟨ss, htidy⟩ := h.sound.exists_tidy hx orphan
    refine ⟨x, ss, htidy, orphan, ?_⟩
    rw [preorder_eq_ids htidy, Shape.ids_singleton]
    exact List.mem_cons_self
  | @step x p up parent _ ih =>
    obtain ⟨hp, hplace⟩ := h.sound.parent hx parent
    obtain ⟨r, ss, htidy, hroot, hmem⟩ := ih hp
    rw [preorder_eq_ids htidy] at hmem
    obtain ⟨before, after, hsplit, -⟩ := htidy.exists_stops hroot hmem
    obtain ⟨-, below, hself⟩ := htidy.of_mem_ids hroot hmem
    have hchild : x ∈ below.map Shape.root := hself.children ▸ List.mem_of_getElem? hplace
    obtain ⟨s, hs, rfl⟩ := List.mem_map.1 hchild
    refine ⟨r, ss, htidy, hroot, ?_⟩
    rw [preorder_eq_ids htidy, hsplit, preorder_eq_ids hself, Shape.ids_singleton]
    exact List.mem_append_left _ (List.mem_append_right _ (List.mem_cons_of_mem p (Shape.root_mem_ids hs)))

/-- The walk from an element leads closer to the end of the document, and the walk back
closer to its beginning. -/
theorem Tidy.terminals_closer (h : Tidy a used r ss) (hroot : (a.get r).parent = none)
    (hx : x ∈ a.preorder r) :
    (∀ y, a.previousTerminal? x = .ok (some y) → y ∈ a.preorder r ∧
      (a.preorder r).idxOf y < (a.preorder r).idxOf x) ∧
    ∀ y, a.nextTerminal? x = some y → y ∈ a.preorder r ∧ (a.preorder r).idxOf x < (a.preorder r).idxOf y := by
  have hids := preorder_eq_ids h
  have hnodup := h.nodup
  rw [← hids] at hnodup
  obtain ⟨-, below, hself⟩ := h.of_mem_ids hroot (hids ▸ hx)
  obtain ⟨before, after, hsplit, hnext, hprevious⟩ := h.exists_stops hroot (hids ▸ hx)
  rw [← hids, preorder_eq_ids hself, Shape.ids_singleton, List.append_assoc] at hsplit
  rw [hsplit] at hnodup ⊢
  obtain ⟨-, -, hbefore⟩ := List.nodup_append.1 hnodup
  have hxbefore : x ∉ before := fun hin => hbefore x hin x List.mem_cons_self rfl
  have hplace : (before ++ (x :: Shape.ids below ++ after)).idxOf x = before.length := by
    rw [List.idxOf_append_of_notMem hxbefore, List.cons_append, List.idxOf_cons_self, Nat.add_zero]
  rw [hplace]
  refine ⟨fun y hy => ?_, fun y hy => ?_⟩
  · rw [hprevious] at hy
    have hin : y ∈ before := List.mem_reverse.1 (List.mem_of_find?_eq_some (Except.ok.inj hy))
    refine ⟨List.mem_append_left _ hin, ?_⟩
    rw [List.idxOf_append_of_mem hin]
    exact List.idxOf_lt_length_of_mem hin
  · rw [hnext] at hy
    have hin : y ∈ after := List.mem_of_find?_eq_some hy
    have hlater : y ∈ Shape.ids below ++ after := List.mem_append_right _ hin
    have hybefore : y ∉ before := fun hin' => hbefore y hin' y (List.mem_cons_of_mem x hlater) rfl
    have hyx : x ≠ y := by
      rintro rfl
      exact (List.nodup_cons.1 (List.nodup_append.1 hnodup).2.1).1 hlater
    refine ⟨List.mem_append_right _ (List.mem_cons_of_mem x hlater), ?_⟩
    rw [List.idxOf_append_of_notMem hybefore, List.cons_append, List.idxOf_cons_ne _ hyx]
    omega

/-! ### The same answers -/

namespace Checked

/-- A question has the same answer with the checks and without them, and a good one. -/
def Agrees {α : Type} (checked : Except Breach α) (plain : Except OutOfRange α) (good : α → Prop) : Prop :=
  ∃ answer, checked = .ok answer ∧ plain = .ok answer ∧ good answer

theorem element_ok (h : x < a.size) : element a x = .ok (a.get x) := if_pos h

theorem element_eq_ok {e : Element} (h : element a x = .ok e) : a.get x = e := by
  rw [element] at h
  split at h
  · exact Except.ok.inj h
  · cases h

theorem child_ok (hp : p < a.size) (hx : (a.children p)[index]? = some x) : child a p index = .ok x := by
  have hx : (a.get p).children[index]? = some x := hx
  simp only [child, element_ok hp, bind, Except.bind, hx]
  rfl

/-- The sibling in one of two directions. -/
abbrev plainSibling (a : Arena) (back : Bool) (x : ElementId) : Except OutOfRange (Option ElementId) :=
  if back then a.previousSibling? x else .ok (a.nextSibling? x)

/-- The leaf in one of two directions. -/
abbrev plainTerminal (a : Arena) (back : Bool) (x : ElementId) : Except OutOfRange (Option ElementId) :=
  if back then a.previousTerminal? x else .ok (a.nextTerminal? x)

theorem agrees_sibling (h : a.Sound used) (hx : used x) (back : Bool) :
    Agrees (sibling? a back x) (plainSibling a back x) fun found => ∀ y ∈ found, used y := by
  have hin := element_ok (h.inside hx)
  cases hparent : (a.get x).parent with
  | none =>
    refine ⟨none, ?_, ?_, by simp⟩
    · simp only [sibling?, hin, bind, Except.bind, hparent]
      rfl
    · cases back <;> simp [plainSibling, Arena.previousSibling?, Arena.nextSibling?, hparent]
  | some p =>
    obtain ⟨hp, hplace⟩ := h.parent hx hparent
    obtain ⟨hlt, -⟩ := List.getElem?_eq_some_iff.1 hplace
    cases back with
    | true =>
      cases hindex : (a.get x).index with
      | zero =>
        refine ⟨none, ?_, by simp [plainSibling, Arena.previousSibling?, hparent, hindex], by simp⟩
        simp only [sibling?, hin, bind, Except.bind, hparent, hindex, if_true]
        rfl
      | succ index =>
        rw [hindex] at hlt
        have hprevious : (a.children p)[index]? = some (a.children p)[index] :=
          List.getElem?_eq_getElem (by omega)
        refine ⟨some (a.children p)[index], ?_, ?_, ?_⟩
        · simp only [sibling?, hin, bind, Except.bind, hparent, hindex, if_true,
            child_ok (h.inside hp) hprevious]
          rfl
        · simp only [plainSibling, if_true, Arena.previousSibling?, hparent, hindex, Arena.child, hprevious]
          rfl
        · intro y hy
          cases hy
          exact (h.child hp hprevious).1
    | false =>
      have hchildren : element a p = .ok (a.get p) := element_ok (h.inside hp)
      by_cases hlast : (a.get x).index + 1 < (a.get p).children.length
      · have hlast' : (a.get x).index + 1 < (a.children p).length := hlast
        have hnext : (a.children p)[(a.get x).index + 1]? = some (a.children p)[(a.get x).index + 1] :=
          List.getElem?_eq_getElem hlast'
        refine ⟨some (a.children p)[(a.get x).index + 1], ?_, ?_, ?_⟩
        · simp only [sibling?, hin, bind, Except.bind, hparent, Bool.false_eq_true, if_false,
            hchildren, if_pos hlast, child_ok (h.inside hp) hnext]
          rfl
        · simp only [plainSibling, Bool.false_eq_true, if_false, Arena.nextSibling?, hparent,
            Option.bind_some, hnext]
        · intro y hy
          cases hy
          exact (h.child hp hnext).1
      · have hnext : (a.children p)[(a.get x).index + 1]? = none := List.getElem?_eq_none (Nat.not_lt.1 hlast)
        refine ⟨none, ?_, ?_, by simp⟩
        · simp only [sibling?, hin, bind, Except.bind, hparent, Bool.false_eq_true, if_false,
            hchildren, if_neg hlast]
          rfl
        · simp only [plainSibling, Bool.false_eq_true, if_false, Arena.nextSibling?, hparent,
            Option.bind_some, hnext]

/-- Below an element there is a leaf, not further down than there are elements. -/
theorem leaf_ok (h : a.Sound used) (hx : used x) (hup : a.Ascends x up) {depth : Nat}
    (hdepth : a.size ≤ up.length + depth) (last : Bool) :
    leaf a last depth x = .ok (if last then a.lastLeafWithin depth x else a.firstLeafWithin depth x) := by
  induction depth generalizing x up with
  | zero => exact absurd (hup.length_lt h hx) (Nat.not_lt.2 hdepth)
  | succ depth ih =>
    have hsame : a.isTerminal x = isTerminal (a.get x) := rfl
    simp only [leaf, element_ok (h.inside hx), bind, Except.bind, Arena.lastLeafWithin,
      Arena.firstLeafWithin, hsame]
    cases hterminal : isTerminal (a.get x) with
    | true => cases last <;> rfl
    | false =>
      have hsome : a.children x ≠ [] := by
        have hnot := (Bool.or_eq_false_iff.1 hterminal).1
        rwa [List.isEmpty_eq_false_iff] at hnot
      have hbelow : ∀ c ∈ a.children x, used c ∧ a.Ascends c (x :: up) := fun c hc => by
        obtain ⟨hc, hparent⟩ := h.child_mem hx hc
        exact ⟨hc, .step hparent hup⟩
      have hdepth' : a.size ≤ (x :: up).length + depth := by rw [List.length_cons]; omega
      have hlength : 1 ≤ (a.get x).children.length := List.length_pos_iff.2 hsome
      cases last with
      | true =>
        have hlast := List.getLast?_eq_some_getLast hsome
        obtain ⟨hc, hway⟩ := hbelow _ (List.getLast_mem hsome)
        have hchild : child a x ((a.get x).children.length - 1) = .ok ((a.children x).getLast hsome) :=
          child_ok (h.inside hx) (List.getLast?_eq_getElem? ▸ hlast)
        simp only [Bool.false_eq_true, if_false, if_true, difference, if_pos hlength, hchild,
          hlast, ih hc hway hdepth']
      | false =>
        have hhead := List.head?_eq_some_head hsome
        obtain ⟨hc, hway⟩ := hbelow _ (List.head_mem hsome)
        have hchild : child a x 0 = .ok ((a.children x).head hsome) :=
          child_ok (h.inside hx) (List.head?_eq_getElem? ▸ hhead)
        simp only [Bool.false_eq_true, if_false, pure, Except.pure, hchild, hhead, ih hc hway hdepth']

theorem agrees_terminal (h : a.Rooted used) (hx : used x) (back : Bool) :
    Agrees (terminal? a back x) (plainTerminal a back x) fun found => ∀ y ∈ found, used y := by
  obtain ⟨up, hup⟩ := h.exists_ascends hx
  have hheight : up.length < a.size + 1 := Nat.lt_succ_of_lt (hup.length_lt h.sound hx)
  rw [terminal?, plainTerminal, Arena.previousTerminal?, Arena.nextTerminal?]
  generalize a.size + 1 = height at hheight
  induction hup generalizing height with
  | @top x orphan =>
    obtain ⟨height, rfl⟩ := Nat.exists_eq_succ_of_ne_zero (Nat.ne_zero_of_lt hheight)
    refine ⟨none, ?_, ?_, by simp⟩
    · simp only [terminalWithin, sibling?, element_ok (h.sound.inside hx), bind,
        Except.bind, orphan, pure, Except.pure]
    · obtain ⟨hnext, hprevious⟩ := terminalWithin_of_orphan orphan (height + 1)
      rw [hnext, hprevious, ite_self]
  | @step x p up parent _ ih =>
    obtain ⟨height, rfl⟩ := Nat.exists_eq_succ_of_ne_zero (Nat.ne_zero_of_lt hheight)
    obtain ⟨sibling, hchecked, hplain, hused⟩ := agrees_sibling h.sound hx back
    obtain ⟨hp, -⟩ := h.sound.parent hx parent
    simp only [terminalWithin, element_ok (h.sound.inside hx), hchecked, bind, Except.bind, parent]
    cases sibling with
    | none =>
      obtain ⟨found, hfound, hfound', hgood⟩ := ih hp height (Nat.lt_of_succ_lt_succ hheight)
      refine ⟨found, hfound, ?_, hgood⟩
      cases back with
      | true =>
        simp only [plainSibling, if_true] at hplain hfound' ⊢
        simp only [Arena.previousTerminalWithin, hplain, bind, Except.bind, parent, hfound']
      | false =>
        simp only [plainSibling, Bool.false_eq_true, if_false, Except.ok.injEq] at hplain hfound' ⊢
        simp only [Arena.nextTerminalWithin, hplain, parent, hfound']
    | some y =>
      have hy := hused y rfl
      obtain ⟨above, hway⟩ := h.exists_ascends hy
      have hleaf := leaf_ok h.sound hy hway (Nat.le_add_left a.size above.length) back
      refine ⟨some (if back then a.lastLeafWithin a.size y else a.firstLeafWithin a.size y), ?_, ?_, ?_⟩
      · simp only [hleaf]
        rfl
      · cases back with
        | true =>
          simp only [plainSibling, if_true] at hplain ⊢
          simp only [Arena.previousTerminalWithin, hplain, bind, Except.bind]
          rfl
        | false =>
          simp only [plainSibling, Bool.false_eq_true, if_false, Except.ok.injEq] at hplain ⊢
          simp only [Arena.nextTerminalWithin, hplain]
          rfl
      · intro z hz
        cases hz
        cases back with
        | true => exact h.sound.lastLeafWithin a.size hy
        | false => exact h.sound.firstLeafWithin a.size hy

/-! ### What can go, and what is trimmed -/

theorem isQuiet_ok (h : a.Sound used) (atTop : Bool) {found : Option ElementId}
    (hfound : ∀ y ∈ found, used y) :
    isQuiet a atTop found = .ok (a.isQuiet atTop found) := by
  cases found with
  | none => rfl
  | some y =>
    simp only [isQuiet, element_ok (h.inside (hfound y rfl)), bind, Except.bind]
    rfl

theorem isAtTop_ok (h : a.Sound used) (hx : used x) : isAtTop a (a.get x) = .ok (a.isAtTop x) := by
  simp only [isAtTop, Arena.isAtTop]
  cases hparent : (a.get x).parent with
  | none => rfl
  | some p =>
    simp only [element_ok (h.inside (h.parent hx hparent).1), bind, Except.bind]
    rfl

theorem agrees_isDroppedText (h : a.Sound used) (hx : used x) (text : List Char) (strip : Bool) :
    Agrees (isDroppedText a x text strip) (a.isDroppedText x text strip) fun _ => True := by
  obtain ⟨previous, hprevious, hplain, hgood⟩ := agrees_sibling h hx true
  obtain ⟨next, hnext, hplain', hgood'⟩ := agrees_sibling h hx false
  obtain rfl : a.nextSibling? x = next := Except.ok.inj hplain'
  have hplain : a.previousSibling? x = .ok previous := hplain
  simp only [isDroppedText, Arena.isDroppedText, element_ok (h.inside hx), hprevious, hnext,
    hplain, bind, Except.bind, isAtTop_ok h hx, isQuiet_ok h _ hgood, isQuiet_ok h _ hgood']
  split
  · exact ⟨true, rfl, rfl, trivial⟩
  · split
    · exact ⟨false, rfl, rfl, trivial⟩
    · refine ⟨_, ?_, rfl, trivial⟩
      cases a.isQuiet (a.isAtTop x) previous <;> rfl

theorem agrees_isIgnorable (h : a.Sound used) (hx : used x) (strip : Bool) :
    Agrees (isIgnorable a x strip) (a.isIgnorable x strip) fun _ => True := by
  simp only [isIgnorable, Arena.isIgnorable, element_ok (h.inside hx), bind, Except.bind]
  cases (a.get x).kind with
  | text t trimmed => exact agrees_isDroppedText h hx _ strip
  | _ => exact ⟨_, rfl, rfl, trivial⟩

theorem agrees_heeds (h : a.Sound used) (hx : used x) (back : Bool) :
    Agrees (heeds a back x) (if back then a.heedsOpening x else a.heedsTrailing x) fun _ => True := by
  have hgoes : Agrees (goesWhenStripping a x) (a.goesWhenStripping x) fun _ => True := by
    simp only [goesWhenStripping, Arena.goesWhenStripping, element_ok (h.inside hx), bind, Except.bind]
    cases (a.get x).kind with
    | text t trimmed => exact agrees_isIgnorable h hx true
    | _ => exact ⟨false, rfl, rfl, trivial⟩
  obtain ⟨goes, hchecked, hplain, -⟩ := hgoes
  simp only [heeds, Arena.heedsOpening, Arena.heedsTrailing, hchecked, hplain,
    element_ok (h.inside hx), bind, Except.bind]
  cases goes <;> cases back <;> exact ⟨_, rfl, rfl, trivial⟩

/-- How far a walk still has to go at most: to the beginning of the document, or to its end. -/
def remaining (a : Arena) (r : ElementId) (back : Bool) (x : ElementId) : Nat :=
  if back then (a.preorder r).idxOf x + 1 else (a.preorder r).length - (a.preorder r).idxOf x

theorem remaining_terminal (h : Tidy a used r ss) (hroot : (a.get r).parent = none) (hx : x ∈ a.preorder r)
    {back : Bool} (hy : plainTerminal a back x = .ok (some y)) :
    y ∈ a.preorder r ∧ remaining a r back y < remaining a r back x := by
  obtain ⟨hprevious, hnext⟩ := h.terminals_closer hroot hx
  cases back with
  | true =>
    obtain ⟨hin, hlt⟩ := hprevious y hy
    exact ⟨hin, Nat.succ_lt_succ hlt⟩
  | false =>
    obtain ⟨hin, hlt⟩ := hnext y (Except.ok.inj hy)
    have hlast := List.idxOf_lt_length_of_mem hin
    refine ⟨hin, ?_⟩
    simp only [remaining, Bool.false_eq_true, if_false]
    omega

theorem remaining_le (h : Tidy a used r ss) (back : Bool) (hx : x ∈ a.preorder r) :
    0 < remaining a r back x ∧ remaining a r back x ≤ a.size := by
  have hlast := List.idxOf_lt_length_of_mem hx
  have hsize : (a.preorder r).length ≤ a.size := by
    rw [preorder_eq_ids h]
    exact h.length_ids_le
  rw [remaining]
  split <;> omega

/-- The loop along a line ends, since every step brings it closer to one end of the document. -/
theorem agrees_heeded (h : a.Rooted used) (htidy : Tidy a used r ss) (hroot : (a.get r).parent = none)
    (back : Bool) (line : Int) {steps : Nat} {next : Option ElementId}
    (hnext : ∀ y ∈ next, used y ∧ y ∈ a.preorder r ∧ remaining a r back y ≤ steps) :
    Agrees (heeded a back line steps next)
      (if back then a.heededBefore line steps next else a.heededAfter line steps next)
      fun _ => True := by
  induction steps generalizing next with
  | zero =>
    cases next with
    | none => cases back <;> exact ⟨false, rfl, by simp [Arena.heededBefore, Arena.heededAfter], trivial⟩
    | some y =>
      obtain ⟨-, hin, hle⟩ := hnext y rfl
      exact absurd (remaining_le htidy back hin).1 (Nat.not_lt.2 hle)
  | succ steps ih =>
    cases next with
    | none => cases back <;> exact ⟨false, rfl, by simp [Arena.heededBefore, Arena.heededAfter], trivial⟩
    | some y =>
      obtain ⟨hy, hin, hle⟩ := hnext y rfl
      obtain ⟨keeps, hkeeps, hplain, -⟩ := agrees_heeds h.sound hy back
      obtain ⟨found, hfound, hplain', hgood⟩ := agrees_terminal h hy back
      have hnext' : ∀ z ∈ found, used z ∧ z ∈ a.preorder r ∧ remaining a r back z ≤ steps := fun z hz => by
        obtain ⟨hin', hlt⟩ := remaining_terminal htidy hroot hin (hplain'.trans (congrArg _ hz))
        exact ⟨hgood z hz, hin', by omega⟩
      have hfurther := ih hnext'
      cases back with
      | true =>
        have hplain : a.heedsOpening y = .ok keeps := hplain
        have hplain' : a.previousTerminal? y = .ok found := hplain'
        simp only [heeded, Arena.heededBefore, element_ok (h.sound.inside hy), hkeeps, hplain, hfound,
          hplain', bind, Except.bind, if_true]
        split
        · exact ⟨false, rfl, rfl, trivial⟩
        · cases keeps with
          | true => exact ⟨true, rfl, rfl, trivial⟩
          | false => exact hfurther
      | false =>
        have hplain : a.heedsTrailing y = .ok keeps := hplain
        obtain rfl : a.nextTerminal? y = found := Except.ok.inj hplain'
        simp only [heeded, Arena.heededAfter, element_ok (h.sound.inside hy), hkeeps, hplain,
          hfound, bind, Except.bind, Bool.false_eq_true, if_false]
        split
        · exact ⟨false, rfl, rfl, trivial⟩
        · cases keeps with
          | true => exact ⟨true, rfl, rfl, trivial⟩
          | false => exact hfurther

/-- From any element in use the loop along a line ends. -/
theorem agrees_heeded_terminal (h : a.Rooted used) (hx : used x) (back : Bool) (line : Int) :
    ∃ next, terminal? a back x = .ok next ∧ plainTerminal a back x = .ok next ∧
      Agrees (heeded a back line (a.size + 1) next)
        (if back then a.heededBefore line (a.size + 1) next else a.heededAfter line (a.size + 1) next)
          fun _ => True := by
  obtain ⟨r, ss, htidy, hroot, hin⟩ := h.exists_root hx
  obtain ⟨next, hchecked, hplain, hgood⟩ := agrees_terminal h hx back
  refine ⟨next, hchecked, hplain, agrees_heeded h htidy hroot back line fun y hy => ?_⟩
  obtain ⟨hin', -⟩ := remaining_terminal htidy hroot hin (hplain.trans (congrArg _ hy))
  exact ⟨hgood y hy, hin', Nat.le_succ_of_le (remaining_le htidy back hin').2⟩

variable {text : String} {trimmed : Bool}

theorem openingCut_ok (h : a.Rooted used) (hx : used x) (hkind : (a.get x).kind = .text text trimmed) :
    ∃ opening, a.openingStrip x text.toList = .ok opening ∧
    openingCut a x = .ok (bytes (text.toList.take opening)) := by
  obtain ⟨next, hnext, hplain, keeps, hkeeps, hplain', -⟩ :=
    agrees_heeded_terminal h hx true (a.get x).location.first.line
  have hplain : a.previousTerminal? x = .ok next := hplain
  have hplain' : a.heededBefore (a.get x).location.first.line (a.size + 1) next = .ok keeps := hplain'
  have htext : textOf (a.get x) = text.toList := by rw [textOf, hkind]
  simp only [openingCut, Arena.openingStrip, element_ok (h.sound.inside hx), htext, hnext, hplain, hkeeps,
    hplain', bind, Except.bind]
  cases hline : Kind.firstLine? text.toList with
  | none =>
    rw [firstFeed?_eq_none (notMem_of_firstLine?_eq_none hline)]
    exact ⟨0, rfl, by simp [pure, Except.pure]⟩
  | some line =>
    obtain ⟨rest, hrest, hfeed⟩ := Arena.exists_of_firstLine? hline
    rw [hrest, firstFeed?_append hfeed]
    simp only [cutAt_append]
    split
    · exact ⟨0, rfl, by simp [pure, Except.pure]⟩
    · cases keeps with
      | true => exact ⟨0, rfl, by simp [pure, Except.pure]⟩
      | false =>
        have htake : (line ++ '\n' :: rest).take (line.length + 1) = line ++ ['\n'] := by
          simp [List.take_append]
        refine ⟨line.length + 1, rfl, ?_⟩
        rw [htake, bytes_append]
        rfl

theorem trailingCut_ok (h : a.Rooted used) (hx : used x) (hkind : (a.get x).kind = .text text trimmed) :
    ∃ trailing, a.trailingStrip x text.toList = .ok trailing ∧
      trailingCut a x = .ok (bytes (text.toList.drop (text.toList.length - trailing))) := by
  obtain ⟨next, hnext, hplain, keeps, hkeeps, hplain', -⟩ :=
    agrees_heeded_terminal h hx false (a.get x).location.last.line
  obtain rfl : a.nextTerminal? x = next := Except.ok.inj hplain
  have hplain' : a.heededAfter (a.get x).location.last.line (a.size + 1) (a.nextTerminal? x) =
    .ok keeps := hplain'
  have htext : textOf (a.get x) = text.toList := by rw [textOf, hkind]
  simp only [trailingCut, Arena.trailingStrip, element_ok (h.sound.inside hx), htext, hnext, hkeeps,
    hplain', bind, Except.bind]
  generalize text.toList = cs
  cases hline : Kind.lastLine? cs with
  | none =>
    rw [lastFeed?_eq_none (notMem_of_lastLine?_eq_none hline)]
    by_cases hcolumn : (a.get x).location.first.column = 1
    · have hcut : cutAt cs 0 = .ok ([], cs) := cutAt_append [] cs
      simp only [if_pos hcolumn, hcut]
      split
      · exact ⟨0, rfl, by simp [pure, Except.pure]⟩
      · cases keeps with
        | true => exact ⟨0, rfl, by simp [pure, Except.pure]⟩
        | false => exact ⟨cs.length, rfl, by simp [difference]⟩
    · simp only [if_neg hcolumn]
      exact ⟨0, rfl, by simp [pure, Except.pure]⟩
  | some line =>
    obtain ⟨front, hfront, hfeed⟩ := Arena.exists_of_lastLine? hline
    have hstart : bytes front + 1 = bytes (front ++ ['\n']) := by rw [bytes_append]; rfl
    have hsplit : cs = (front ++ ['\n']) ++ line := by rw [hfront]; simp
    rw [hfront, lastFeed?_append hfeed, ← hfront]
    simp only [hstart]
    rw [hsplit]
    simp only [cutAt_append]
    split
    · exact ⟨0, rfl, by simp [pure, Except.pure]⟩
    · cases keeps with
      | true => exact ⟨0, rfl, by simp [pure, Except.pure]⟩
      | false =>
        have hdrop : ((front ++ ['\n']) ++ line).drop
            (((front ++ ['\n']) ++ line).length - line.length) = line := by
          rw [List.length_append, Nat.add_sub_cancel, List.drop_left]
        refine ⟨line.length, rfl, ?_⟩
        rw [hdrop, if_neg Bool.false_ne_true, difference, if_pos (by rw [bytes_append _ line]; omega),
          bytes_append _ line, Nat.add_sub_cancel_left]

/-! ### The cuts lie apart -/

theorem openingCut_cases {opening : Nat} (h : openingCut a x = .ok opening) :
    opening = 0 ∨ ∃ line rest, textOf (a.get x) = line ++ '\n' :: rest ∧
    opening = bytes (line ++ ['\n']) := by
  obtain ⟨e, he, h⟩ := exists_of_bind_eq_ok h
  rw [← element_eq_ok he] at h
  cases hline : Kind.firstLine? (textOf (a.get x)) with
  | none =>
    rw [firstFeed?_eq_none (notMem_of_firstLine?_eq_none hline)] at h
    exact .inl (Except.ok.inj h).symm
  | some line =>
    obtain ⟨rest, hrest, hfeed⟩ := Arena.exists_of_firstLine? hline
    rw [hrest, firstFeed?_append hfeed, ← hrest] at h
    dsimp only at h
    obtain ⟨⟨_, _⟩, -, h⟩ := exists_of_bind_eq_ok h
    split at h
    · exact .inl (Except.ok.inj h).symm
    obtain ⟨_, -, h⟩ := exists_of_bind_eq_ok h
    obtain ⟨_, -, h⟩ := exists_of_bind_eq_ok h
    split at h
    · exact .inl (Except.ok.inj h).symm
    · refine .inr ⟨line, rest, hrest, ?_⟩
      rw [bytes_append]
      exact (Except.ok.inj h).symm

theorem trailingCut_cases {trailing : Nat} (h : trailingCut a x = .ok trailing) :
    trailing = 0 ∨ ∃ front line, textOf (a.get x) = front ++ line ∧ '\n' ∉ line ∧
      (front = [] ∨ ∃ init, front = init ++ ['\n']) ∧
      trailing = bytes line := by
  obtain ⟨e, he, h⟩ := exists_of_bind_eq_ok h
  rw [← element_eq_ok he] at h
  -- Whatever the text is cut before, the cut comes to nothing or to the rest of the text.
  have hcut {start : Nat} {front line : List Char} (hsplit : textOf (a.get x) = front ++ line)
      (hstart : start = bytes front)
      (h : (do
        let (_, line) ← cutAt (textOf (a.get x)) start
        if !decide (Text.AllBlank line) then return 0
        if ← heeded a false (a.get x).location.last.line (a.size + 1) (← terminal? a false x) then return 0
        difference (bytes (textOf (a.get x))) start) = Except.ok trailing) : trailing = 0 ∨
          trailing = bytes line := by
    obtain ⟨⟨_, _⟩, -, h⟩ := exists_of_bind_eq_ok h
    dsimp only at h
    split at h
    · exact .inl (Except.ok.inj h).symm
    obtain ⟨_, -, h⟩ := exists_of_bind_eq_ok h
    obtain ⟨_, -, h⟩ := exists_of_bind_eq_ok h
    split at h
    · exact .inl (Except.ok.inj h).symm
    · rw [difference, hsplit, bytes_append, hstart, if_pos (Nat.le_add_right _ _),
        Nat.add_sub_cancel_left] at h
      exact .inr (Except.ok.inj h).symm
  cases hline : Kind.lastLine? (textOf (a.get x)) with
  | none =>
    have hfeed := notMem_of_lastLine?_eq_none hline
    rw [lastFeed?_eq_none hfeed] at h
    by_cases hcolumn : (a.get x).location.first.column = 1
    · simp only [if_pos hcolumn] at h
      exact (hcut (List.nil_append _).symm rfl h).imp_right fun hbytes =>
        ⟨[], _, rfl, hfeed, .inl rfl, hbytes⟩
    · simp only [if_neg hcolumn] at h
      exact .inl (Except.ok.inj h).symm
  | some line =>
    obtain ⟨front, hfront, hfeed⟩ := Arena.exists_of_lastLine? hline
    have hsplit : textOf (a.get x) = (front ++ ['\n']) ++ line := by rw [hfront]; simp
    rw [hfront, lastFeed?_append hfeed, ← hfront] at h
    exact (hcut hsplit (bytes_append _ ['\n']).symm h).imp_right fun hbytes =>
      ⟨front ++ ['\n'], line, hsplit, hfeed, .inr ⟨front, rfl⟩, hbytes⟩

/-- What is cut off the two ends of a text is made of whole characters and does not overlap,
whatever stands around it. -/
theorem cuts_apart {opening trailing : Nat} (hopening : openingCut a x = .ok opening)
    (htrailing : trailingCut a x = .ok trailing) :
    ∃ front kept back, textOf (a.get x) = front ++ (kept ++ back) ∧ bytes front = opening ∧
    bytes back = trailing := by
  rcases openingCut_cases hopening with rfl | ⟨line, rest, hline, rfl⟩
  · rcases trailingCut_cases htrailing with rfl | ⟨front, back, hback, -, -, rfl⟩
    · exact ⟨[], textOf (a.get x), [], by simp, rfl, rfl⟩
    · exact ⟨[], front, back, hback, rfl, rfl⟩
  · rcases trailingCut_cases htrailing with rfl | ⟨front, back, hback, hfeed, rfl | ⟨init, rfl⟩, rfl⟩
    · exact ⟨line ++ ['\n'], rest, [], by simp [hline], rfl, rfl⟩
    · rw [hback, List.nil_append] at hline
      exact absurd (hline ▸ List.mem_append_right line List.mem_cons_self) hfeed
    · -- The first line feed is the last one or stands before it.
      have hsame : line ++ '\n' :: rest = init ++ '\n' :: back := by rw [← hline, hback]; simp
      obtain ⟨kept, -, rfl⟩ := Arena.exists_between hsame hfeed
      exact ⟨line ++ ['\n'], kept, back, by simp [hline], rfl, rfl⟩

end Checked

end

end Stencil
