import Stencil.Proofs.Cleanup.WellFormed
import Stencil.Proofs.Reading.Canonical
import Stencil.Proofs.Reading.Escapes
import Stencil.Proofs.Reading.Indices
import Stencil.Proofs.Reading.Snippets

/-! # Dumps told apart

A dump is a list of lines. Their depths tell the elements below an element from those after it, their first
characters the parameters of an element from the elements in its body, and what they show tells kinds apart.
So a dump determines the tree, up to places and the marks of trimmed texts, and two trees that differ in
nothing else have the same dump. -/

namespace Stencil

/-! ### Trees without places and marks -/

/-- A kind without its places; a text does not tell whether it has been trimmed. -/
def Kind.bare : Kind → Kind
  | text s _ => text s false
  | kind => kind.unplaced

@[simp] theorem Kind.isIfBlock_bare (kind : Kind) : kind.bare.isIfBlock = kind.isIfBlock := by
  cases kind <;> rfl

namespace Tree

mutual

/-- A tree of which no part has a place, and no text tells whether it has been trimmed. -/
def bare : Tree → Tree
  | ⟨kind, _, inBlock, children⟩ => ⟨kind.bare, {}, inBlock, bares children⟩

/-- Some trees without places and marks. -/
def bares : List Tree → List Tree
  | [] => []
  | t :: ts => t.bare :: bares ts

end

theorem bare_eq (t : Tree) : t.bare = ⟨t.kind.bare, {}, t.inBlock, bares t.children⟩ := by
  cases t
  rw [bare]

@[simp] theorem bares_nil : bares [] = [] := by rw [bares]

@[simp] theorem bares_cons (t : Tree) (ts : List Tree) : bares (t :: ts) = t.bare :: bares ts := by rw [bares]

end Tree

/-! ### Lines -/

/-- A line of a dump: how far it is indented, in steps, and what it shows. -/
structure Line where
  depth : Nat
  content : List Char

/-- The characters of a line. -/
def Line.print (l : Line) : List Char := List.replicate (2 * l.depth) ' ' ++ (l.content ++ ['\n'])

/-- Lines that show where they begin and end: they show something, and neither begin with
a blank nor are broken. -/
structure Line.Sound (l : Line) : Prop where
  unbroken : '\n' ∉ l.content
  begins : ∃ c cs, l.content = c :: cs ∧ c ≠ ' '

theorem Line.print_append_inj {l m : Line} {rest rest' : List Char} (hl : l.Sound) (hm : m.Sound)
    (h : l.print ++ rest = m.print ++ rest') : l = m ∧ rest = rest' := by
  have hline {l : Line} (hl : l.Sound) : ∀ c ∈ List.replicate (2 * l.depth) ' ' ++ l.content, c ≠ '\n' := by
    intro c hc
    rcases List.mem_append.1 hc with hc | hc
    · rw [List.eq_of_mem_replicate hc]
      decide
    · exact fun hfeed => hl.unbroken (hfeed ▸ hc)
  have hends {l : Line} (rest : List Char) :
      l.print ++ rest = (List.replicate (2 * l.depth) ' ' ++ l.content) ++
      ('\n' :: rest) := by simp [Line.print]
  have hshows {l : Line} (hl : l.Sound) : ∀ c ∈ l.content.head?, c ≠ ' ' := by
    obtain ⟨c, cs, hcs, hne⟩ := hl.begins
    rw [hcs]
    rintro _ ⟨⟩
    exact hne
  rw [hends, hends] at h
  obtain ⟨hsame, hrest⟩ := append_inj_of_fronts (hline hl) (hline hm) (by simp) (by simp) h
  obtain ⟨hblanks, hcontent⟩ := append_inj_of_fronts (p := (· = ' ')) (fun c => List.eq_of_mem_replicate)
    (fun c => List.eq_of_mem_replicate) (hshows hl) (hshows hm) hsame
  have hdepth := congrArg List.length hblanks
  rw [List.length_replicate, List.length_replicate] at hdepth
  obtain ⟨depth, content⟩ := l
  obtain ⟨depth', content'⟩ := m
  obtain rfl : depth = depth' := by dsimp only at hdepth; omega
  obtain rfl : content = content' := hcontent
  exact ⟨rfl, (List.cons.inj hrest).2⟩

/-- The characters of lines tell the lines. -/
theorem Line.flatMap_print_inj {ls ms : List Line} (hls : ∀ l ∈ ls, l.Sound) (hms : ∀ m ∈ ms, m.Sound)
    (h : ls.flatMap Line.print = ms.flatMap Line.print) : ls = ms := by
  have hne (l : Line) : l.print ≠ [] := by simp [Line.print]
  induction ls generalizing ms with
  | nil =>
    cases ms with
    | nil => rfl
    | cons m ms => exact absurd (List.append_eq_nil_iff.1 h.symm).1 (hne m)
  | cons l ls ih =>
    cases ms with
    | nil => exact absurd (List.append_eq_nil_iff.1 h).1 (hne l)
    | cons m ms =>
      rw [List.forall_mem_cons] at hls hms
      obtain ⟨rfl, hrest⟩ := Line.print_append_inj hls.1 hms.1 h
      rw [ih hls.2 hms.2 hrest]

/-! ### The lines of an element -/

/-- What a parameter shows, unless it is absent. -/
def Parameter.shown? (p : Parameter) : Option (Role × List Char) :=
  match p.value with
  | .absent => none
  | value => some (p.role, value.display.toList)

/-- The line of what a parameter shows. -/
def Parameter.line (depth : Nat) (shown : Role × List Char) : Line :=
  ⟨depth, '-' :: ' ' :: (shown.1.name.toList ++ ':' :: ' ' :: shown.2)⟩

/-- What the parameters of an element show. -/
def Kind.shown (kind : Kind) : List (Role × List Char) := kind.parameters.filterMap Parameter.shown?

/-- What an element shows after its name. -/
def Kind.caption : Kind → List Char
  | text s _ => ' ' :: (Text.escaped s).toList
  | _ => []

/-- The line of an element. -/
def Kind.line (depth : Nat) (kind : Kind) : Line := ⟨depth, kind.descriptor.toList ++ kind.caption⟩

namespace Tree

mutual

/-- The lines of an element and of everything below it. -/
def entry (depth : Nat) : Tree → List Line
  | ⟨kind, _, _, children⟩ => kind.line depth ::
    (kind.shown.map (Parameter.line (depth + 1)) ++ entries (depth + 1) children)

/-- The lines of some trees. -/
def entries (depth : Nat) : List Tree → List Line
  | [] => []
  | t :: ts => t.entry depth ++ entries depth ts

end

@[simp] theorem entries_nil (depth : Nat) : entries depth [] = [] := by rw [entries]

theorem entries_cons (depth : Nat) (t : Tree) (ts : List Tree) : entries depth (t :: ts) =
    t.kind.line depth :: (t.kind.shown.map (Parameter.line (depth + 1)) ++
      (entries (depth + 1) t.children ++ entries depth ts)) := by
  obtain ⟨kind, location, inBlock, children⟩ := t
  rw [entries, entry, List.cons_append, List.append_assoc]

theorem toList_indent (depth : Nat) : (indent depth).toList = List.replicate (2 * depth) ' ' :=
  String.toList_ofList

theorem toList_dumpKind (depth : Nat) (kind : Kind) :
    (dumpKind depth kind).toList = (kind.line depth).print := by
  cases kind <;> simp [dumpKind, Kind.line, Line.print, Kind.caption, toList_indent]

theorem toList_dumpParameter (depth : Nat) (p : Parameter) :
    (dumpParameter depth p).toList =
    (p.shown?.toList.map (Parameter.line (depth + 1))).flatMap Line.print := by
  obtain ⟨role, value⟩ := p
  have hindent : List.replicate (2 * (depth + 1)) ' ' = List.replicate (2 * depth) ' ' ++ [' ', ' '] := by
    rw [Nat.mul_add, List.replicate_add]
    rfl
  cases value <;> simp [dumpParameter, Parameter.shown?, Parameter.line, Line.print, toList_indent, hindent]

theorem toList_dumpParameters (depth : Nat) (ps : List Parameter) :
    (String.join (ps.map (dumpParameter depth))).toList =
    ((ps.filterMap Parameter.shown?).map (Parameter.line (depth + 1))).flatMap Line.print := by
  induction ps with
  | nil => rfl
  | cons p ps ih =>
    rw [List.map_cons, String.join_cons, String.toList_append, toList_dumpParameter, ih, List.filterMap_cons]
    cases p.shown? <;> simp

/-- A dump is made of its lines. -/
theorem toList_dumpsAt (depth : Nat) (ts : List Tree) :
    (dumpsAt depth ts).toList = (entries depth ts).flatMap Line.print := by
  induction ts using forest_induction generalizing depth with
  | nil => rw [dumpsAt, entries_nil]; rfl
  | cons t ts ihBody ih =>
    obtain ⟨kind, location, inBlock, children⟩ := t
    rw [dumpsAt, dumpAt, entries_cons]
    simp only [String.toList_append, toList_dumpKind, toList_dumpParameters, ihBody, ih, List.flatMap_cons,
      List.flatMap_append, List.append_assoc, Kind.shown]

end Tree

/-! ### What elements show -/

/-- Elements of a template that has been read: all but the root itself can be written. -/
def Kind.Legible (kind : Kind) : Prop := kind = .sequence ∨ kind.Written

theorem Role.name_injective {r s : Role} (h : r.name = s.name) : r = s := by
  revert h
  cases r <;> cases s <;> first | exact fun _ => rfl | exact fun h => absurd h (by decide)

theorem Role.name_plain (r : Role) : ':' ∉ r.name.toList ∧ '\n' ∉ r.name.toList := by
  cases r <;> decide

theorem Branch.keyword_injective {b b' : Branch} (h : b.keyword = b'.keyword) : b = b' := by
  revert h
  cases b <;> cases b' <;> first | exact fun _ => rfl | exact fun h => absurd h (by decide)

theorem Kind.descriptor_plain (kind : Kind) :
    ' ' ∉ kind.descriptor.toList ∧ '\n' ∉ kind.descriptor.toList := by
  cases kind with
  | conditional branch _ =>
    rw [descriptor]
    cases branch <;> decide
  | _ =>
    rw [descriptor]
    decide

theorem Kind.descriptor_begins (kind : Kind) :
    ∃ c cs, kind.descriptor.toList = c :: cs ∧ c ≠ ' ' ∧ c ≠ '-' := by
  have hbegins : kind.descriptor.toList.head?.any (fun c => c != ' ' && c != '-') = true := by
    cases kind with
    | conditional branch _ =>
      rw [descriptor]
      cases branch <;> decide
    | _ =>
      rw [descriptor]
      decide
  cases h : kind.descriptor.toList with
  | nil =>
    rw [h] at hbegins
    cases hbegins
  | cons c cs =>
    rw [h] at hbegins
    exact ⟨c, cs, rfl, by simpa using hbegins⟩

/-- The number of what a kind is called; branches share theirs, and so do assignments. -/
def Kind.sort : Kind → Nat
  | sequence => 0
  | text _ _ => 1
  | interpolation _ => 2
  | ifBlock => 3
  | conditional _ _ => 4
  | list _ _ => 5
  | assignment _ _ | capture _ => 6
  | definition _ _ => 7
  | call _ _ => 8
  | inclusion _ => 9
  | comment _ => 10

/-- The numbers of all names. -/
def Kind.sorts : List (String × Nat) :=
  [("#mixed_content", 0), ("#text", 1), ("\x7b[...]\x7d", 2), ("#if-#elseif-#else-container", 3),
    ("#if", 4), ("#elseif", 4), ("#else", 4), ("#list", 5), ("#assign", 6), ("#macro", 7), ("@", 8),
    ("#include", 9), ("\x7b[%...]\x7d", 10)]

theorem Kind.lookup_descriptor (kind : Kind) : sorts.lookup kind.descriptor = some kind.sort := by
  cases kind with
  | conditional branch _ =>
    rw [descriptor, sort]
    cases branch <;> decide
  | _ =>
    rw [descriptor, sort]
    decide

theorem Kind.sort_eq_of_descriptor {kind kind' : Kind} (h : kind.descriptor = kind'.descriptor) :
    kind.sort = kind'.sort := by
  have hsame := kind.lookup_descriptor
  rw [h, kind'.lookup_descriptor] at hsame
  exact (Option.some.inj hsame).symm

theorem Parameter.line_injective (depth : Nat) : Function.Injective (Parameter.line depth) := by
  rintro ⟨role, display⟩ ⟨role', display'⟩ h
  obtain ⟨-, h⟩ := Line.mk.inj h
  have hname (r : Role) : ∀ c ∈ r.name.toList, c ≠ ':' := fun c hc hcolon => r.name_plain.1 (hcolon ▸ hc)
  obtain ⟨hrole, hdisplay⟩ := append_inj_of_fronts (hname role) (hname role') (by simp) (by simp)
    (List.cons.inj (List.cons.inj h).2).2
  obtain rfl := Role.name_injective (String.toList_injective hrole)
  exact congrArg (Prod.mk role) (List.cons.inj (List.cons.inj hdisplay).2).2

theorem Kind.line_inj {kind kind' : Kind} {depth depth' : Nat} (h : kind.line depth = kind'.line depth') :
    kind.descriptor = kind'.descriptor ∧ kind.caption = kind'.caption := by
  have hname (kind : Kind) : ∀ c ∈ kind.descriptor.toList, c ≠ ' ' :=
    fun c hc hblank => kind.descriptor_plain.1 (hblank ▸ hc)
  have hcaption (kind : Kind) : ∀ c ∈ kind.caption.head?, ¬ c ≠ ' ' := by
    cases kind <;> simp [caption]
  obtain ⟨-, h⟩ := Line.mk.inj h
  obtain ⟨hdescriptor, hsame⟩ :=
    append_inj_of_fronts (hname kind) (hname kind') (hcaption kind) (hcaption kind') h
  exact ⟨String.toList_injective hdescriptor, hsame⟩

/-! ### Expressions -/

namespace Expr

theorem newline_notMem_name {name : String} (h : IsName name) : '\n' ∉ name.toList := by
  obtain ⟨c, cs, hcs, hstart, hparts⟩ := h.word
  rw [hcs, List.mem_cons, not_or]
  refine ⟨?_, fun hmem => absurd (hparts _ hmem) (by decide)⟩
  rintro rfl
  exact absurd hstart (by decide)

theorem newline_notMem_quote (s : String) : '\n' ∉ (quote s).toList := by
  have hchar (c : Char) : '\n' ∉ Text.Quoted.encodeChar c := by
    unfold Text.Quoted.encodeChar
    split
    · decide
    split
    · decide
    split
    · decide
    split
    · decide
    split
    · decide
    · next hfeed _ _ => exact fun h => hfeed (List.mem_singleton.1 h).symm
  simp [quote, Text.Quoted.encode, hchar]

theorem newline_notMem_toString (n : Nat) : '\n' ∉ (toString n).toList := by
  rw [Nat.toString_eq_ofList_toDigits, String.toList_ofList]
  exact fun h => absurd (Nat.isDigit_of_mem_toDigits (by decide) (by decide) h) (by decide)

/-- A canonical form stays on its line. -/
theorem newline_notMem_canonical {n : Nat} {e : Expr} (h : e.Written n) : '\n' ∉ e.canonical.toList := by
  induction h with
  | string loc value => exact newline_notMem_quote value
  | @integer _ loc value _ => exact newline_notMem_toString value
  | boolean loc value => cases value <;> simp [canonical]
  | null loc => simp [canonical]
  | var loc h => exact newline_notMem_name h
  | group loc h ih => simp [canonical, ih]
  | dot loc h hkey ih => simp [canonical, ih, newline_notMem_name hkey]
  | eval loc h ih => simp [canonical, ih]
  | not loc hn h ih => simp [canonical, ih]
  | @binary _ _ op _ _ hn hleft hright ihLeft ihRight =>
    have hop : '\n' ∉ op.symbol.toList := by cases op <;> decide
    simp [canonical, ihLeft, ihRight, hop]

/-- Canonical forms tell expressions apart. -/
theorem unplaced_eq_of_canonical {e e' : Expr} (h : e.Written 0) (h' : e'.Written 0)
    (hsame : e.canonical = e'.canonical) :
    e.unplaced = e'.unplaced := by
  obtain ⟨read, hread, hunplaced⟩ := exists_of_canonical h
  obtain ⟨read', hread', hunplaced'⟩ := exists_of_canonical h'
  rw [hsame, hread'] at hread
  cases hread
  exact hunplaced.symm.trans hunplaced'

end Expr

/-! ### Kinds told apart -/

/-- Where elements that map alike also map alike otherwise, so do lists of them. -/
theorem map_eq_of_map_eq {α β γ : Type} {f : α → β} {g : α → γ} {xs ys : List α}
    (h : ∀ x ∈ xs, ∀ y ∈ ys, f x = f y → g x = g y) (hsame : xs.map f = ys.map f) : xs.map g = ys.map g := by
  induction xs generalizing ys with
  | nil =>
    obtain rfl := List.map_eq_nil_iff.1 hsame.symm
    rfl
  | cons x xs ih =>
    cases ys with
    | nil => cases hsame
    | cons y ys =>
      obtain ⟨hhead, htail⟩ := List.cons.inj hsame
      rw [List.map_cons, List.map_cons, h x List.mem_cons_self y List.mem_cons_self hhead,
        ih (fun x hx y hy => h x (List.mem_cons_of_mem _ hx) y (List.mem_cons_of_mem _ hy)) htail]

namespace Kind

variable {kind kind' : Kind}

theorem Legible.written (h : kind.Legible) (hne : kind ≠ .sequence) : kind.Written := h.resolve_left hne

theorem shown_definition (name : String) (parameters : List String) : (definition name parameters).shown =
    (.macroName, (Text.escaped name).toList) :: parameters.map fun p =>
      (.parameterName, (Text.escaped p).toList) := by
  rw [shown, Kind.parameters, List.filterMap_cons, List.filterMap_map, ← List.filterMap_eq_map]
  rfl

theorem shown_call (name : String) (arguments : List Expr) : (call name arguments).shown =
    (.calleeName, (Text.escaped name).toList) :: arguments.map fun e => (.argument, e.canonical.toList) := by
  rw [shown, Kind.parameters, List.filterMap_cons, List.filterMap_map, ← List.filterMap_eq_map]
  rfl

/-- What the lines of an element show determines it, up to places and the mark of a trimmed text. -/
theorem bare_eq_of_shown (h : kind.Legible) (h' : kind'.Legible) (hname : kind.descriptor = kind'.descriptor)
    (hcaption : kind.caption = kind'.caption) (hshown : kind.shown = kind'.shown) :
    kind.bare = kind'.bare := by
  have hsort := sort_eq_of_descriptor hname
  have hescaped {r r' : Role} {s s' : String}
      (h : (r, (Text.escaped s).toList) = (r', (Text.escaped s').toList)) : s = s' :=
    Text.escaped_injective (String.toList_injective (Prod.mk.inj h).2)
  have hcanonical {r r' : Role} {e e' : Expr} (he : e.Written 0) (he' : e'.Written 0)
      (h : (r, e.canonical.toList) = (r', e'.canonical.toList)) : e.unplaced = e'.unplaced :=
    Expr.unplaced_eq_of_canonical he he' (String.toList_injective (Prod.mk.inj h).2)
  cases kind with
  | sequence => cases kind' with
    | sequence => rfl
    | _ => cases hsort
  | text s _ => cases kind' with
    | text s' _ =>
      rw [bare, bare, Text.escaped_injective (String.toList_injective (List.cons.inj hcaption).2)]
    | _ => cases hsort
  | interpolation e => cases kind' with
    | interpolation e' =>
      exact congrArg interpolation (hcanonical (h.written nofun) (h'.written nofun) (List.cons.inj hshown).1)
    | _ => cases hsort
  | ifBlock => cases kind' with
    | ifBlock => rfl
    | _ => cases hsort
  | conditional branch c => cases kind' with
    | conditional branch' c' =>
      obtain rfl := Branch.keyword_injective hname
      obtain ⟨hbranch, hc⟩ := h.written nofun
      obtain ⟨hbranch', hc'⟩ := h'.written nofun
      cases c with
      | none => cases c' with
        | none => rfl
        | some e' => cases hbranch'.1 (hbranch.2 rfl)
      | some e => cases c' with
        | none => cases hbranch.1 (hbranch'.2 rfl)
        | some e' => exact congrArg (conditional branch ∘ some) (hcanonical (hc e rfl) (hc' e' rfl)
          (List.cons.inj hshown).1)
    | _ => cases hsort
  | list source item => cases kind' with
    | list source' item' =>
      obtain ⟨hsource, hrest⟩ := List.cons.inj hshown
      obtain rfl := hescaped (List.cons.inj hrest).1
      exact congrArg (list · item) (hcanonical (h.written nofun).1 (h'.written nofun).1 hsource)
    | _ => cases hsort
  | assignment target value => cases kind' with
    | assignment target' value' =>
      obtain ⟨htarget, hrest⟩ := List.cons.inj hshown
      obtain rfl := hescaped htarget
      exact congrArg (assignment target)
        (hcanonical (h.written nofun).2 (h'.written nofun).2 (List.cons.inj hrest).1)
    | capture target' => cases (List.cons.inj hshown).2
    | _ => cases hsort
  | capture target => cases kind' with
    | assignment target' value' => cases (List.cons.inj hshown).2
    | capture target' => exact congrArg capture (hescaped (List.cons.inj hshown).1)
    | _ => cases hsort
  | definition name parameters => cases kind' with
    | definition name' parameters' =>
      rw [shown_definition, shown_definition] at hshown
      obtain ⟨hname, hparameters⟩ := List.cons.inj hshown
      obtain rfl := hescaped hname
      have hsame := map_eq_of_map_eq (g := id) (fun p _ q _ => hescaped) hparameters
      rw [List.map_id, List.map_id] at hsame
      rw [hsame]
    | _ => cases hsort
  | call name arguments => cases kind' with
    | call name' arguments' =>
      rw [shown_call, shown_call] at hshown
      obtain ⟨hname, harguments⟩ := List.cons.inj hshown
      obtain rfl := hescaped hname
      exact congrArg (call name) (map_eq_of_map_eq
        (fun e he e' he' => hcanonical ((h.written nofun).2 e he) ((h'.written nofun).2 e' he')) harguments)
    | _ => cases hsort
  | inclusion path => cases kind' with
    | inclusion path' => exact congrArg inclusion (hcanonical (h.written nofun) (h'.written nofun)
      (List.cons.inj hshown).1)
    | _ => cases hsort
  | comment s => cases kind' with
    | comment s' => exact congrArg comment (hescaped (List.cons.inj hshown).1)
    | _ => cases hsort

theorem mem_shown {shown : Role × List Char} (h : shown ∈ kind.shown) :
    ∃ p ∈ kind.parameters, p.value.display.toList = shown.2 := by
  obtain ⟨p, hp, hshown⟩ := List.mem_filterMap.1 h
  obtain ⟨role, value⟩ := p
  cases value with
  | absent => cases hshown
  | _ => exact ⟨_, hp, congrArg Prod.snd (Option.some.inj hshown)⟩

/-- Parameters stay on their lines. -/
theorem newline_notMem_display (h : kind.Legible) {p : Parameter} (hp : p ∈ kind.parameters) :
    '\n' ∉ p.value.display.toList := by
  obtain ⟨role, value⟩ := p
  cases value with
  | absent => simp [Parameter.Value.display]
  | expr e =>
    have hne : kind ≠ .sequence := by
      rintro rfl
      cases hp
    exact Expr.newline_notMem_canonical ((h.written hne).expressions e (mem_expressions hp))
  | string s => exact Text.newline_notMem_escaped s
  | number n => exact Expr.newline_notMem_toString n

theorem line_sound (kind : Kind) (depth : Nat) : (kind.line depth).Sound := by
  obtain ⟨c, cs, hcs, hblank, -⟩ := kind.descriptor_begins
  have hcaption : '\n' ∉ kind.caption := by
    cases kind <;> simp [caption, Text.newline_notMem_escaped]
  exact ⟨by simp [line, kind.descriptor_plain.2, hcaption], c, cs ++ kind.caption,
    congrArg (· ++ kind.caption) hcs, hblank⟩

end Kind

/-- Lines of parameters. -/
def Line.IsParameter (depth : Nat) (l : Line) : Prop := l.depth = depth ∧ l.content.head? = some '-'

theorem Parameter.line_sound {shown : Role × List Char} (h : '\n' ∉ shown.2) (depth : Nat) :
    (Parameter.line depth shown).Sound := by
  have hname := shown.1.name_plain.2
  exact ⟨by simp [line, h, hname], '-', _, rfl, by decide⟩

theorem Kind.not_isParameter (kind : Kind) (depth depth' : Nat) : ¬ (kind.line depth).IsParameter depth' := by
  rintro ⟨-, hhead⟩
  obtain ⟨c, cs, hcs, -, hdash⟩ := kind.descriptor_begins
  rw [line, hcs] at hhead
  exact hdash (Option.some.inj hhead)

namespace Tree

variable {ts us : List Tree} {depth : Nat}

theorem sound_entries (h : Each Kind.Legible ts) (depth : Nat) : ∀ l ∈ entries depth ts, l.Sound := by
  induction h generalizing depth with
  | nil =>
    rw [entries_nil]
    nofun
  | @cons t ts kind body tail ihBody ih =>
    rw [entries_cons, List.forall_mem_cons, List.forall_mem_append, List.forall_mem_append]
    refine ⟨t.kind.line_sound depth, ?_, ihBody (depth + 1), ih depth⟩
    rw [List.forall_mem_map]
    intro shown hshown
    obtain ⟨p, hp, hdisplay⟩ := Kind.mem_shown hshown
    exact Parameter.line_sound (hdisplay ▸ Kind.newline_notMem_display kind hp) (depth + 1)

/-- Whatever follows the parameters of an element is none of them, and it is no deeper than the body. -/
theorem head?_entries_append {rest : List Line} (hrest : ∀ l ∈ rest.head?, l.depth < depth) (ts : List Tree) :
    ∀ l ∈ (entries depth ts ++ rest).head?, l.depth < depth + 1 ∧ ¬ l.IsParameter depth := by
  cases ts with
  | nil =>
    rw [entries_nil, List.nil_append]
    intro l hl
    have hless := hrest l hl
    exact ⟨Nat.lt_succ_of_lt hless, fun hparameter => absurd hparameter.1 (Nat.ne_of_lt hless)⟩
  | cons t ts =>
    rw [entries_cons]
    rintro _ ⟨⟩
    exact ⟨Nat.lt_succ_self depth, t.kind.not_isParameter depth depth⟩

/-- The lines of some trees tell the trees, whatever less deep follows. -/
theorem bares_of_entries {inBlock : Bool} {rest rest' : List Line} (hts : Each Kind.Legible ts)
    (hus : Each Kind.Legible us) (hplaced : Placed inBlock ts) (hplaced' : Placed inBlock us)
    (hrest : ∀ l ∈ rest.head?, l.depth < depth) (hrest' : ∀ l ∈ rest'.head?, l.depth < depth)
    (h : entries depth ts ++ rest = entries depth us ++ rest') :
    bares ts = bares us ∧ rest = rest' := by
  induction hts generalizing us depth inBlock rest rest' with
  | nil =>
    cases us with
    | nil =>
      rw [entries_nil] at h
      exact ⟨rfl, h⟩
    | cons u us =>
      rw [entries_nil, List.nil_append, entries_cons] at h
      rw [h] at hrest
      exact absurd (hrest _ rfl) (Nat.lt_irrefl depth)
  | @cons t ts kind body tail ihBody ih =>
    cases hus with
    | nil =>
      rw [entries_nil, List.nil_append, entries_cons] at h
      rw [← h] at hrest'
      exact absurd (hrest' _ rfl) (Nat.lt_irrefl depth)
    | @cons u us kind' body' tail' =>
      obtain ⟨hin, hbody, htail⟩ := placed_cons.1 hplaced
      obtain ⟨hin', hbody', htail'⟩ := placed_cons.1 hplaced'
      rw [entries_cons, entries_cons, List.cons_append, List.cons_append, List.append_assoc,
        List.append_assoc, List.append_assoc, List.append_assoc] at h
      obtain ⟨hline, hafter⟩ := List.cons.inj h
      obtain ⟨hname, hcaption⟩ := Kind.line_inj hline
      -- What follows the bodies is less deep than they are, and no parameter.
      have hless := fun l hl => (head?_entries_append hrest ts l hl).1
      have hless' := fun l hl => (head?_entries_append hrest' us l hl).1
      have hparameter (kind : Kind) : ∀ l ∈ kind.shown.map (Parameter.line (depth + 1)),
          l.IsParameter (depth + 1) := by
        rw [List.forall_mem_map]
        exact fun _ _ => ⟨rfl, rfl⟩
      obtain ⟨hshown, hbodies⟩ := append_inj_of_fronts (hparameter t.kind) (hparameter u.kind)
        (fun l hl => (head?_entries_append hless t.children l hl).2)
          (fun l hl => (head?_entries_append hless' u.children l hl).2) hafter
      have hkind := Kind.bare_eq_of_shown kind kind' hname hcaption
        (List.map_injective_iff.2 (Parameter.line_injective (depth + 1)) hshown)
      have hblock : t.kind.isIfBlock = u.kind.isIfBlock := by
        rw [← t.kind.isIfBlock_bare, hkind, Kind.isIfBlock_bare]
      obtain ⟨hchildren, hothers⟩ := ihBody body' hbody (hblock ▸ hbody') hless hless' hbodies
      obtain ⟨hts, hsame⟩ := ih tail' htail htail' hrest hrest' hothers
      exact ⟨by rw [bares_cons, bares_cons, bare_eq, bare_eq, hkind, hin, hin', hchildren, hts], hsame⟩

/-! ### Dumps of templates -/

theorem entries_bares (depth : Nat) (ts : List Tree) : entries depth (bares ts) = entries depth ts := by
  have hline (kind : Kind) (depth : Nat) : kind.bare.line depth = kind.line depth := by
    cases kind <;> rfl
  have hshown (kind : Kind) : kind.bare.shown = kind.shown := by
    cases kind with
    | conditional branch c => cases c <;>
        simp [Kind.bare, Kind.unplaced, Kind.shown, Kind.parameters, Parameter.shown?,
        Parameter.Value.display, Expr.canonical_unplaced]
    | call name arguments => simp [Kind.bare, Kind.unplaced, Kind.shown_call, Expr.canonical_unplaced]
    | _ => simp [Kind.bare, Kind.unplaced, Kind.shown, Kind.parameters, Parameter.shown?,
      Parameter.Value.display, Expr.canonical_unplaced]
  induction ts using forest_induction generalizing depth with
  | nil => rw [bares_nil]
  | cons t ts ihBody ih =>
    rw [bares_cons, entries_cons, entries_cons, bare_eq]
    simp only [hline, hshown, ihBody, ih]

theorem Written.legible {inBlock : Bool} (h : Written inBlock ts) : Each Kind.Legible ts :=
  h.each.mono fun _ => .inr

theorem legible_of_topmost {t : Tree} (h : Written false t.topmost) : Each Kind.Legible [t] := by
  by_cases hkind : t.kind = .sequence
  · rw [topmost_sequence hkind] at h
    exact .cons (.inl hkind) h.legible .nil
  · rw [topmost_of_ne hkind] at h
    exact h.legible

theorem toList_dump (t : Tree) : t.dump.toList = (entries 0 [t]).flatMap Line.print := by
  rw [← toList_dumpsAt, dumpsAt, dumpsAt, String.append_empty, dump]

end Tree

/-- The dump of a template tells its tree, up to places and the marks of trimmed texts: no other template
that can be read has the same dump. Dumping asks for no parameter that is not there. -/
theorem Template.dump_injective {name name' : Option String} {text text' : String} {strip strip' : Bool}
    {t t' : Template} (h : parse name text strip = .ok t) (h' : parse name' text' strip' = .ok t') :
    (t.dump = t'.dump ↔ t.tree.bare = t'.tree.bare) ∧ t.tree.dumpIndexedAt 0 = .ok t.dump := by
  have hread {name : Option String} {text : String} {strip : Bool} {t : Template}
      (h : parse name text strip = .ok t) :
      Tree.Each Kind.Legible [t.tree] ∧ Tree.Placed false [t.tree] := by
    obtain ⟨raw, parts, us, hraw, hfinished⟩ := exists_finished_of_parse h
    exact ⟨Tree.legible_of_topmost (hfinished.written (Tree.written_of_parse hraw)).1, hfinished.placed⟩
  obtain ⟨hlegible, hplaced⟩ := hread h
  obtain ⟨hlegible', hplaced'⟩ := hread h'
  refine ⟨⟨fun hsame => ?_, fun hsame => ?_⟩, Tree.dumpIndexedAt_eq 0 t.tree⟩
  · have hlines := congrArg String.toList hsame
    rw [dump, dump, Tree.toList_dump, Tree.toList_dump] at hlines
    have hentries : Tree.entries 0 [t.tree] ++ [] = Tree.entries 0 [t'.tree] ++ [] :=
      congrArg (· ++ []) (Line.flatMap_print_inj (Tree.sound_entries hlegible 0)
        (Tree.sound_entries hlegible' 0) hlines)
    have hnone : ∀ l ∈ ([] : List Line).head?, l.depth < 0 := nofun
    have hbares := (Tree.bares_of_entries hlegible hlegible' hplaced hplaced' hnone hnone hentries).1
    rw [Tree.bares_cons, Tree.bares_cons] at hbares
    exact (List.cons.inj hbares).1
  · have hbares : Tree.bares [t.tree] = Tree.bares [t'.tree] := by
      rw [Tree.bares_cons, Tree.bares_cons, hsame]
    refine String.toList_injective ?_
    rw [dump, dump, Tree.toList_dump, Tree.toList_dump, ← Tree.entries_bares, hbares, Tree.entries_bares]

/-- Both kinds of assignment, once on lines of their own and once not. -/
theorem Template.dump_injective_assignments : ∃ t t',
    parse none "\x7b[#assign a = 1]\x7d\n\x7b[#assign a]\x7d\"\x7b[/assign]\x7d" true = .ok t ∧
    parse (some "page") "\x7b[#assign a=1]\x7d\x7b[#assign a]\x7d\"\x7b[/assign]\x7d" false = .ok t' ∧
    t.dump = t'.dump ∧ t.tree.bare = t'.tree.bare ∧ t.tree.dumpIndexedAt 0 = .ok t.dump := by
  let dumped := "#mixed_content\n  #assign\n    - assignment target: \"a\"\n    - assignment source: 1\n" ++
    "  #assign\n    - assignment target: \"a\"\n    #text \"\\\"\"\n"
  obtain ⟨t, ht, hdump⟩ := exists_of_parses
    none "\x7b[#assign a = 1]\x7d\n\x7b[#assign a]\x7d\"\x7b[/assign]\x7d" true
    (·.dump == dumped) (by decide +kernel)
  obtain ⟨t', ht', hdump'⟩ := exists_of_parses
    (some "page") "\x7b[#assign a=1]\x7d\x7b[#assign a]\x7d\"\x7b[/assign]\x7d" false
    (·.dump == dumped) (by decide +kernel)
  have hsame : t.dump = t'.dump := (beq_iff_eq.1 hdump).trans (beq_iff_eq.1 hdump').symm
  obtain ⟨hbare, hindexed⟩ := dump_injective ht ht'
  exact ⟨t, t', ht, ht', hsame, hbare.1 hsame, hindexed⟩

end Stencil
