import Stencil.Loader
import Stencil.Proofs.Inclusion.Paths

/-! # Staying below the root

Of all files a loader reads at most one, and that one stands below its root: whatever name it is asked for
and wherever links lead, what it makes of the name depends on the content of no other file. -/

namespace Stencil.Loader

variable {l : Loader} {name : String} {files : FileSystem} {p q : Path}

/-- A loader whose files hold something else. -/
def onFiles (l : Loader) (files : FileSystem) : Loader := { l with files }

/-- What a loader makes of a name when the file it reads for it holds some bytes. -/
def ofBytes (l : Loader) (name : String) (bytes : ByteArray) : Except TemplateError Template :=
  match String.fromUTF8? bytes with
  | none => .error (.io .notText)
  | some text =>
    match Template.parse (some name) text l.strip with
    | .error e => fail (.unreadable name e)
    | .ok t => .ok t

/-- A name for which no file is read: it is refused in the same way whatever the files hold. -/
def ReadsNothing (l : Loader) (name : String) : Prop :=
  ∃ e, ∀ files, l.files.SameLayout files → (l.onFiles files).load name = .error e

/-- A name for which the file at a path is read and no other: what the name comes to is what its content
comes to, whatever it is and whatever the other files hold. -/
def ReadsOnly (l : Loader) (name : String) (p : Path) : Prop :=
  ∀ files, l.files.SameLayout files →
    ∃ bytes, files.entry? p = some (.file bytes) ∧ (l.onFiles files).load name = l.ofBytes name bytes

@[simp] theorem files_onFiles (l : Loader) (files : FileSystem) : (l.onFiles files).files = files := rfl

@[simp] theorem fileFor_onFiles (l : Loader) (files : FileSystem) (name : String) :
    (l.onFiles files).fileFor name = l.fileFor name := rfl

theorem contains_onFiles (h : l.files.SameLayout files) (p : Path) :
    (l.onFiles files).contains p = l.contains p := by
  rw [contains, contains, onFiles, h.resolve_eq]

/-- A file stands at the same paths, whatever it holds. -/
theorem exists_file_onFiles (h : l.files.SameLayout files) {bytes : ByteArray}
    (hfile : l.files.entry? p = some (.file bytes)) :
    ∃ bytes', files.entry? p = some (.file bytes') := by
  have hentry := h p
  rw [hfile] at hentry
  generalize files.entry? p = entry at hentry
  cases hentry with
  | some hentry =>
    cases hentry with
    | file _ bytes' => exact ⟨bytes', rfl⟩

/-- A path that leads to no file leads to none, whatever the files hold. -/
theorem content?_onFiles_eq_none (h : l.files.SameLayout files) (hnone : l.files.content? p = none) :
    files.content? p = none := by
  unfold FileSystem.content? at hnone ⊢
  rw [h.canonical_eq]
  cases hcanonical : l.files.canonical p with
  | error f => rfl
  | ok q =>
    have hentry := h q
    simp only [hcanonical] at hnone ⊢
    generalize l.files.entry? q = entry at hentry hnone
    generalize files.entry? q = entry' at hentry
    cases hentry with
    | none => rfl
    | some hentry =>
      cases hentry with
      | file _ _ => cases hnone
      | folder | link _ _ => rfl

theorem exists_of_content? {bytes : ByteArray} (h : l.files.content? p = some bytes) :
    ∃ q, l.files.canonical p = .ok q ∧ l.files.entry? q = some (.file bytes) := by
  unfold FileSystem.content? at h
  split at h
  · cases h
  · next q hq =>
    split at h
    · next content hentry =>
      obtain rfl := Option.some.inj h
      exact ⟨q, hq, hentry⟩
    · cases h

/-- Loading once the name, the running inclusions and the extension raise no objection. -/
theorem load_of_checked (hname : checkName name = .ok ()) (hrunning : name ∉ l.running)
    (hslash : '/' ∉ l.extension.toList) : l.load name =
      if !l.contains (l.fileFor name) then fail (.escapesRoot (l.fileFor name))
      else match l.files.content? (l.fileFor name) with
        | none => fail (.notFound name (l.fileFor name))
        | some bytes => l.ofBytes name bytes := by
  simp only [load, hname, bind, Except.bind, hrunning, hslash, if_false]
  rfl

/-- Of all files a loader reads at most one: the one that stands where the path of the name leads, if that
is at the root or below it. -/
theorem readsNothing_or_readsOnly (l : Loader) (name : String) : l.ReadsNothing name ∨
    ∃ p, l.files.canonical (l.fileFor name) = .ok p ∧ l.root <+: p ∧ l.ReadsOnly name p := by
  cases hname : checkName name with
  | error e => exact .inl ⟨e, fun files _ => by rw [load, hname]; rfl⟩
  | ok _ =>
    by_cases hrunning : name ∈ l.running
    · refine .inl ⟨.inclusion (.circular (l.chainTo name)) none, fun files _ => ?_⟩
      have hrunning' : name ∈ (l.onFiles files).running := hrunning
      simp only [load, hname, bind, Except.bind, hrunning', if_true]
      rfl
    by_cases hslash : '/' ∈ l.extension.toList
    · refine .inl ⟨.extension l.extension, fun files _ => ?_⟩
      have hrunning' : name ∉ (l.onFiles files).running := hrunning
      have hslash' : '/' ∈ (l.onFiles files).extension.toList := hslash
      simp only [load, hname, bind, Except.bind, hrunning', hslash', if_true, if_false]
      rfl
    have hload := fun files => load_of_checked (l := l.onFiles files) hname hrunning hslash
    cases hcontains : l.contains (l.fileFor name) with
    | false =>
      refine .inl ⟨.inclusion (.escapesRoot (l.fileFor name)) none, fun files hsame => ?_⟩
      rw [hload, contains_onFiles hsame, fileFor_onFiles, hcontains]
      rfl
    | true =>
      cases hcontent : l.files.content? (l.fileFor name) with
      | none =>
        refine .inl ⟨.inclusion (.notFound name (l.fileFor name)) none, fun files hsame => ?_⟩
        rw [hload, contains_onFiles hsame, fileFor_onFiles, hcontains, files_onFiles,
          content?_onFiles_eq_none hsame hcontent]
        rfl
      | some bytes =>
        obtain ⟨p, hcanonical, hfile⟩ := exists_of_content? hcontent
        refine .inr ⟨p, hcanonical, ?_, fun files hsame => ?_⟩
        · rw [contains, FileSystem.resolve_of_canonical hcanonical] at hcontains
          exact List.isPrefixOf_iff_prefix.1 hcontains
        · obtain ⟨bytes', hfile'⟩ := exists_file_onFiles hsame hfile
          have hcontent' : files.content? (l.fileFor name) = some bytes' := by
            simp only [FileSystem.content?, hsame.canonical_eq, hcanonical, hfile']
          refine ⟨bytes', hfile', ?_⟩
          rw [hload, contains_onFiles hsame, fileFor_onFiles, hcontains, files_onFiles, hcontent']
          rfl

theorem open?_eq {root : List String} {extension : String} {strip : Bool}
    (h : open? files root extension strip = .ok l) :
    ∃ top, files.canonical root = .ok top ∧ l = { files, root := top, extension, strip } := by
  unfold open? at h
  split at h
  · next top htop => exact ⟨top, htop, (Except.ok.inj h).symm⟩
  · cases h

/-- A loader that was opened over a folder reads no file but, for each name, at most one, whose path without
links is at or below that of the folder. This holds for any name, extension and running inclusions, and
wherever links lead. -/
theorem load_reads_below_root {root : List String} {extension : String} {strip : Bool}
    (h : open? files root extension strip = .ok l) (running : List String) (name : String) :
    files.canonical root = .ok l.root ∧ files.LinkFree l.root ∧
      (({ l with running } : Loader).ReadsNothing name ∨
        ∃ p, files.canonical (l.fileFor name) = .ok p ∧ files.LinkFree p ∧ l.root <+: p ∧
          ({ l with running } : Loader).ReadsOnly name p) := by
  obtain ⟨top, htop, rfl⟩ := open?_eq h
  refine ⟨htop, FileSystem.linkFree_canonical htop, ?_⟩
  refine (readsNothing_or_readsOnly _ name).imp id ?_
  rintro ⟨p, hp, hbelow, hreads⟩
  exact ⟨p, hp, FileSystem.linkFree_canonical hp, hbelow, hreads⟩

/-- A folder `r` beside a folder `s`, with a link to it. -/
def outward : FileSystem :=
  ⟨[(["r"], .folder), (["r", "up"], .link false ["..", "s"]), (["s"], .folder),
    (["s", "x.t"], .file "x".toUTF8)]⟩

/-- A root that is reached through the link and back, and a name that leads out of it. -/
theorem load_reads_below_root_outward : ∃ l, open? outward ["r", "up", "..", "r"] "t" true = .ok l ∧
    outward.canonical ["r", "up", "..", "r"] = .ok l.root ∧ outward.LinkFree l.root ∧
      (({ l with running := ["/a"] } : Loader).ReadsNothing "/up/x" ∨
        ∃ p, outward.canonical (l.fileFor "/up/x") = .ok p ∧ outward.LinkFree p ∧ l.root <+: p ∧
          ({ l with running := ["/a"] } : Loader).ReadsOnly "/up/x" p) :=
  ⟨{ files := outward, root := ["r"], extension := "t", strip := true }, rfl,
    load_reads_below_root rfl ["/a"] "/up/x"⟩

example : ({ files := outward, root := ["r"], extension := "t", strip := true } : Loader).load "/up/x" =
    .error (.inclusion (.escapesRoot ["r", "up", "x.t"]) none) := rfl

end Stencil.Loader
