import Stencil.Execution
import Stencil.Settings

/-!
# Rendering

Templates as a whole: from their text and some data to the output.
-/

namespace Stencil

/-- The names on the way to a folder. -/
def folderNames (folder : String) : List String :=
  (Loader.segments folder.toList).map String.ofList

/-- An environment over some data. Inclusions start from the folder of the settings, if there is
one. -/
def Environment.make (files : FileSystem) (settings : Settings) (data : Json) (sink : Sink) :
    Except TemplateError Environment := do
  let value ← (Value.ofJson data).mapError .data
  let loader ← match settings.includeRoot with
    | some root => do
      pure (some (← Loader.open? files (folderNames root) settings.templateExtension
        settings.stripWhitespace))
    | none => pure none
  let context ← (Context.ofValue value).mapError .data
  return { sink, context, loader }

/-- The data of a new environment is a hash, and nothing is running in it. -/
theorem Environment.exists_of_make {files : FileSystem} {settings : Settings} {data : Json} {sink : Sink}
    {env : Environment} (h : Environment.make files settings data sink = .ok env) :
    ∃ entries loader, Value.ofJson data = .ok (.hash entries) ∧
    env = { sink, context := { root := ⟨entries⟩ }, loader } := by
  have hcontext : ∀ (value : Value) (loader : Option Loader), (do
      let context ← (Context.ofValue value).mapError TemplateError.data
      return { sink, context, loader }) = Except.ok env →
      ∃ entries, value = .hash entries ∧ env = { sink, context := { root := ⟨entries⟩ }, loader } := by
    intro value loader h
    cases value with
    | hash entries =>
      cases h
      exact ⟨entries, rfl, rfl⟩
    | _ => cases h
  simp only [make, bind, Except.bind] at h
  cases hvalue : Value.ofJson data with
  | error e =>
    rw [hvalue] at h
    cases h
  | ok value =>
    have hread : (Value.ofJson data).mapError TemplateError.data = .ok value := by
      rw [hvalue]
      rfl
    simp only [hread] at h
    have hloaded : ∃ loader entries, value = .hash entries ∧
        env = { sink, context := { root := ⟨entries⟩ }, loader } := by
      split at h
      · split at h
        · cases h
        · exact ⟨_, hcontext value _ h⟩
      · exact ⟨_, hcontext value _ h⟩
    obtain ⟨loader, entries, rfl, rfl⟩ := hloaded
    exact ⟨entries, loader, rfl, rfl⟩

/-- Runs a template over some data. Output that was written before an error stays written. -/
def Template.renderTo (t : Template) (files : FileSystem) (settings : Settings) (data : Json)
    (sink : Sink) : Except TemplateError Unit × Sink :=
  match Environment.make files settings data sink with
  | .error e => (.error e, sink)
  | .ok env =>
    match Environment.process t.tree env with
    | .ok _ env => (.ok (), env.sink)
    | .error e env => (.error e, env.sink)

/-- The output of a template for some data. -/
def Template.render (t : Template) (files : FileSystem) (settings : Settings) (data : Json) :
    Except TemplateError String :=
  match t.renderTo files settings data {} with
  | (.ok _, sink) => .ok sink.text
  | (.error e, _) => .error e

/-- Reads a template and runs it over some data. -/
def render (files : FileSystem) (settings : Settings) (name : Option String) (text : String)
    (data : Json) : Except TemplateError String := do
  let t ← (Template.parse name text settings.stripWhitespace).mapError .parse
  t.render files settings data

end Stencil
