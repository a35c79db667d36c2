/-!
# Bindings

Names and what they are bound to, each name once, in the order in which they were first bound.
-/

namespace Stencil

/-- What some names are bound to. -/
structure Bindings (α : Type) where
  entries : List (String × α) := []
deriving Repr, DecidableEq

namespace Bindings

variable {α : Type}

instance : Inhabited (Bindings α) := ⟨{}⟩

/-- Binds a name in a list of bindings. -/
def insertEntry (name : String) (value : α) : List (String × α) → List (String × α)
  | [] => [(name, value)]
  | (n, v) :: rest => if n = name then (name, value) :: rest else (n, v) :: insertEntry name value rest

/-- Binds a name; an earlier binding of it is replaced. -/
def insert (b : Bindings α) (name : String) (value : α) : Bindings α :=
  ⟨insertEntry name value b.entries⟩

def get? (b : Bindings α) (name : String) : Option α := b.entries.lookup name

/-- Binds names one after the other; of two bindings of a name the later one counts. -/
def ofList (entries : List (String × α)) : Bindings α :=
  entries.foldl (fun b e => b.insert e.1 e.2) {}

@[simp] theorem get?_empty (name : String) : ({} : Bindings α).get? name = none := rfl

theorem lookup_insertEntry (name other : String) (value : α) (entries : List (String × α)) :
    (insertEntry name value entries).lookup other =
      if other = name then some value else entries.lookup other := by
  induction entries with
  | nil =>
    by_cases h : other = name
    · simp [insertEntry, h]
    · simp [insertEntry, List.lookup_cons, beq_false_of_ne h, h]
  | cons e rest ih =>
    obtain ⟨n, v⟩ := e
    by_cases hn : n = name
    · subst hn
      by_cases h : other = n
      · simp [insertEntry, h]
      · simp [insertEntry, List.lookup_cons, beq_false_of_ne h, h]
    · simp only [insertEntry, hn, if_false, List.lookup_cons, ih]
      by_cases h : other = name
      · subst h
        simp [beq_false_of_ne fun e => hn e.symm]
      · simp [h]

/-- A name has the value it was last bound to, and no other name is affected. -/
@[simp] theorem get?_insert (b : Bindings α) (name other : String) (value : α) :
    (b.insert name value).get? other = if other = name then some value else b.get? other :=
  lookup_insertEntry name other value b.entries

end Bindings

end Stencil
