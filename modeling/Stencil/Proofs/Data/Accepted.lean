import Stencil.Proofs.Data.Exact
import Stencil.Proofs.Data.Places

/-! # Accepted data

Data has a value just when each of its numbers is a whole number of the safe range, and the value has the
structure of the data. Otherwise the error names the first number that is not. -/

namespace Stencil

namespace Json.Number

/-- The rational number that a number of the data is. -/
def value : Number → ℚ
  | integer n => n
  | double d => d.value

/-- A whole number of the safe range. -/
def Accepted (n : Number) : Prop := ∃ k : Int, n.value = k ∧ Value.InRange k

/-- What can be said of a number that is not accepted: an integer that does not fit 64 bits with a sign is
named by the double nearest to it. -/
inductive Reports : Number → ValueError → Prop
  | integer (n : Int) : Reports (.integer n) (.integerOutOfRange n)
  | double (d : Double) : Reports (.double d) (.floatNotSupported d)
  | rounded {n : Int} {d : Double} : Value.signedBound ≤ n → Double.ofDecimal? false n.toNat 0 = some d →
    Reports (.integer n) (.floatNotSupported d)

end Json.Number

namespace Value

open Json (Number)

theorem ofInt_eq_ok_iff {n : Int} {v : Value} : ofInt n = .ok v ↔ InRange n ∧ v = .integer n := by
  unfold ofInt
  split
  · next h => exact ⟨fun hv => ⟨h, (Except.ok.inj hv).symm⟩, fun hv => congrArg Except.ok hv.2.symm⟩
  · next h => exact ⟨nofun, fun hv => absurd hv.1 h⟩

theorem ofDouble_eq_ok_iff {d : Double} {v : Value} :
    ofDouble d = .ok v ↔ ∃ k : Int, d.value = k ∧ InRange k ∧ v = .integer k := by
  simp only [← Double.toInt?_eq_some_iff]
  unfold ofDouble
  split
  · next n hn =>
    split
    · next h =>
      constructor
      · rintro ⟨⟩
        exact ⟨n, hn, h, rfl⟩
      · rintro ⟨k, hk, -, rfl⟩
        rw [Option.some.inj (hn.symm.trans hk)]
    · next h => exact ⟨nofun, fun ⟨k, hk, hrange, _⟩ =>
        absurd (Option.some.inj (hk.symm.trans hn) ▸ hrange) h⟩
  · next hnone => exact ⟨nofun, fun ⟨k, hk, _, _⟩ => by cases hnone.symm.trans hk⟩

/-- Whole numbers that do not fit 64 bits with a sign are out of range as doubles, too. -/
theorem not_inRange_of_bound_le {n : Int} (hn : signedBound ≤ n) {d : Double}
    (hd : Double.ofDecimal? false n.toNat 0 = some d) {k : Int} (hk : d.value = k) : ¬ InRange k := by
  have hlarge : (2 : ℚ) ^ 63 ≤ d.value :=
    Double.le_value_of_ofDecimal? (by unfold signedBound at hn; omega) hd
  have hk : (2 : Int) ^ 63 ≤ k := by
    rw [hk] at hlarge
    exact_mod_cast hlarge
  rintro ⟨-, hmax⟩
  unfold integerMax at hmax
  omega

theorem ofNumber_eq_ok_iff {n : Number} {v : Value} :
    ofNumber n = .ok v ↔ ∃ k : Int, n.value = k ∧ InRange k ∧ v = .integer k := by
  cases n with
  | double d => exact ofDouble_eq_ok_iff
  | integer n =>
    have hsame : (∃ k : Int, (Number.integer n).value = k ∧ InRange k ∧ v = .integer k) ↔ InRange n ∧
        v = .integer n := by
      constructor
      · rintro ⟨k, hk, h⟩
        exact (Int.cast_inj.1 hk : n = k) ▸ h
      · exact fun h => ⟨n, rfl, h⟩
    rw [hsame]
    simp only [ofNumber]
    split
    · exact ofInt_eq_ok_iff
    · next hlarge =>
      have hout : ¬ InRange n := by
        rintro ⟨-, hmax⟩
        unfold integerMax at hmax
        unfold signedBound at hlarge
        omega
      refine ⟨fun h => ?_, fun h => absurd h.1 hout⟩
      split at h
      · next d hd =>
        obtain ⟨k, hk, hrange, -⟩ := ofDouble_eq_ok_iff.1 h
        exact absurd hrange (not_inRange_of_bound_le (Int.not_lt.1 hlarge) hd hk)
      · cases h

theorem ofDouble_error {d : Double} {e : ValueError} (h : ofDouble d = .error e) :
    e = .floatNotSupported d := by
  unfold ofDouble at h
  split at h
  · split at h
    · cases h
    · exact (Except.error.inj h).symm
  · exact (Except.error.inj h).symm

theorem reports_of_ofNumber {n : Number} {e : ValueError} (h : ofNumber n = .error e) : n.Reports e := by
  cases n with
  | double d => exact ofDouble_error h ▸ .double d
  | integer n =>
    simp only [ofNumber] at h
    split at h
    · unfold ofInt at h
      split at h
      · cases h
      · exact Except.error.inj h ▸ .integer n
    · next hlarge =>
      split at h
      · next d hd => exact ofDouble_error h ▸ .rounded (Int.not_lt.1 hlarge) hd
      · exact Except.error.inj h ▸ .integer n

/-! ### Values of data -/

theorem ofItems_eq_mapM (items : List Json) : ofItems items = items.mapM ofJson := by
  induction items with
  | nil => rw [ofItems, List.mapM_nil]; rfl
  | cons j js ih => rw [ofItems, List.mapM_cons, ih]

theorem ofMembers_eq_mapM (members : List (String × Json)) :
    ofMembers members = members.mapM fun m => do return (m.1, ← ofJson m.2) := by
  induction members with
  | nil => rw [ofMembers, List.mapM_nil]; rfl
  | cons m ms ih => rw [ofMembers, List.mapM_cons, ih, bind_assoc]; rfl

end Value

/-- A value with the structure of some data: its numbers are whole numbers of the safe range, its sequences
and hashes have a value for each item and each key. -/
inductive Json.Stands : Json → Value → Prop
  | null : Stands .null .null
  | bool (b : Bool) : Stands (.bool b) (.boolean b)
  | string (s : String) : Stands (.string s) (.string s)
  | number {n : Json.Number} {k : Int} : n.value = k → Value.InRange k → Stands (.number n) (.integer k)
  | array {items : List Json} {values : List Value} : List.Forall₂ Stands items values →
    Stands (.array items) (.sequence values)
  | object {members : List (String × Json)} {entries : List (String × Value)} :
    members.map (·.1) = entries.map (·.1) → List.Forall₂ Stands (members.map (·.2)) (entries.map (·.2)) →
    Stands (.object members) (.hash entries)

namespace Value

theorem ofItems_eq_ok_iff {items : List Json} {values : List Value} :
    ofItems items = .ok values ↔ List.Forall₂ (fun j v => ofJson j = .ok v) items values := by
  rw [ofItems_eq_mapM, mapM_eq_ok_iff]

theorem ofMembers_eq_ok_iff {members : List (String × Json)} {entries : List (String × Value)} :
    ofMembers members = .ok entries ↔ members.map (·.1) = entries.map (·.1) ∧
      List.Forall₂ (fun j v => ofJson j = .ok v) (members.map (·.2)) (entries.map (·.2)) := by
  induction members generalizing entries with
  | nil =>
    rw [ofMembers]
    constructor
    · rintro ⟨⟩
      exact ⟨rfl, .nil⟩
    · rintro ⟨hkeys, -⟩
      rw [List.map_eq_nil_iff.1 hkeys.symm]
  | cons m ms ih =>
    rw [ofMembers]
    constructor
    · intro h
      obtain ⟨v, hv, h⟩ := exists_of_bind_eq_ok h
      obtain ⟨rest, hrest, h⟩ := exists_of_bind_eq_ok h
      cases h
      obtain ⟨hkeys, hvalues⟩ := ih.1 hrest
      exact ⟨congrArg (m.1 :: ·) hkeys, .cons hv hvalues⟩
    · rintro ⟨hkeys, hvalues⟩
      cases entries with
      | nil => cases hkeys
      | cons e es =>
        obtain ⟨hkey, hkeys⟩ := List.cons.inj hkeys
        obtain ⟨hv, hvalues⟩ := List.forall₂_cons.1 hvalues
        rw [hv, ih.2 ⟨hkeys, hvalues⟩]
        exact congrArg (fun key => Except.ok ((key, e.2) :: es)) hkey

theorem ofJson_array_eq_ok_iff {items : List Json} {v : Value} :
    ofJson (.array items) = .ok v ↔ ∃ values, ofItems items = .ok values ∧ v = .sequence values := by
  rw [ofJson]
  constructor
  · intro h
    obtain ⟨values, hvalues, h⟩ := exists_of_bind_eq_ok h
    exact ⟨values, hvalues, (Except.ok.inj h).symm⟩
  · rintro ⟨values, hvalues, rfl⟩
    rw [hvalues]
    rfl

theorem ofJson_object_eq_ok_iff {members : List (String × Json)} {v : Value} :
    ofJson (.object members) = .ok v ↔ ∃ entries, ofMembers members = .ok entries ∧ v = .hash entries := by
  rw [ofJson]
  constructor
  · intro h
    obtain ⟨entries, hentries, h⟩ := exists_of_bind_eq_ok h
    exact ⟨entries, hentries, (Except.ok.inj h).symm⟩
  · rintro ⟨entries, hentries, rfl⟩
    rw [hentries]
    rfl

end Value

namespace Json

open Value

/-- The value of data, if it has one, is the one with its structure. -/
theorem ofJson_eq_ok_iff (j : Json) (v : Value) : ofJson j = .ok v ↔ j.Stands v := by
  induction j using parts_induction generalizing v with
  | null =>
    constructor
    · rintro ⟨⟩
      exact .null
    · rintro ⟨⟩
      rfl
  | bool b =>
    constructor
    · rintro ⟨⟩
      exact .bool b
    · rintro ⟨⟩
      rfl
  | string s =>
    constructor
    · rintro ⟨⟩
      exact .string s
    · rintro ⟨⟩
      rfl
  | number n =>
    rw [ofJson, ofNumber_eq_ok_iff]
    constructor
    · rintro ⟨k, hvalue, hrange, rfl⟩
      exact .number hvalue hrange
    · intro h
      cases h with
      | number hvalue hrange => exact ⟨_, hvalue, hrange, rfl⟩
  | array items ih =>
    have hitems : ∀ values, ofItems items = .ok values ↔ List.Forall₂ Stands items values := fun values =>
      ofItems_eq_ok_iff.trans (forall₂_iff_of_mem ih)
    rw [ofJson_array_eq_ok_iff]
    constructor
    · rintro ⟨values, hvalues, rfl⟩
      exact .array ((hitems values).1 hvalues)
    · intro h
      cases h with
      | array h => exact ⟨_, (hitems _).2 h, rfl⟩
  | object members ih =>
    have hmembers : ∀ entries, ofMembers members = .ok entries ↔ members.map (·.1) = entries.map (·.1) ∧
        List.Forall₂ Stands (members.map (·.2)) (entries.map (·.2)) := fun entries =>
      ofMembers_eq_ok_iff.trans (and_congr_right' (forall₂_iff_of_mem (List.forall_mem_map.2 ih)))
    rw [ofJson_object_eq_ok_iff]
    constructor
    · rintro ⟨entries, hentries, rfl⟩
      obtain ⟨hkeys, hvalues⟩ := (hmembers entries).1 hentries
      exact .object hkeys hvalues
    · intro h
      cases h with
      | object hkeys hvalues => exact ⟨_, (hmembers _).2 ⟨hkeys, hvalues⟩, rfl⟩

/-- All numbers of data with a value are whole numbers of the safe range. -/
theorem At.accepted {j : Json} {path : List Step} {n : Number} (hat : j.At path (.number n)) {v : Value}
    (h : j.Stands v) : n.Accepted := by
  generalize hleaf : Json.number n = leaf at hat
  induction hat generalizing v with
  | here j =>
    subst hleaf
    cases h with
    | number hvalue hrange => exact ⟨_, hvalue, hrange⟩
  | item hi hat ih =>
    cases h with
    | array h =>
      obtain ⟨v, -, hv⟩ := exists_of_forall₂_left h (List.mem_of_getElem? hi)
      exact ih hv hleaf
  | member hm hat ih =>
    cases h with
    | object hkeys h =>
      obtain ⟨v, -, hv⟩ := exists_of_forall₂_left h (List.mem_map_of_mem hm)
      exact ih hv hleaf

theorem accepted_of_ofJson {j : Json} (hvalue : ∃ v, ofJson j = .ok v) {path : List Step} {n : Number}
    (hat : j.At path (.number n)) : n.Accepted := by
  obtain ⟨v, hv⟩ := hvalue
  exact hat.accepted ((ofJson_eq_ok_iff j v).1 hv)

/-- A number that is not accepted and is reached before all others that are not. -/
structure FirstRefused (j : Json) (path : List Step) (n : Number) : Prop where
  stands : j.At path (.number n)
  refused : ¬ n.Accepted
  first : ∀ other m, j.At other (.number m) → ¬ m.Accepted → other = path ∨ Precedes path other

/-- Data without a value has a number that is not accepted, and the error is about it. As far as the members
of objects are ordered, it is the first such number. -/
theorem exists_of_ofJson_eq_error {j : Json} {e : ValueError} (h : ofJson j = .error e) :
    ∃ path n, j.At path (.number n) ∧ ¬ n.Accepted ∧ n.Reports e ∧
      (j.Ordered → ∀ other m, j.At other (.number m) → ¬ m.Accepted → other = path ∨
        Precedes path other) := by
  induction j using parts_induction with
  | null => cases h
  | bool b => cases h
  | string s => cases h
  | number n =>
    refine ⟨[], n, .here _, ?_, reports_of_ofNumber h, ?_⟩
    · rintro ⟨k, hvalue, hrange⟩
      cases (ofNumber_eq_ok_iff.2 ⟨k, hvalue, hrange, rfl⟩).symm.trans h
    · rintro - _ _ ⟨⟩ -
      exact .inl rfl
  | array items ih =>
    rw [ofJson, ofItems_eq_mapM] at h
    obtain ⟨before, j, after, rfl, hbefore, hj⟩ := exists_of_mapM_eq_error (error_of_bind_ok h)
    obtain ⟨path, n, hstands, hrefused, hreports, hfirst⟩ := ih j List.mem_append_cons_self hj
    have hhere : (before ++ j :: after)[before.length]? = some j := by simp
    refine ⟨.item before.length :: path, n, .item hhere hstands, hrefused, hreports, ?_⟩
    intro hordered other m hat hm
    cases hat with
    | @item _ i part _ other hi hat =>
      rcases Nat.lt_trichotomy i before.length with hlt | rfl | hgt
      · rw [List.getElem?_append_left hlt] at hi
        exact absurd (accepted_of_ofJson (hbefore part (List.mem_of_getElem? hi)) hat) hm
      · cases hhere.symm.trans hi
        have hinner := ordered_array_iff.1 hordered j List.mem_append_cons_self
        exact (hfirst hinner other m hat hm).imp (congrArg _) (.step _)
      · exact .inr (.item path other hgt)
  | object members ih =>
    rw [ofJson, ofMembers_eq_mapM] at h
    obtain ⟨before, ⟨key, j⟩, after, rfl, hbefore, hj⟩ := exists_of_mapM_eq_error (error_of_bind_ok h)
    obtain ⟨path, n, hstands, hrefused, hreports, hfirst⟩ :=
      ih _ List.mem_append_cons_self (error_of_bind_ok hj)
    refine ⟨.member key :: path, n, .member List.mem_append_cons_self hstands, hrefused, hreports, ?_⟩
    intro hordered other m hat hm
    obtain ⟨hascending, hinner⟩ := ordered_object_iff.1 hordered
    cases hat with
    | @member _ later part _ other hpart hat =>
      rcases List.mem_append.1 hpart with hpart | hpart
      · obtain ⟨entry, hentry⟩ := hbefore _ hpart
        obtain ⟨v, hv, -⟩ := exists_of_bind_eq_ok hentry
        exact absurd (accepted_of_ofJson ⟨v, hv⟩ hat) hm
      · rcases List.mem_cons.1 hpart with hsame | hpart
        · cases hsame
          exact (hfirst (hinner _ List.mem_append_cons_self) other m hat hm).imp (congrArg _) (.step _)
        · have hlater : key < later :=
            (List.pairwise_cons.1 (List.pairwise_append.1 hascending).2.1).1 _ hpart
          exact .inr (.member path other hlater)

/-- Of the numbers that are not accepted, the error is about the first. -/
theorem exists_firstRefused {j : Json} (hordered : j.Ordered) {e : ValueError} (h : ofJson j = .error e) :
    ∃ path n, j.FirstRefused path n ∧ n.Reports e := by
  obtain ⟨path, n, hstands, hrefused, hreports, hfirst⟩ := exists_of_ofJson_eq_error h
  exact ⟨path, n, ⟨hstands, hrefused, hfirst hordered⟩, hreports⟩

/-- Data has a value just when all its numbers, wherever they are, are whole numbers of the safe range. -/
theorem exists_ofJson_iff (j : Json) :
    (∃ v, ofJson j = .ok v) ↔ ∀ path n, j.At path (.number n) → n.Accepted := by
  refine ⟨fun h path n hat => accepted_of_ofJson h hat, fun h => ?_⟩
  cases hj : ofJson j with
  | ok v => exact ⟨v, rfl⟩
  | error e =>
    obtain ⟨path, n, hstands, hrefused, -⟩ := exists_of_ofJson_eq_error hj
    exact absurd (h path n hstands) hrefused

end Json

end Stencil
