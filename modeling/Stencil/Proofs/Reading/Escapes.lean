import Stencil.Text.Escaped

/-! # Escaped texts told apart

An escape shows which character it stands for and where it ends, and so escaped texts tell texts apart. None
of them breaks its line. -/

namespace Stencil

/-- If two lists begin with elements of one sort and go on with another, or end there, they begin and go on
alike when they are the same. -/
theorem append_inj_of_fronts {α : Type} {p : α → Prop} {xs ys rest rest' : List α} (hxs : ∀ x ∈ xs, p x)
    (hys : ∀ y ∈ ys, p y) (hrest : ∀ x ∈ rest.head?, ¬ p x) (hrest' : ∀ x ∈ rest'.head?, ¬ p x)
    (h : xs ++ rest = ys ++ rest') : xs = ys ∧ rest = rest' := by
  induction xs generalizing ys with
  | nil =>
    cases ys with
    | nil => exact ⟨rfl, h⟩
    | cons y ys =>
      rw [List.nil_append] at h
      rw [h] at hrest
      exact absurd (hys y List.mem_cons_self) (hrest y rfl)
  | cons x xs ih =>
    cases ys with
    | nil =>
      rw [List.nil_append] at h
      rw [← h] at hrest'
      exact absurd (hxs x List.mem_cons_self) (hrest' x rfl)
    | cons y ys =>
      obtain ⟨rfl, htail⟩ := List.cons.inj h
      obtain ⟨rfl, hsame⟩ := ih (fun x hx => hxs x (List.mem_cons_of_mem _ hx))
        (fun y hy => hys y (List.mem_cons_of_mem _ hy)) htail
      exact ⟨rfl, hsame⟩

namespace Text

/-! ### Hexadecimal digits -/

theorem hexDigits_eq (n : Nat) :
    hexDigits n = if n < 16 then [Nat.digitChar n] else hexDigits (n / 16) ++ [Nat.digitChar (n % 16)] :=
  Nat.toDigits_eq_if (by decide)

theorem exists_of_mem_hexDigits {n : Nat} {c : Char} (h : c ∈ hexDigits n) : ∃ d, c = Nat.digitChar d := by
  induction n using Nat.strongRecOn with
  | ind n ih =>
    rw [hexDigits_eq] at h
    split at h
    · exact ⟨n, List.mem_singleton.1 h⟩
    · rcases List.mem_append.1 h with h | h
      · exact ih (n / 16) (by omega) h
      · exact ⟨n % 16, List.mem_singleton.1 h⟩

theorem digitChar_injective : ∀ d < 16, ∀ d' < 16, Nat.digitChar d = Nat.digitChar d' → d = d' := by decide

theorem hexDigits_injective {n m : Nat} (h : hexDigits n = hexDigits m) : n = m := by
  have hmixed {n m : Nat} (h : [Nat.digitChar n] = hexDigits (m / 16) ++ [Nat.digitChar (m % 16)]) :
      False := by
    have hlength := congrArg List.length h
    have hpos := Nat.length_toDigits_pos (b := 16) (n := m / 16)
    rw [List.length_append, List.length_singleton, List.length_singleton, hexDigits] at hlength
    omega
  induction n using Nat.strongRecOn generalizing m with
  | ind n ih =>
    rw [hexDigits_eq n, hexDigits_eq m] at h
    split at h
    · next hn =>
      split at h
      · next hm => exact digitChar_injective n hn m hm (List.singleton_inj.1 h)
      · exact (hmixed h).elim
    · split at h
      · exact (hmixed h.symm).elim
      · obtain ⟨hhigh, hlow⟩ := List.append_inj' h rfl
        have hquotient := ih (n / 16) (by omega) hhigh
        have hremainder := digitChar_injective _ (Nat.mod_lt n (by decide)) _ (Nat.mod_lt m (by decide))
          (List.singleton_inj.1 hlow)
        omega

/-! ### Escapes -/

/-- The character that a backslash and another character stand for between double quotes, unless
they begin a code point. -/
def unescape (c : Char) : Char :=
  if c = '0' then '\x00' else if c = 't' then '\t' else if c = 'r' then '\r' else if c = 'n' then '\n' else c

/-- A character shows as itself, as a backslash and another one, or as its code point. -/
theorem escapeChar_cases (c : Char) :
    (escapeChar '"' c = [c] ∧ c ≠ '\\' ∧ c ≠ '\n') ∨
    (∃ d, escapeChar '"' c = ['\\', d] ∧ d ≠ 'u' ∧ d ≠ '\n' ∧ unescape d = c) ∨
    escapeChar '"' c = unicodeEscape c := by
  unfold escapeChar
  split
  · next h => exact .inr (.inl ⟨'0', rfl, by decide, by decide, h.symm⟩)
  split
  · next h => exact .inr (.inl ⟨'t', rfl, by decide, by decide, h.symm⟩)
  split
  · next h => exact .inr (.inl ⟨'r', rfl, by decide, by decide, h.symm⟩)
  split
  · next h => exact .inr (.inl ⟨'n', rfl, by decide, by decide, h.symm⟩)
  split
  · next h => exact .inr (.inl ⟨'\\', rfl, by decide, by decide, h.symm⟩)
  split
  · next h => exact .inr (.inl ⟨'"', rfl, by decide, by decide, h.symm⟩)
  split
  · exact .inr (.inr rfl)
  · next hfeed hslash _ _ => exact .inl ⟨rfl, hslash, hfeed⟩

theorem unicodeEscape_append (c : Char) (rest : List Char) :
    unicodeEscape c ++ rest = '\\' :: 'u' :: '\x7b' :: (hexDigits c.toNat ++ '\x7d' :: rest) := by
  simp [unicodeEscape]

theorem notMem_hexDigits {n : Nat} {c : Char} (h : ∀ d, Nat.digitChar d ≠ c) : c ∉ hexDigits n := by
  intro hmem
  obtain ⟨d, rfl⟩ := exists_of_mem_hexDigits hmem
  exact h d rfl

/-- An escape ends where it ends, whatever follows. -/
theorem escapeChar_append_inj {c d : Char} {rest rest' : List Char}
    (h : escapeChar '"' c ++ rest = escapeChar '"' d ++ rest') :
    c = d ∧ rest = rest' := by
  rcases escapeChar_cases c with ⟨hc, hcslash, -⟩ | ⟨x, hc, hxu, -, hx⟩ | hc <;>
    rcases escapeChar_cases d with ⟨hd, hdslash, -⟩ | ⟨y, hd, hyu, -, hy⟩ | hd <;>
    simp only [hc, hd, unicodeEscape_append, List.cons_append, List.nil_append,
      List.cons.injEq, true_and] at h
  · exact h
  · exact absurd h.1 hcslash
  · exact absurd h.1 hcslash
  · exact absurd h.1.symm hdslash
  · obtain ⟨rfl, hrest⟩ := h
    exact ⟨hx.symm.trans hy, hrest⟩
  · exact absurd h.1 hxu
  · exact absurd h.1.symm hdslash
  · exact absurd h.1.symm hyu
  · have hclose : ∀ n, ∀ e ∈ hexDigits n, e ≠ '\x7d' := fun n e he hbrace =>
      notMem_hexDigits (fun d => Nat.digitChar_ne _ rfl) (hbrace ▸ he)
    obtain ⟨hdigits, hrest⟩ := append_inj_of_fronts (hclose _) (hclose _) (by simp) (by simp) h
    exact ⟨Char.toNat_inj.1 (hexDigits_injective hdigits), (List.cons.inj hrest).2⟩

theorem escapeChar_ne_nil (c : Char) : escapeChar '"' c ≠ [] := by
  rcases escapeChar_cases c with ⟨h, -⟩ | ⟨d, h, -⟩ | h <;> rw [h] <;> simp [unicodeEscape]

theorem flatMap_escapeChar_injective {cs ds : List Char}
    (h : cs.flatMap (escapeChar '"') = ds.flatMap (escapeChar '"')) : cs = ds := by
  induction cs generalizing ds with
  | nil =>
    cases ds with
    | nil => rfl
    | cons d ds => exact absurd (List.append_eq_nil_iff.1 h.symm).1 (escapeChar_ne_nil d)
  | cons c cs ih =>
    cases ds with
    | nil => exact absurd (List.append_eq_nil_iff.1 h).1 (escapeChar_ne_nil c)
    | cons d ds =>
      obtain ⟨rfl, hrest⟩ := escapeChar_append_inj h
      rw [ih hrest]

/-- Escaped texts tell texts apart. -/
theorem escaped_injective {s t : String} (h : escaped s = escaped t) : s = t := by
  have hquoted := String.ofList_injective h
  rw [List.cons_append, List.cons_append] at hquoted
  exact String.toList_injective (flatMap_escapeChar_injective
    (List.append_cancel_right (List.cons.inj hquoted).2))

/-- An escaped text stays on its line. -/
theorem newline_notMem_escaped (s : String) : '\n' ∉ (escaped s).toList := by
  have hchar (c : Char) : '\n' ∉ escapeChar '"' c := by
    rcases escapeChar_cases c with ⟨h, -, hfeed⟩ | ⟨d, h, -, hfeed, -⟩ | h
    · rw [h, List.mem_singleton]
      exact hfeed.symm
    · rw [h]
      simp [hfeed.symm]
    · have hdigits : '\n' ∉ hexDigits c.toNat := notMem_hexDigits fun d => Nat.digitChar_ne _ rfl
      rw [h, unicodeEscape]
      simp [hdigits]
  simp [escaped, hchar]

end Text

end Stencil
