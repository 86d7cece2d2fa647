import Mathlib.Data.List.Basic

/-!
# Numbered string keys

Keys of the form `name`, a separator character, a decimal number. The number has no
separator in it, so a key splits at its last separator in only one way, whatever the
name contains.
-/

namespace Keys

open List

theorem split_last {α : Type} {c : α} {l₁ l₂ d₁ d₂ : List α} (h₁ : c ∉ d₁) (h₂ : c ∉ d₂)
    (h : l₁ ++ c :: d₁ = l₂ ++ c :: d₂) : l₁ = l₂ ∧ d₁ = d₂ := by
  rcases append_eq_append_iff.mp h with ⟨a, rfl, ha⟩ | ⟨a, rfl, ha⟩
  · cases a with
    | nil => simpa using ha
    | cons x a =>
      rw [cons_append, cons.injEq] at ha
      exact absurd (ha.2 ▸ mem_append_right a mem_cons_self) h₁
  · cases a with
    | nil => simpa [eq_comm] using ha
    | cons x a =>
      rw [cons_append, cons.injEq] at ha
      exact absurd (ha.2 ▸ mem_append_right a mem_cons_self) h₂

theorem split_first {α : Type} {c : α} {l₁ l₂ d₁ d₂ : List α} (h₁ : c ∉ d₁) (h₂ : c ∉ d₂)
    (h : d₁ ++ c :: l₁ = d₂ ++ c :: l₂) : d₁ = d₂ ∧ l₁ = l₂ := by
  have hrev := congrArg reverse h
  simp only [reverse_append, reverse_cons, append_assoc, singleton_append]
    at hrev
  obtain ⟨hl, hd⟩ := split_last (mem_reverse.not.mpr h₁) (mem_reverse.not.mpr h₂) hrev
  exact ⟨reverse_injective hd, reverse_injective hl⟩

theorem toDigits_inj {i j : Nat} (h : Nat.toDigits 10 i = Nat.toDigits 10 j) : i = j := by
  have hv := congrArg (fun ds => Nat.ofDigitChars 10 ds 0) h
  simpa only [Nat.ofDigitChars_ten_toDigits] using hv

theorem hash_not_mem_digits (i : Nat) : '#' ∉ Nat.toDigits 10 i := by
  intro h
  have hd := Nat.isDigit_of_mem_toDigits (by decide) (by decide) h
  exact absurd hd (by decide)

theorem hash_inj {n m : String} {i j : Nat} :
    n ++ "#" ++ toString i = m ++ "#" ++ toString j ↔ n = m ∧ i = j := by
  constructor
  · intro h
    have hl := congrArg String.toList h
    simp only [String.toList_append, Nat.toString_eq_repr, Nat.toList_repr,
      append_assoc] at hl
    obtain ⟨hn, hi⟩ := split_last (hash_not_mem_digits i) (hash_not_mem_digits j) hl
    exact ⟨String.toList_injective hn, toDigits_inj hi⟩
  · rintro ⟨rfl, rfl⟩
    rfl

end Keys
