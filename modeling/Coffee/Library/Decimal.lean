import Mathlib.Data.List.Basic

/-! # Decimal numerals over bytes

Printing a natural number in base ten and reading a run of digits back. Reading ignores
leading zeros, so only printing is injective.
-/

namespace Coffee.Library.Decimal

def isDigit (c : UInt8) : Bool := 48 ≤ c && c ≤ 57

def encode (n : Nat) : List UInt8 := (Nat.toDigits 10 n).map fun c => UInt8.ofNat c.toNat

def value (s : List UInt8) : Nat := s.foldl (fun acc c => acc * 10 + (c.toNat - 48)) 0

theorem toNat_ofNat_of_isDigit {c : Char} (h : c.isDigit = true) :
    (UInt8.ofNat c.toNat).toNat = c.toNat := by
  have hle : c.toNat ≤ 57 := by
    simp only [Char.isDigit, Bool.and_eq_true, decide_eq_true_eq] at h
    exact UInt32.le_iff_toNat_le.mp h.2
  simp only [UInt8.toNat_ofNat']
  omega

theorem isDigit_of_mem_encode {n : Nat} {c : UInt8} (h : c ∈ encode n) : isDigit c = true := by
  obtain ⟨d, hd, rfl⟩ := List.mem_map.mp h
  have hdigit := Nat.isDigit_of_mem_toDigits (by decide) (by decide) hd
  have hnat := toNat_ofNat_of_isDigit hdigit
  simp only [Char.isDigit, Bool.and_eq_true, decide_eq_true_eq] at hdigit
  have hlo : 48 ≤ d.toNat := UInt32.le_iff_toNat_le.mp hdigit.1
  have hhi : d.toNat ≤ 57 := UInt32.le_iff_toNat_le.mp hdigit.2
  simp only [isDigit, Bool.and_eq_true, decide_eq_true_eq, UInt8.le_iff_toNat_le, hnat]
  exact ⟨hlo, hhi⟩

theorem encode_ne_nil (n : Nat) : encode n ≠ [] := by
  simp [encode, Nat.toDigits_ne_nil]

theorem not_mem_encode {n : Nat} {c : UInt8} (h : isDigit c = false) : c ∉ encode n := by
  intro hc
  rw [isDigit_of_mem_encode hc] at h
  cases h

theorem foldl_encode (l : List Char) (hl : ∀ c ∈ l, c.isDigit = true) (acc : Nat) :
    (l.map fun c => UInt8.ofNat c.toNat).foldl (fun acc c => acc * 10 + (c.toNat - 48)) acc =
      Nat.ofDigitChars 10 l acc := by
  induction l generalizing acc with
  | nil => rfl
  | cons c l ih =>
    have hc := toNat_ofNat_of_isDigit (hl c (by simp))
    rw [List.map_cons, List.foldl_cons, ih (fun d hd => hl d (by simp [hd])), hc,
      Nat.ofDigitChars_cons]
    congr 1
    simp [Nat.mul_comm]

@[simp] theorem value_encode (n : Nat) : value (encode n) = n := by
  have hdigits : ∀ c ∈ Nat.toDigits 10 n, c.isDigit = true := fun c hc =>
    Nat.isDigit_of_mem_toDigits (by decide) (by decide) hc
  rw [value, encode, foldl_encode _ hdigits, Nat.ofDigitChars_ten_toDigits]

end Coffee.Library.Decimal
