import Coffee.Library.Decimal
import Mathlib.Algebra.Ring.Nat

/-! # Numerals in fields

A reader of a field takes a bounded number of digits and stops where one more digit would go past
the greatest value of the field. A numeral of a value in the field is read back whole, whatever
stands behind it, as long as this is no further digit of the field.
-/

namespace Coffee.Library.Numeral

open Decimal

def readDigits (upper : Nat) : (width : Nat) → (val : Nat) → List UInt8 → Nat × List UInt8
  | width + 1, val, c :: s =>
    if val * 10 ≤ upper && isDigit c then readDigits upper width (val * 10 + (c.toNat - 48)) s
    else (val, c :: s)
  | _, val, s => (val, s)

/-- Blanks, at least one digit, and a value between the bounds. -/
def read (isBlank : UInt8 → Bool) (lower upper width : Nat) (s : List UInt8) :
    Option (Nat × List UInt8) :=
  match s.dropWhile isBlank with
  | [] => none
  | c :: s =>
    if isDigit c then
      let number := readDigits upper width 0 (c :: s)
      if lower ≤ number.1 ∧ number.1 ≤ upper then some number else none
    else none

def valueFrom (val : Nat) (s : List UInt8) : Nat :=
  s.foldl (fun acc c => acc * 10 + (c.toNat - 48)) val

theorem le_valueFrom (val : Nat) (s : List UInt8) : val ≤ valueFrom val s := by
  induction s generalizing val with
  | nil => exact Nat.le_refl val
  | cons c s ih =>
    have hnext := ih (val * 10 + (c.toNat - 48))
    rw [valueFrom, List.foldl_cons, ← valueFrom]
    omega

theorem readDigits_append {digits : List UInt8} (hdigits : ∀ c ∈ digits, isDigit c = true)
    {upper width val : Nat} (hwidth : digits.length ≤ width) (hupper : valueFrom val digits ≤ upper)
    {rest : List UInt8} (hrest : digits.length = width ∨ ∀ c ∈ rest.head?, isDigit c = false) :
    readDigits upper width val (digits ++ rest) = (valueFrom val digits, rest) := by
  induction digits generalizing width val with
  | nil =>
    rw [List.nil_append]
    unfold readDigits
    split
    · next c s =>
      rcases hrest with hnone | hrest
      · cases hnone
      · have hc := hrest c rfl
        rw [if_neg (by simp [hc])]
        rfl
    · rfl
  | cons c digits ih =>
    obtain ⟨width, rfl⟩ := Nat.exists_eq_add_one.mpr
      (show 0 < width by rw [List.length_cons] at hwidth; omega)
    have hc := hdigits c List.mem_cons_self
    have hle := le_valueFrom (val * 10 + (c.toNat - 48)) digits
    rw [valueFrom, List.foldl_cons, ← valueFrom] at hupper ⊢
    have htake : (decide (val * 10 ≤ upper) && isDigit c) = true := by
      rw [hc, Bool.and_true, decide_eq_true_eq]
      omega
    rw [List.cons_append, readDigits, if_pos htake]
    apply ih (fun d hd => hdigits d (List.mem_cons_of_mem c hd)) _ hupper
    · simpa using hrest
    · simpa using hwidth

/-- What is left is a suffix behind at most `width` bytes. -/
theorem readDigits_suffix (upper width val : Nat) (s : List UInt8) :
    ∃ front, front.length ≤ width ∧ s = front ++ (readDigits upper width val s).2 := by
  induction s generalizing width val with
  | nil =>
    refine ⟨[], Nat.zero_le width, ?_⟩
    unfold readDigits
    split
    · contradiction
    · rfl
  | cons c s ih =>
    cases width with
    | zero => exact ⟨[], Nat.le_refl 0, rfl⟩
    | succ width =>
      rw [readDigits]
      split
      · obtain ⟨front, hlength, hs⟩ := ih width (val * 10 + (c.toNat - 48))
        refine ⟨c :: front, Nat.succ_le_succ hlength, ?_⟩
        rw [List.cons_append, ← hs]
      · exact ⟨[], Nat.zero_le _, rfl⟩

/-- `s` consists of digits, and they denote `number`. -/
structure Denotes (s : List UInt8) (number : Nat) : Prop where
  ne_nil : s ≠ []
  digits : ∀ c ∈ s, isDigit c = true
  value_eq : value s = number

theorem denotes_encode (n : Nat) : Denotes (encode n) n where
  ne_nil := encode_ne_nil n
  digits := fun _ hc => isDigit_of_mem_encode hc
  value_eq := value_encode n

theorem Denotes.cons_zero {s : List UInt8} {number : Nat} (h : Denotes s number) :
    Denotes (48 :: s) number where
  ne_nil := List.cons_ne_nil 48 s
  digits := by
    intro c hc
    rcases List.mem_cons.mp hc with rfl | hmem
    · decide
    · exact h.digits c hmem
  value_eq := h.value_eq

theorem length_encode_le_iff {n width : Nat} (h : 0 < width) :
    (encode n).length ≤ width ↔ n < 10 ^ width := by
  rw [encode, List.length_map]
  exact Nat.length_toDigits_le_iff (by decide) h

variable {isBlank : UInt8 → Bool} {lower upper width : Nat}

theorem read_append (hblank : ∀ c, isDigit c = true → isBlank c = false) {digits : List UInt8}
    {number : Nat} (h : Denotes digits number) (hwidth : digits.length ≤ width)
    (hlower : lower ≤ number) (hupper : number ≤ upper) {rest : List UInt8}
    (hrest : digits.length = width ∨ ∀ c ∈ rest.head?, isDigit c = false) :
    read isBlank lower upper width (digits ++ rest) = some (number, rest) := by
  obtain ⟨hne, hdigits, rfl⟩ := h
  have hread := readDigits_append hdigits hwidth hupper hrest
  obtain ⟨c, s, rfl⟩ := List.exists_cons_of_ne_nil hne
  have hc := hdigits c List.mem_cons_self
  rw [List.cons_append] at hread ⊢
  rw [read, List.dropWhile_cons_of_neg (by simp [hblank c hc])]
  dsimp only
  rw [if_pos hc, hread]
  exact if_pos ⟨hlower, hupper⟩

theorem read_eq_none_of_head {c : UInt8} (hblank : isBlank c = false) (hdigit : isDigit c = false)
    (s : List UInt8) : read isBlank lower upper width (c :: s) = none := by
  rw [read, List.dropWhile_cons_of_neg (by simp [hblank])]
  dsimp only
  rw [if_neg (by simp [hdigit])]

/-- Behind a field that is too narrow for a numeral, the next byte is one of its digits. -/
theorem head_of_read (hblank : ∀ c, isDigit c = true → isBlank c = false) {digits : List UInt8}
    (hdigits : ∀ c ∈ digits, isDigit c = true) (hwidth : width < digits.length)
    {rest : List UInt8} {result : Nat × List UInt8}
    (h : read isBlank lower upper width (digits ++ rest) = some result) :
    ∃ c ∈ result.2.head?, isDigit c = true := by
  have hne : digits ≠ [] := List.ne_nil_of_length_pos (by omega)
  obtain ⟨c, s, rfl⟩ := List.exists_cons_of_ne_nil hne
  have hc := hdigits c List.mem_cons_self
  rw [List.cons_append, read, List.dropWhile_cons_of_neg (by simp [hblank c hc])] at h
  dsimp only at h
  rw [if_pos hc] at h
  obtain ⟨-, hresult⟩ := Option.ite_none_right_eq_some.mp h
  cases hresult
  obtain ⟨front, hlength, hs⟩ := readDigits_suffix upper width 0 (c :: (s ++ rest))
  generalize (readDigits upper width 0 (c :: (s ++ rest))).2 = left at hs ⊢
  rw [← List.cons_append] at hs
  obtain ⟨t, hfront, hleft⟩ | ⟨t, hfront, hleft⟩ := List.append_eq_append_iff.mp hs
  · rw [hfront, List.length_append] at hlength
    omega
  · cases t with
    | nil =>
      rw [List.append_nil] at hfront
      rw [hfront] at hwidth
      omega
    | cons d t =>
      refine ⟨d, by rw [hleft]; rfl, hdigits d ?_⟩
      rw [hfront]
      exact List.mem_append_right front List.mem_cons_self

end Coffee.Library.Numeral
