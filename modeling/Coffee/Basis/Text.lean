import Coffee.Library.Cut
import Coffee.Library.Decimal
import Mathlib.Algebra.Group.Int.Defs
import Mathlib.Algebra.Group.Nat.Defs
import Mathlib.Data.List.TakeWhile

/-! # Byte strings

`std::string`, `basis::DataBlock` and `basis::StreamString` all hold a sequence of bytes. The
C functions the code calls on `c_str()` see only what stands before the first NUL.
-/

namespace Coffee.Basis

open Coffee.Library

abbrev Bytes := List UInt8

def text (literal : String) : Bytes := literal.toList.map fun c => UInt8.ofNat c.toNat

def cStr (s : Bytes) : Bytes := s.takeWhile (· ≠ 0)

/-- `std::string::find` of a character, from `pos` on. `none` is `npos`. -/
def find (s : Bytes) (c : UInt8) (pos : Nat) : Option Nat := ((s.drop pos).idxOf? c).map (· + pos)

def search (pattern : Bytes) : Bytes → Option Nat
  | [] => if pattern = [] then some 0 else none
  | c :: s => if pattern.isPrefixOf (c :: s) then some 0 else (search pattern s).map (· + 1)

def findText (s pattern : Bytes) (pos : Nat) : Option Nat :=
  (search pattern (s.drop pos)).map (· + pos)

def toLower (c : UInt8) : UInt8 := if 65 ≤ c && c ≤ 90 then c + 32 else c

def strcasecmp (lhs rhs : Bytes) : Bool := (cStr lhs).map toLower == (cStr rhs).map toLower

def strncasecmp (lhs rhs : Bytes) (n : Nat) : Bool :=
  ((cStr lhs).take n).map toLower == ((cStr rhs).take n).map toLower

def isSpace (c : UInt8) : Bool := c == 32 || (9 ≤ c && c ≤ 13)

/-- `atol`, which is `strtol` in base ten: blanks, an optional sign and digits, cut off at the
ends of a 64 bit `long`. -/
def atol (s : Bytes) : Int :=
  match (cStr s).dropWhile isSpace with
  | 45 :: rest => max (-2 ^ 63) (-(Decimal.value (rest.takeWhile Decimal.isDigit) : Int))
  | 43 :: rest => min (2 ^ 63 - 1) (Decimal.value (rest.takeWhile Decimal.isDigit) : Int)
  | rest => min (2 ^ 63 - 1) (Decimal.value (rest.takeWhile Decimal.isDigit) : Int)

/-- `atoi` narrows what `strtol` returns. -/
def atoi (s : Bytes) : Int32 := Int32.ofInt (atol s)

def asString (number : Int) : Bytes :=
  if number < 0 then 45 :: Decimal.encode number.natAbs else Decimal.encode number.toNat

def NamedObject.asString (m_name : Bytes) : Bytes :=
  text "basis.NamedObject \x7bName=" ++ m_name ++ text "\x7d"

structure RuntimeException where
  message : Bytes
deriving DecidableEq, Repr

/-- `what()` hands the text over as a C string. -/
def RuntimeException.what (ex : RuntimeException) : Bytes := cStr ex.message

theorem cStr_eq_self {s : Bytes} (h : 0 ∉ s) : cStr s = s :=
  List.takeWhile_eq_self_iff.mpr fun c hc => by
    simpa using fun h0 : c = 0 => h (h0 ▸ hc)

theorem search_pair (a b : UInt8) (s : Bytes) : search [a, b] s = Cut.position a b s := by
  induction s using Cut.position.induct a b with
  | case1 => rfl
  | case2 x => simp [search, Cut.position, List.isPrefixOf]
  | case3 x y rest hxy =>
    obtain ⟨rfl, rfl⟩ := hxy
    simp [search, Cut.position, List.isPrefixOf]
  | case4 x y rest hxy ih =>
    have hfront : [a, b].isPrefixOf (x :: y :: rest) = false := by
      simp only [List.isPrefixOf, Bool.and_true, Bool.and_eq_false_iff, beq_eq_false_iff_ne]
      by_contra h
      simp only [ne_eq, not_or, Decidable.not_not] at h
      exact hxy ⟨h.1.symm, h.2.symm⟩
    rw [search, hfront, Cut.position, if_neg hxy, ih]
    rfl

theorem atol_of_digits {s : Bytes} (h : ∀ c ∈ s, Decimal.isDigit c = true) :
    atol s = min (2 ^ 63 - 1) (Decimal.value s : Int) := by
  have hNul : 0 ∉ s := fun h0 => by
    have := h 0 h0
    revert this
    decide
  have hRun : s.takeWhile Decimal.isDigit = s := List.takeWhile_eq_self_iff.mpr h
  rw [atol, cStr_eq_self hNul]
  cases s with
  | nil => rfl
  | cons c s =>
    have hc := h c (by simp)
    have hBounds : 48 ≤ c.toNat ∧ c.toNat ≤ 57 := by
      simpa [Decimal.isDigit, UInt8.le_iff_toNat_le] using hc
    have hBlank : isSpace c = false := by
      have h32 : c ≠ 32 := fun e => by subst e; revert hBounds; decide
      simp [isSpace, UInt8.le_iff_toNat_le, h32]
      omega
    rw [List.dropWhile_cons_of_neg (by simp [hBlank])]
    split
    · next heq =>
      obtain ⟨rfl, -⟩ := List.cons.inj heq
      exact absurd hBounds (by decide)
    · next heq =>
      obtain ⟨rfl, -⟩ := List.cons.inj heq
      exact absurd hBounds (by decide)
    · rw [hRun]

theorem atol_encode {n : Nat} (h : n < 2 ^ 63) : atol (Decimal.encode n) = n := by
  rw [atol_of_digits fun c hc => Decimal.isDigit_of_mem_encode hc, Decimal.value_encode]
  omega

theorem asString_natCast (n : Nat) : asString n = Decimal.encode n := by
  rw [asString, if_neg (by omega)]
  rfl

end Coffee.Basis
