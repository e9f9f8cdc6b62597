import Coffee.Xml.Node

/-! # UTF-8 and ISO 8859-1

A library that knows one encoding besides UTF-8: ISO 8859-1, with one byte for a character.
-/

namespace Coffee.Xml

open Coffee.Basis

def isTrail (c : UInt8) : Bool := 128 ≤ c && c < 192

/-- Overlong forms are not looked for. -/
def checkUTF8 : Bytes → Bool
  | [] => true
  | c :: s =>
    if c < 128 then checkUTF8 s
    else if c < 192 then false
    else if c < 224 then match s with
      | d :: s => isTrail d && checkUTF8 s
      | _ => false
    else if c < 240 then match s with
      | d :: e :: s => isTrail d && isTrail e && checkUTF8 s
      | _ => false
    else if c < 248 then match s with
      | d :: e :: f :: s => isTrail d && isTrail e && isTrail f && checkUTF8 s
      | _ => false
    else false

/-- The characters from 128 on begin with the byte 194 or 195. -/
def utf8ToIsolat1 : Bytes → Bytes
  | [] => []
  | c :: s =>
    if c < 128 then c :: utf8ToIsolat1 s
    else match s with
      | [] => []
      | d :: s =>
        if c = 194 then d :: utf8ToIsolat1 s
        else if c = 195 then (d + 64) :: utf8ToIsolat1 s
        else []

def isolat1ToUTF8 : Bytes → Bytes
  | [] => []
  | c :: s =>
    if c < 128 then c :: isolat1ToUTF8 s
    else if c < 192 then 194 :: c :: isolat1ToUTF8 s
    else 195 :: (c - 64) :: isolat1ToUTF8 s

theorem isAscii_cons {c : UInt8} {s : Bytes} :
    isAscii (c :: s) = true ↔ c < 128 ∧ isAscii s = true := by
  simp [isAscii]

theorem checkUTF8_of_isAscii {s : Bytes} (h : isAscii s = true) : checkUTF8 s = true := by
  induction s with
  | nil => rfl
  | cons c s ih =>
    obtain ⟨hc, hs⟩ := isAscii_cons.mp h
    rw [checkUTF8.eq_def]
    dsimp only
    rw [if_pos hc, ih hs]

theorem utf8ToIsolat1_of_isAscii {s : Bytes} (h : isAscii s = true) : utf8ToIsolat1 s = s := by
  induction s with
  | nil => rfl
  | cons c s ih =>
    obtain ⟨hc, hs⟩ := isAscii_cons.mp h
    rw [utf8ToIsolat1.eq_def]
    dsimp only
    rw [if_pos hc, ih hs]

theorem length_utf8ToIsolat1_le (s : Bytes) : (utf8ToIsolat1 s).length ≤ s.length := by
  fun_induction utf8ToIsolat1 s <;> simp only [List.length_cons, List.length_nil] <;> omega

theorem length_utf8ToIsolat1_lt {s : Bytes} (h : isAscii s = false) :
    (utf8ToIsolat1 s).length < s.length := by
  fun_induction utf8ToIsolat1 s with
  | case1 => cases h
  | case2 c s hc ih =>
    have hs : isAscii s = false := by
      rw [← Bool.not_eq_true, isAscii_cons, not_and, Bool.not_eq_true] at h
      exact h hc
    exact Nat.succ_lt_succ (ih hs)
  | case3 c hc => exact Nat.zero_lt_one
  | case4 d s hc ih =>
    have hle := length_utf8ToIsolat1_le s
    simp only [List.length_cons]
    omega
  | case5 d s hc hne ih =>
    have hle := length_utf8ToIsolat1_le s
    simp only [List.length_cons]
    omega
  | case6 c hc d s hne hne' => exact Nat.succ_pos _

theorem isTrail_of_le {c : UInt8} (hc : ¬ c < 128) :
    isTrail (if c < 192 then c else c - 64) = true := by
  simp only [isTrail, Bool.and_eq_true, decide_eq_true_eq]
  split
  · next hsmall => exact ⟨UInt8.not_lt.mp hc, hsmall⟩
  · next hlarge =>
    have hlt := c.toNat_lt
    have hle : 192 ≤ c.toNat := UInt8.le_iff_toNat_le.mp (UInt8.not_lt.mp hlarge)
    have hsub : (c - 64).toNat = c.toNat - 64 :=
      UInt8.toNat_sub_of_le _ _ (UInt8.le_iff_toNat_le.mpr (Nat.le_trans (by decide) hle))
    rw [UInt8.le_iff_toNat_le, UInt8.lt_iff_toNat_lt, hsub]
    simp only [UInt8.reduceToNat]
    omega

theorem checkUTF8_isolat1ToUTF8 (s : Bytes) : checkUTF8 (isolat1ToUTF8 s) = true := by
  induction s with
  | nil => rfl
  | cons c s ih =>
    rw [isolat1ToUTF8]
    split
    · next hc =>
      rw [checkUTF8.eq_def]
      dsimp only
      rw [if_pos hc, ih]
    · next hc =>
      have htrail := isTrail_of_le hc
      split
      · next hsmall =>
        rw [if_pos hsmall] at htrail
        simp [checkUTF8, htrail, ih]
      · next hlarge =>
        rw [if_neg hlarge] at htrail
        simp [checkUTF8, htrail, ih]

theorem utf8ToIsolat1_isolat1ToUTF8 (s : Bytes) : utf8ToIsolat1 (isolat1ToUTF8 s) = s := by
  induction s with
  | nil => rfl
  | cons c s ih =>
    rw [isolat1ToUTF8]
    split
    · next hc =>
      rw [utf8ToIsolat1.eq_def]
      dsimp only
      rw [if_pos hc, ih]
    · split
      · simp [utf8ToIsolat1, ih]
      · simp [utf8ToIsolat1, ih]

/-- The library with the handler of ISO 8859-1 only. -/
def LibXml.latin1 : LibXml where
  xmlCheckUTF8 := checkUTF8
  UTF8Toisolat1 := utf8ToIsolat1
  xmlFindCharEncodingHandler encoding :=
    if encoding = text "ISO-8859-1" then some fun s => some (isolat1ToUTF8 s) else none
  check_ascii _ := checkUTF8_of_isAscii
  latin1_ascii _ := utf8ToIsolat1_of_isAscii
  latin1_length _ _ := length_utf8ToIsolat1_lt

end Coffee.Xml
