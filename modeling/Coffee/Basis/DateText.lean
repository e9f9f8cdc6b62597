import Coffee.Basis.LocalTime

/-! # Dates as text

What `strftime` writes is what `strptime` reads, as long as the fields are in the ranges that are
read and a year is not followed by a digit.
-/

namespace Coffee.Basis

open Coffee.Library

theorem isSpace_of_isDigit (c : UInt8) (h : Decimal.isDigit c = true) : isSpace c = false := by
  have hbounds : 48 ≤ c.toNat ∧ c.toNat ≤ 57 := by
    simpa [Decimal.isDigit, UInt8.le_iff_toNat_le] using h
  have hne : c ≠ 32 := by
    rintro rfl
    exact absurd hbounds (by decide)
  simp [isSpace, UInt8.le_iff_toNat_le, hne]
  omega

/-! ## The fields of a local time -/

theorem Zone.localtime_eq_some {zone : Zone} {time : Int64} {tm : Tm}
    (h : zone.localtime time = some tm) :
    let seconds := time.toInt + zone.offset time.toInt
    let date := Calendar.ofDayNumber (seconds / 86400 + 719528)
    tm = ⟨seconds % 60, seconds / 60 % 60, seconds / 3600 % 24, date.day, date.month,
      date.year - 1900, if zone.isDaylight time.toInt then 1 else 0⟩ := by
  unfold localtime at h
  dsimp only at h ⊢
  obtain ⟨-, htm⟩ := Option.ite_none_right_eq_some.mp h
  cases htm
  rfl

theorem Zone.seconds_localtime {zone : Zone} {time : Int64} {tm : Tm}
    (h : zone.localtime time = some tm) : tm.seconds = time.toInt + zone.offset time.toInt := by
  have htm := localtime_eq_some h
  dsimp only at htm
  generalize time.toInt + zone.offset time.toInt = seconds at htm ⊢
  have hmonth := Calendar.ofDayNumber_month_lt (seconds / 86400 + 719528)
  have hday := Calendar.dayNumber_ofDayNumber (seconds / 86400 + 719528)
  generalize Calendar.ofDayNumber (seconds / 86400 + 719528) = date at htm hmonth hday
  have hyear : date.year - 1900 + 1900 + (date.month : Int) / 12 = date.year := by omega
  have hmon : ((date.month : Int) % 12).toNat = date.month := by omega
  subst htm
  unfold Tm.seconds
  dsimp only
  rw [hyear, hmon, hday]
  omega

/-- What `strptime` takes for a conversion. -/
def Conversion.Fits (tm : Tm) (c : Conversion) : Prop := c.lower ≤ c.get tm ∧ c.get tm ≤ c.upper

instance (tm : Tm) (c : Conversion) : Decidable (c.Fits tm) := inferInstanceAs (Decidable (_ ∧ _))

theorem Zone.fits_localtime {zone : Zone} {time : Int64} {tm : Tm}
    (h : zone.localtime time = some tm) {c : Conversion} (hc : c ≠ .Y) : c.Fits tm := by
  have htm := localtime_eq_some h
  dsimp only at htm
  generalize time.toInt + zone.offset time.toInt = seconds at htm
  have hmonth := Calendar.ofDayNumber_month_lt (seconds / 86400 + 719528)
  have hday := Calendar.ofDayNumber_day_le (seconds / 86400 + 719528)
  have hpos := Calendar.ofDayNumber_day_pos (seconds / 86400 + 719528)
  subst htm
  cases c with
  | Y => exact absurd rfl hc
  | m | d | H | M | S =>
    simp only [Conversion.Fits, Conversion.lower, Conversion.upper, Conversion.get]
    omega

theorem Zone.fits_year_localtime_iff {zone : Zone} {time : Int64} {tm : Tm}
    (h : zone.localtime time = some tm) : Conversion.Y.Fits tm ↔
      -62167219200 ≤ time.toInt + zone.offset time.toInt ∧
        time.toInt + zone.offset time.toInt < 253402300800 := by
  have htm := localtime_eq_some h
  dsimp only at htm
  generalize time.toInt + zone.offset time.toInt = seconds at htm ⊢
  have hlow := @Calendar.le_yearOf_iff 0 (seconds / 86400 + 719528)
  have hhigh := @Calendar.le_yearOf_iff 10000 (seconds / 86400 + 719528)
  rw [show Calendar.yearStart 0 = 0 by decide] at hlow
  rw [show Calendar.yearStart 10000 = 3652425 by decide] at hhigh
  rw [← Calendar.ofDayNumber_year] at hlow hhigh
  generalize Calendar.ofDayNumber (seconds / 86400 + 719528) = date at htm hlow hhigh
  subst htm
  simp only [Conversion.Fits, Conversion.lower, Conversion.upper, Conversion.get]
  omega

/-! ## Writing and reading a field -/

namespace Conversion

variable {tm : Tm} {c : Conversion}

theorem Fits.get_eq (h : c.Fits tm) : ((c.get tm).toNat : Int) = c.get tm := by
  have hlower := h.1
  omega

theorem twoDigits_denotes {number : Nat} : Numeral.Denotes (twoDigits number) number := by
  have hdenotes := Numeral.denotes_encode number
  rw [twoDigits, asString_natCast]
  split
  · exact hdenotes.cons_zero
  · exact hdenotes

theorem length_twoDigits {number : Nat} (h : number < 100) : (twoDigits number).length = 2 := by
  have htwo := (Numeral.length_encode_le_iff (n := number) (show 0 < 2 by decide)).mpr h
  have hone := Numeral.length_encode_le_iff (n := number) (show 0 < 1 by decide)
  have hpos := List.length_pos_iff.mpr (Decimal.encode_ne_nil number)
  rw [twoDigits, asString_natCast]
  split
  · rw [List.length_cons]
    omega
  · omega

theorem zero_not_mem_print : 0 ∉ c.print tm := by
  have hasString : ∀ number, 0 ∉ Basis.asString number := by
    intro number
    unfold Basis.asString
    have hencode : ∀ n, 0 ∉ Decimal.encode n := fun n => Decimal.not_mem_encode (by decide)
    split
    · rw [List.mem_cons, not_or]
      exact ⟨by decide, hencode _⟩
    · exact hencode _
  have htwoDigits : ∀ number, 0 ∉ twoDigits number := by
    intro number
    unfold twoDigits
    split
    · rw [List.mem_cons, not_or]
      exact ⟨by decide, hasString number⟩
    · exact hasString number
  cases c with
  | Y => exact hasString _
  | m | d | H | M | S => exact htwoDigits _

theorem print_denotes (h : c.Fits tm) : Numeral.Denotes (c.print tm) (c.get tm).toNat := by
  have hget := h.get_eq
  generalize hnumber : (c.get tm).toNat = number at hget ⊢
  cases c with
  | Y =>
    rw [print, ← hget, asString_natCast]
    exact Numeral.denotes_encode number
  | m | d | H | M | S =>
    rw [print, ← hget]
    · exact twoDigits_denotes
    · intro hY
      cases hY

theorem length_print (h : c.Fits tm) :
    (c.print tm).length ≤ c.width ∧ (c ≠ .Y → (c.print tm).length = c.width) := by
  have hget := h.get_eq
  have hupper := h.2
  generalize hnumber : (c.get tm).toNat = number at hget
  rw [← hget] at hupper
  cases c with
  | Y =>
    have hlt : number < 10 ^ 4 := by
      simp only [upper] at hupper
      omega
    rw [print, ← hget, asString_natCast]
    exact ⟨(Numeral.length_encode_le_iff (by decide)).mpr hlt, fun hY => absurd rfl hY⟩
  | m | d | H | M | S =>
    have hlt : number < 100 := by
      simp only [upper] at hupper
      omega
    rw [print, ← hget, length_twoDigits hlt]
    · exact ⟨Nat.le_refl 2, fun _ => rfl⟩
    · intro hY
      cases hY

theorem read_print (h : c.Fits tm) {rest : Bytes}
    (hrest : c = .Y → ∀ d ∈ rest.head?, Decimal.isDigit d = false) :
    c.read (c.print tm ++ rest) = some ((c.get tm).toNat, rest) := by
  have hget := h.get_eq
  have hlower := h.1
  have hupper := h.2
  obtain ⟨hle, heq⟩ := length_print h
  apply Numeral.read_append isSpace_of_isDigit (print_denotes h) hle (by omega) (by omega)
  by_cases hY : c = .Y
  · exact .inr (hrest hY)
  · exact .inl (heq hY)

/-- Behind a year that does not fit, a reader finds a further digit at best. -/
theorem head_of_read_year {rest : Bytes} (h : ¬ Conversion.Y.Fits tm) {value : Nat} {left : Bytes}
    (hread : Conversion.Y.read (Conversion.Y.print tm ++ rest) = some (value, left)) :
    ∃ d ∈ left.head?, Decimal.isDigit d = true := by
  rw [read, print, Basis.asString] at hread
  split at hread
  · rw [List.cons_append, Numeral.read_eq_none_of_head (by decide) (by decide)] at hread
    cases hread
  · next hnonneg =>
    have hbig : ¬ (Decimal.encode (get tm .Y).toNat).length ≤ 4 := by
      rw [Numeral.length_encode_le_iff (by decide)]
      simp only [Fits, lower, upper] at h
      omega
    exact Numeral.head_of_read isSpace_of_isDigit (fun d hd => Decimal.isDigit_of_mem_encode hd)
      (Nat.not_le.mp hbig) hread

end Conversion

/-! ## Formats -/

namespace Format

/-- Nothing that the format writes begins with a digit. -/
def startsPlain : Format → Bool
  | [] => true
  | .literal c :: _ => !Decimal.isDigit c
  | .conversion _ :: _ => false

/-- The format reads what it writes. -/
def separated : Format → Bool
  | [] => true
  | .literal c :: format => c ≠ 0 && !isSpace c && separated format
  | .conversion c :: format => (c ≠ .Y || startsPlain format) && separated format

/-- The fields that the format holds, taken from `tm`. -/
def assign (tm : Tm) : Format → Tm → Tm
  | [], aux => aux
  | .literal _ :: format, aux => assign tm format aux
  | .conversion c :: format, aux => assign tm format (c.set aux (c.get tm))

theorem head_print {tm : Tm} {format : Format} (h : format.startsPlain = true) :
    ∀ d ∈ (format.print tm).head?, Decimal.isDigit d = false := by
  intro d hd
  cases format with
  | nil => cases hd
  | cons directive format =>
    cases directive with
    | literal c =>
      cases hd
      simpa [startsPlain] using h
    | conversion c => cases h

theorem strptime_print {tm : Tm} {format : Format} (hseparated : format.separated = true)
    (hfits : ∀ c, .conversion c ∈ format → c.Fits tm) (aux : Tm) :
    strptime (format.print tm) format aux = some (format.assign tm aux, []) := by
  induction format generalizing aux with
  | nil => rfl
  | cons directive format ih =>
    have hrest := fun c hc => hfits c (List.mem_cons_of_mem directive hc)
    cases directive with
    | literal c =>
      simp only [separated, Bool.and_eq_true, Bool.not_eq_true'] at hseparated
      obtain ⟨⟨-, hspace⟩, hseparated⟩ := hseparated
      rw [print, strptime.eq_def]
      dsimp only
      rw [if_neg (by simp [hspace]), if_pos rfl]
      exact ih hseparated hrest aux
    | conversion c =>
      simp only [separated, Bool.and_eq_true, Bool.or_eq_true, decide_eq_true_eq] at hseparated
      obtain ⟨hplain, hseparated⟩ := hseparated
      have hc := hfits c List.mem_cons_self
      rw [print, strptime, Conversion.read_print hc fun hY => head_print (hplain.resolve_left (absurd hY))]
      dsimp only
      rw [hc.get_eq]
      exact ih hseparated hrest _

theorem zero_not_mem_print {tm : Tm} {format : Format} (hseparated : format.separated = true) :
    0 ∉ format.print tm := by
  induction format with
  | nil => exact List.not_mem_nil
  | cons directive format ih =>
    cases directive with
    | literal c =>
      simp only [separated, Bool.and_eq_true, decide_eq_true_eq] at hseparated
      rw [print, List.mem_cons, not_or]
      exact ⟨Ne.symm hseparated.1.1, ih hseparated.2⟩
    | conversion c =>
      rw [separated, Bool.and_eq_true] at hseparated
      rw [print, List.mem_append, not_or]
      exact ⟨Conversion.zero_not_mem_print, ih hseparated.2⟩

end Format

end Coffee.Basis
