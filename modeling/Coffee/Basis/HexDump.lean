import Coffee.Basis.Text
import Coffee.Library.Runs

/-! # The dump of a block

`AsString::apply` of a `DataBlock` shows it in lines of an offset, the bytes in hexadecimal and the
bytes as characters. Offsets and bytes are printed into a buffer of eight characters first. `none`
stands for undefined behaviour, or for a string that cannot exist, which ends the process.
-/

namespace Coffee.Basis.AsString

open Coffee.Library

def DefaultCharactersByLine : Int32 := 16

/-- In the locale of a program that sets none. -/
def isprint (c : UInt8) : Bool := 32 ≤ c && c ≤ 126

def shown (c : UInt8) : UInt8 := if isprint c then c else 46

def hexDigit (n : Nat) : UInt8 := if n < 10 then UInt8.ofNat (48 + n) else UInt8.ofNat (87 + n)

/-- `%02x` and a blank. -/
def formatByte (c : UInt8) : Bytes := [hexDigit (c.toNat / 16), hexDigit (c.toNat % 16), 32]

/-- `%4zd`, a colon and a blank. -/
def formatOffset (i : Nat) : Bytes :=
  (Decimal.encode i).leftpad 4 32 ++ text ": "

/-- `sprintf` into `aux`, which has room for the end of the string, too. -/
def sprintf (s : Bytes) : Option Bytes := if s.length + 1 ≤ 8 then some s else none

structure Dump where
  i : Nat
  result : Bytes
  numbers : Bytes
  characters : Bytes
deriving DecidableEq, Repr

namespace Dump

def start : Dump := ⟨0, text " ():", [], []⟩

def newLine (dump : Dump) (numbers : Bytes) : Dump :=
  if dump.i > 0 then
    { dump with
      result := dump.result ++ text "\n" ++ dump.numbers ++ text " " ++ dump.characters
      characters := []
      numbers }
  else { dump with numbers }

def push (dump : Dump) (c : UInt8) : Option Dump := do
  let hex ← sprintf (formatByte c)
  return { dump with
    i := dump.i + 1
    numbers := dump.numbers ++ hex
    characters := dump.characters ++ [shown c] }

def step (characterByLine : Nat) (dump : Dump) (c : UInt8) : Option Dump :=
  if dump.i % characterByLine = 0 then do
    let numbers ← sprintf (formatOffset dump.i)
    (dump.newLine numbers).push c
  else dump.push c

/-- The rounds of the loop that fills the last line. -/
def padding (characterByLine : Nat) (dump : Dump) : Nat :=
  (characterByLine - dump.i % characterByLine) % characterByLine

def finish (characterByLine : Nat) (dump : Dump) : Option Bytes :=
  let result := dump.result ++ text "\n" ++ dump.numbers ++
    List.replicate (3 * dump.padding characterByLine) 32 ++ text "  " ++ dump.characters
  if result.length < 2 ^ 63 then some result else none

end Dump

/-- The remainder is one of `size_t`, to which the `int` is converted. -/
def applyDataBlock (dataBlock : Bytes) (characterByLine : Int32) : Option Bytes :=
  if dataBlock.isEmpty then some (text "<null>")
  else
    let characterByLine := (characterByLine.toInt % 2 ^ 64).toNat
    if characterByLine = 0 then none
    else (Runs.run? (Dump.step characterByLine) Dump.start dataBlock).bind
      (Dump.finish characterByLine)

/-! ## What a dump shows -/

/-- A line shows the same bytes in both columns. -/
structure Row where
  offset : Nat
  bytes : Bytes
  gap : Nat
deriving DecidableEq, Repr

def Row.print (row : Row) : Bytes :=
  text "\n" ++ formatOffset row.offset ++ row.bytes.flatMap formatByte ++
    List.replicate row.gap 32 ++ row.bytes.map shown

/-- Each row has the number of bytes in front of it as its offset. -/
def Placed : Nat → List Row → Prop
  | _, [] => True
  | offset, row :: rows => row.offset = offset ∧ Placed (offset + row.bytes.length) rows

/-- The rows show every byte of the block once, and in order. -/
def Shows (dataBlock result : Bytes) : Prop :=
  ∃ rows, result = text " ():" ++ rows.flatMap Row.print ∧ rows.flatMap Row.bytes = dataBlock ∧
    Placed 0 rows

/-- The offset of the last line has at most five digits, and the lines have a length. -/
def Dumpable (dataBlock : Bytes) (characterByLine : Int32) : Prop :=
  dataBlock = [] ∨ 1 ≤ characterByLine.toInt ∧
    (dataBlock.length - 1) / characterByLine.toInt.toNat * characterByLine.toInt.toNat ≤ 99999

theorem length_formatOffset_le (i : Nat) : (formatOffset i).length + 1 ≤ 8 ↔ i ≤ 99999 := by
  have htext : (text ": ").length = 2 := by decide
  have hdigits : (Decimal.encode i).length ≤ 5 ↔ i < 10 ^ 5 := by
    rw [Decimal.encode, List.length_map]
    exact Nat.length_toDigits_le_iff (by decide) (by decide)
  rw [formatOffset, List.length_append, List.length_leftpad, htext]
  omega

theorem sprintf_formatOffset (i : Nat) :
    sprintf (formatOffset i) = if i ≤ 99999 then some (formatOffset i) else none := by
  rw [sprintf]
  exact if_congr (length_formatOffset_le i) rfl rfl

theorem placed_concat {offset : Nat} {rows : List Row} {row : Row} :
    Placed offset (rows ++ [row]) ↔
      Placed offset rows ∧ row.offset = offset + (rows.flatMap Row.bytes).length := by
  induction rows generalizing offset with
  | nil => simp [Placed]
  | cons first rows ih =>
    rw [List.cons_append, Placed, Placed, ih, List.flatMap_cons, List.length_append, and_assoc,
      Nat.add_assoc]

/-! ## Which blocks are dumped -/

namespace Dump

variable {dump dump' : Dump} {characterByLine : Nat} {c : UInt8} {front : Bytes}

def pushed (dump : Dump) (c : UInt8) : Dump :=
  ⟨dump.i + 1, dump.result, dump.numbers ++ formatByte c, dump.characters ++ [shown c]⟩

theorem push_eq (dump : Dump) (c : UInt8) : dump.push c = some (dump.pushed c) := rfl

theorem newLine_i (dump : Dump) (numbers : Bytes) : (dump.newLine numbers).i = dump.i := by
  rw [newLine]
  split <;> rfl

/-- A step fails only where it begins a line. -/
theorem step_eq (dump : Dump) (c : UInt8) : dump.step characterByLine c =
    if dump.i % characterByLine = 0 then
      if dump.i ≤ 99999 then some ((dump.newLine (formatOffset dump.i)).pushed c) else none
    else some (dump.pushed c) := by
  rw [step, push_eq, sprintf_formatOffset]
  refine if_congr Iff.rfl ?_ rfl
  split <;> rfl

theorem step_cases (h : dump' ∈ dump.step characterByLine c) :
    dump.i % characterByLine = 0 ∧ dump.i ≤ 99999 ∧
        dump' = (dump.newLine (formatOffset dump.i)).pushed c ∨
      dump.i % characterByLine ≠ 0 ∧ dump' = dump.pushed c := by
  rw [Option.mem_def, step_eq] at h
  split at h
  next hline =>
    split at h
    · exact Or.inl ⟨hline, ‹_›, (Option.some.inj h).symm⟩
    · cases h
  next hline => exact Or.inr ⟨hline, (Option.some.inj h).symm⟩

theorem step_i (h : dump' ∈ dump.step characterByLine c) : dump'.i = dump.i + 1 := by
  obtain ⟨-, -, rfl⟩ | ⟨-, rfl⟩ := step_cases h
  · exact congrArg (· + 1) (newLine_i _ _)
  · rfl

theorem isSome_step_iff : (dump.step characterByLine c).isSome ↔
    (dump.i % characterByLine = 0 → dump.i ≤ 99999) := by
  rw [step_eq]
  split
  next hline =>
    rw [forall_prop_of_true hline]
    split <;> simp [*]
  next hline => exact iff_of_true rfl fun heq => absurd heq hline

theorem run_i (h : dump ∈ Runs.run? (step characterByLine) start front) :
    dump.i = front.length := by
  induction front using List.reverseRecOn generalizing dump with
  | nil =>
    cases h
    rfl
  | append_singleton front c ih =>
    rw [Runs.run?_concat] at h
    obtain ⟨before, hbefore, hstep⟩ := Option.bind_eq_some_iff.mp h
    rw [step_i hstep, ih hbefore, List.length_append, List.length_singleton]

/-- The bytes are read to the end just when the offset of every line fits the buffer. -/
theorem isSome_run_iff : (Runs.run? (step characterByLine) start front).isSome ↔
    ∀ i < front.length, i % characterByLine = 0 → i ≤ 99999 := by
  induction front using List.reverseRecOn with
  | nil => exact iff_of_true rfl fun i hi => absurd hi (Nat.not_lt_zero i)
  | append_singleton front c ih =>
    rw [Runs.run?_concat, List.length_append, List.length_singleton, Nat.forall_lt_succ_right, ← ih]
    cases hrun : Runs.run? (step characterByLine) start front with
    | none => simp
    | some dump =>
      rw [Option.bind_some, isSome_step_iff, run_i hrun]
      exact (and_iff_right rfl).symm

end Dump

theorem forall_offset_le_iff {length characterByLine : Nat} :
    (∀ i < length, i % characterByLine = 0 → i ≤ 99999) ↔
      length = 0 ∨ (length - 1) / characterByLine * characterByLine ≤ 99999 := by
  constructor
  · intro h
    refine (Nat.eq_zero_or_pos length).imp_right fun hpos => ?_
    have hlast := Nat.div_mul_le_self (length - 1) characterByLine
    exact h _ (by omega) (Nat.mul_mod_left _ _)
  · rintro (rfl | hlast) i hi hmod
    · exact absurd hi (Nat.not_lt_zero i)
    · have hexact := Nat.div_mul_cancel (Nat.dvd_of_mod_eq_zero hmod)
      have hle : i / characterByLine ≤ (length - 1) / characterByLine :=
        Nat.div_le_div_right (by omega)
      have hmul := Nat.mul_le_mul_right characterByLine hle
      omega

/-! ## The length of a dump -/

namespace Dump

variable {dump dump' : Dump} {characterByLine : Nat} {front : Bytes}

/-- Every byte is shown as a character, and adds no more than thirteen characters. -/
structure Measured (dump : Dump) : Prop where
  atLeast : dump.i ≤ dump.result.length + dump.characters.length
  atMost : dump.result.length + dump.numbers.length + dump.characters.length ≤ 4 + 13 * dump.i

theorem Measured.pushed (h : dump.Measured) (c : UInt8) : (dump.pushed c).Measured := by
  have hatLeast := h.atLeast
  have hatMost := h.atMost
  constructor <;>
    simp only [Dump.pushed, formatByte, List.length_append, List.length_cons, List.length_nil] <;>
    omega

theorem measured_newLine_pushed {numbers : Bytes} (h : dump.Measured)
    (hnumbers : numbers.length + 1 ≤ 8) (c : UInt8) :
    ((dump.newLine numbers).pushed c).Measured := by
  have hatLeast := h.atLeast
  have hatMost := h.atMost
  have hend : (text "\n").length = 1 := by decide
  have hblank : (text " ").length = 1 := by decide
  rw [newLine]
  split <;> constructor <;>
    simp only [Dump.pushed, formatByte, List.length_append, List.length_cons, List.length_nil, hend,
      hblank] <;>
    omega

theorem step_measured (dump : Dump) (c : UInt8) (dump' : Dump) (h : dump.Measured)
    (hstep : dump' ∈ dump.step characterByLine c) : dump'.Measured := by
  obtain ⟨-, hoffset, rfl⟩ | ⟨-, rfl⟩ := step_cases hstep
  · exact measured_newLine_pushed h ((length_formatOffset_le dump.i).mpr hoffset) c
  · exact h.pushed c

theorem measured_start : start.Measured := ⟨by decide, by decide⟩

theorem run_measured (h : dump ∈ Runs.run? (step characterByLine) start front) : dump.Measured :=
  Runs.run?_invariant step_measured measured_start h

/-- What is shown, without the limit of a string. -/
def finished (characterByLine : Nat) (dump : Dump) : Bytes :=
  dump.result ++ text "\n" ++ dump.numbers ++ List.replicate (3 * dump.padding characterByLine) 32 ++
    text "  " ++ dump.characters

theorem finish_eq (characterByLine : Nat) (dump : Dump) : dump.finish characterByLine =
    if (dump.finished characterByLine).length < 2 ^ 63 then some (dump.finished characterByLine)
    else none := rfl

theorem length_finished (characterByLine : Nat) (dump : Dump) :
    (dump.finished characterByLine).length = dump.result.length + dump.numbers.length +
      dump.characters.length + 3 * dump.padding characterByLine + 3 := by
  have hend : (text "\n").length = 1 := by decide
  have hblanks : (text "  ").length = 2 := by decide
  simp only [finished, List.length_append, List.length_replicate, hend, hblanks]
  omega

/-- A line that a negative number of characters would fill is longer than any string. -/
theorem finish_eq_none (hline : 2 ^ 64 - 2 ^ 31 ≤ characterByLine)
    (hrun : dump ∈ Runs.run? (step characterByLine) start front) (hfront : front ≠ []) :
    dump.finish characterByLine = none := by
  have hatLeast := (run_measured hrun).atLeast
  have hpos : 0 < dump.i := (run_i hrun).symm ▸ List.length_pos_iff.mpr hfront
  refine (finish_eq _ _).trans (if_neg (Nat.not_lt.mpr ?_))
  rw [length_finished]
  rcases Nat.lt_or_ge dump.i (2 ^ 63) with hless | hge
  · have hpadding : dump.padding characterByLine = characterByLine - dump.i := by
      rw [padding, Nat.mod_eq_of_lt (by omega : dump.i < characterByLine)]
      exact Nat.mod_eq_of_lt (by omega)
    omega
  · omega

theorem finish_eq_some (hpos : 0 < characterByLine) (hline : characterByLine < 2 ^ 31)
    (hrun : dump ∈ Runs.run? (step characterByLine) start front)
    (hfront : front.length ≤ 100000 + characterByLine) :
    dump.finish characterByLine = some (dump.finished characterByLine) := by
  have hatMost := (run_measured hrun).atMost
  have hpadding : dump.padding characterByLine < characterByLine := Nat.mod_lt _ hpos
  rw [← run_i hrun] at hfront
  refine (finish_eq _ _).trans (if_pos ?_)
  rw [length_finished]
  omega

end Dump

/-! ## Every byte is shown once -/

/-- The lines behind the dump, and the one that it is filling, have shown the bytes in front. -/
structure Accounts (front : Bytes) (dump : Dump) (rows : List Row) (row : Row) : Prop where
  result : dump.result = text " ():" ++ rows.flatMap Row.print
  numbers : dump.numbers = formatOffset row.offset ++ row.bytes.flatMap formatByte
  characters : dump.characters = row.bytes.map shown
  shows_front : rows.flatMap Row.bytes ++ row.bytes = front
  placed : Placed 0 rows
  offset : row.offset = (rows.flatMap Row.bytes).length

namespace Accounts

variable {dump : Dump} {characterByLine : Nat} {front : Bytes} {rows : List Row} {row : Row}

/-- The line ends, with any number of blanks between its columns. -/
theorem concat_print (h : Accounts front dump rows row) (gap : Nat) :
    dump.result ++ (text "\n" ++ dump.numbers ++ List.replicate gap 32 ++ dump.characters) =
      text " ():" ++ (rows ++ [{ row with gap }]).flatMap Row.print := by
  rw [h.result, h.numbers, h.characters, List.flatMap_append, List.flatMap_singleton, Row.print]
  simp only [List.append_assoc]

theorem placed_concat_gap (h : Accounts front dump rows row) (gap : Nat) :
    Placed 0 (rows ++ [{ row with gap }]) :=
  placed_concat.mpr ⟨h.placed, by rw [Nat.zero_add]; exact h.offset⟩

theorem flatMap_concat_gap (h : Accounts front dump rows row) (gap : Nat) :
    (rows ++ [{ row with gap }]).flatMap Row.bytes = front := by
  rw [List.flatMap_append, List.flatMap_singleton]
  exact h.shows_front

theorem pushed (h : Accounts front dump rows row) (c : UInt8) :
    Accounts (front ++ [c]) (dump.pushed c) rows { row with bytes := row.bytes ++ [c] } where
  result := h.result
  numbers := by
    rw [Dump.pushed, h.numbers, List.flatMap_append, List.flatMap_singleton, List.append_assoc]
  characters := by rw [Dump.pushed, h.characters, List.map_append, List.map_singleton]
  shows_front := by rw [← List.append_assoc, h.shows_front]
  placed := h.placed
  offset := h.offset

theorem newLine (h : Accounts front dump rows row) (hi : dump.i = front.length) (hpos : 0 < dump.i) :
    Accounts front (dump.newLine (formatOffset dump.i)) (rows ++ [{ row with gap := 1 }])
      ⟨dump.i, [], 0⟩ := by
  rw [Dump.newLine, if_pos hpos]
  have hblank : text " " = List.replicate 1 32 := by decide
  refine ⟨?_, (List.append_nil _).symm, rfl, ?_, h.placed_concat_gap 1, ?_⟩
  · rw [← h.concat_print 1, hblank]
    simp only [List.append_assoc]
  · rw [h.flatMap_concat_gap 1, List.append_nil]
  · rw [h.flatMap_concat_gap 1, hi]

theorem start : Accounts [] (Dump.start.newLine (formatOffset 0)) [] ⟨0, [], 0⟩ :=
  ⟨rfl, rfl, rfl, rfl, trivial, rfl⟩

theorem shows_finished (h : Accounts front dump rows row) (characterByLine : Nat) :
    Shows front (dump.finished characterByLine) := by
  have hblanks : text "  " = List.replicate 2 32 := by decide
  refine ⟨_, ?_, h.flatMap_concat_gap (3 * dump.padding characterByLine + 2),
    h.placed_concat_gap _⟩
  rw [← h.concat_print, Dump.finished, hblanks, List.replicate_add]
  simp only [List.append_assoc]

end Accounts

theorem run_accounts {dump : Dump} {characterByLine : Nat} {front : Bytes}
    (h : dump ∈ Runs.run? (Dump.step characterByLine) Dump.start front) (hfront : front ≠ []) :
    ∃ rows row, Accounts front dump rows row := by
  induction front using List.reverseRecOn generalizing dump with
  | nil => exact absurd rfl hfront
  | append_singleton front c ih =>
    rw [Runs.run?_concat] at h
    obtain ⟨before, hbefore, hstep⟩ := Option.bind_eq_some_iff.mp h
    have hi := Dump.run_i hbefore
    rcases List.eq_nil_or_concat front with rfl | ⟨_, _, hne⟩
    · cases hbefore
      obtain ⟨-, -, rfl⟩ | ⟨hmod, -⟩ := Dump.step_cases hstep
      · exact ⟨_, _, Accounts.start.pushed c⟩
      · exact absurd (Nat.zero_mod characterByLine) hmod
    · have hpos : front ≠ [] := by simp [hne]
      obtain ⟨rows, row, haccounts⟩ := ih hbefore hpos
      obtain ⟨-, -, rfl⟩ | ⟨-, rfl⟩ := Dump.step_cases hstep
      · exact ⟨_, _, (haccounts.newLine hi (hi ▸ List.length_pos_iff.mpr hpos)).pushed c⟩
      · exact ⟨_, _, haccounts.pushed c⟩

variable {dataBlock result : Bytes} {characterByLine : Int32}

theorem applyDataBlock_of_pos (hblock : dataBlock ≠ []) (hpos : 1 ≤ characterByLine.toInt) :
    applyDataBlock dataBlock characterByLine =
      (Runs.run? (Dump.step characterByLine.toInt.toNat) Dump.start dataBlock).bind
        (Dump.finish characterByLine.toInt.toNat) := by
  have hless := characterByLine.toInt_lt
  have hsize : characterByLine.toInt % 2 ^ 64 = characterByLine.toInt :=
    Int.emod_eq_of_lt (by omega) (by omega)
  have hempty : ¬ dataBlock.isEmpty := List.isEmpty_iff.not.mpr hblock
  simp only [applyDataBlock, hsize]
  rw [if_neg hempty, if_neg (by omega)]

theorem applyDataBlock_eq_none (hblock : dataBlock ≠ []) (hnot : characterByLine.toInt < 1) :
    applyDataBlock dataBlock characterByLine = none := by
  have hle := characterByLine.le_toInt
  have hempty : ¬ dataBlock.isEmpty := List.isEmpty_iff.not.mpr hblock
  simp only [applyDataBlock]
  rw [if_neg hempty]
  split
  · rfl
  · refine Option.bind_eq_none_iff.mpr fun dump hrun => Dump.finish_eq_none ?_ hrun hblock
    omega

theorem applyDataBlock_isSome_iff : (applyDataBlock dataBlock characterByLine).isSome ↔
    Dumpable dataBlock characterByLine := by
  rcases eq_or_ne dataBlock [] with rfl | hblock
  · exact iff_of_true rfl (Or.inl rfl)
  rcases Int.lt_or_le characterByLine.toInt 1 with hnot | hpos
  · rw [applyDataBlock_eq_none hblock hnot]
    refine iff_of_false Bool.false_ne_true ?_
    rintro (hnil | ⟨hpos, -⟩)
    · exact hblock hnil
    · omega
  have hless := characterByLine.toInt_lt
  have hrun := (@Dump.isSome_run_iff characterByLine.toInt.toNat dataBlock).trans
    forall_offset_le_iff
  rw [List.length_eq_zero_iff] at hrun
  rw [applyDataBlock_of_pos hblock hpos, Dumpable, and_iff_right hpos, ← hrun]
  constructor
  · exact Option.isSome_of_isSome_bind
  · intro hsome
    obtain ⟨dump, hdump⟩ := Option.isSome_iff_exists.mp hsome
    have hlast := (hrun.mp hsome).resolve_left hblock
    have hrest := Nat.lt_div_mul_add (a := dataBlock.length - 1)
      (b := characterByLine.toInt.toNat) (by omega)
    rw [hdump, Option.bind_some, Dump.finish_eq_some (by omega) (by omega) hdump (by omega)]
    rfl

theorem shows_applyDataBlock (h : applyDataBlock dataBlock characterByLine = some result)
    (hblock : dataBlock ≠ []) : Shows dataBlock result := by
  have hpos : 1 ≤ characterByLine.toInt := by
    refine Int.not_lt.mp fun hnot => ?_
    rw [applyDataBlock_eq_none hblock hnot] at h
    cases h
  rw [applyDataBlock_of_pos hblock hpos] at h
  obtain ⟨dump, hrun, hfinish⟩ := Option.bind_eq_some_iff.mp h
  rw [Dump.finish_eq] at hfinish
  split at hfinish
  · obtain ⟨rows, row, haccounts⟩ := run_accounts hrun hblock
    cases hfinish
    exact haccounts.shows_finished _
  · cases hfinish

/-- The dump stays inside its buffer, and shows every byte once and in order in both columns, just when
the offset of the last line has no more than five digits. -/
theorem applyDataBlock_shows_iff (dataBlock : Bytes) (characterByLine : Int32) :
    (∃ result, applyDataBlock dataBlock characterByLine = some result ∧
      (dataBlock ≠ [] → Shows dataBlock result)) ↔ Dumpable dataBlock characterByLine := by
  rw [← applyDataBlock_isSome_iff, Option.isSome_iff_exists]
  constructor
  · rintro ⟨result, happly, -⟩
    exact ⟨result, happly⟩
  · rintro ⟨result, happly⟩
    exact ⟨result, happly, shows_applyDataBlock happly⟩

example : applyDataBlock (text "abc\n") 3 =
    some (text " ():\n   0: 61 62 63  abc\n   3: 0a         .") := by decide +kernel

theorem dumpable_default_iff (dataBlock : Bytes) :
    Dumpable dataBlock DefaultCharactersByLine ↔ dataBlock.length ≤ 100000 := by
  have hline : DefaultCharactersByLine.toInt.toNat = 16 := by decide
  have hpos : 1 ≤ DefaultCharactersByLine.toInt := by decide
  rw [Dumpable, hline, and_iff_right hpos, ← List.length_eq_zero_iff]
  omega

/-- With one byte more, a line begins at a hundred thousand. -/
theorem not_dumped : ¬ ∀ (dataBlock : Bytes) (characterByLine : Int32),
    ∃ result, applyDataBlock dataBlock characterByLine = some result ∧
      (dataBlock ≠ [] → Shows dataBlock result) := by
  intro hall
  obtain ⟨result, happly, -⟩ := hall (List.replicate 100001 0) DefaultCharactersByLine
  have hsome := Option.isSome_iff_exists.mpr ⟨result, happly⟩
  rw [applyDataBlock_isSome_iff, dumpable_default_iff, List.length_replicate] at hsome
  omega

end Coffee.Basis.AsString

/-! ## The buffer that is rejected -/

namespace Coffee.Xml.Document

open Coffee.Basis

/-- The parser of the library is given the size as an `int`. The error shows the buffer. -/
def parseMemory {Handler : Type*} (xmlParseMemory : Bytes → Int32 → Option Handler)
    (buffer : Bytes) : Option (Except RuntimeException Handler) :=
  match xmlParseMemory buffer (Int32.ofInt buffer.length) with
  | some handler => some (.ok handler)
  | none => (AsString.applyDataBlock buffer AsString.DefaultCharactersByLine).map fun dump =>
      .error ⟨text "Some errors were found while parsing memory: " ++ dump⟩

/-- A rejected buffer is reported just when it has no more than a hundred thousand bytes. -/
theorem parseMemory_isSome_iff {Handler : Type*} {xmlParseMemory : Bytes → Int32 → Option Handler}
    {buffer : Bytes} (hrejected : xmlParseMemory buffer (Int32.ofInt buffer.length) = none) :
    (parseMemory xmlParseMemory buffer).isSome ↔ buffer.length ≤ 100000 := by
  rw [parseMemory, hrejected, Option.isSome_map, AsString.applyDataBlock_isSome_iff,
    AsString.dumpable_default_iff]

end Coffee.Xml.Document
