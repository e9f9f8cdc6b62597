import Coffee.Basis.Text

/-! # Text helpers of the HTTP protocol

The tables and the three helpers of `http/protocol/defines.cc`. `split` is `strtok_r`: it works
on the C string and never returns an empty word.
-/

namespace Coffee.Http

open Coffee.Library Coffee.Basis

def newLineCharacters : Bytes := [13, 10]

def separate (string : Bytes) (delim : UInt8) : Bytes × Bytes :=
  match find string delim 0 with
  | some pos => (string.take pos, string.drop (pos + 1))
  | none => (string, [])

def split (string : Bytes) (delim : UInt8) : List Bytes :=
  ((cStr string).splitOn delim).filter (· ≠ [])

def isNumeric (str : Bytes) : Bool := if str.isEmpty then false else str.all Decimal.isDigit

theorem find_append_self {s : Bytes} {c : UInt8} (h : c ∉ s) (rest : Bytes) :
    find (s ++ c :: rest) c 0 = some s.length := by
  induction s with
  | nil => simp [find, List.idxOf?_cons]
  | cons x s ih =>
    have hxc : x ≠ c := fun e => h (by simp [e])
    have hs := ih fun hc => h (List.mem_cons_of_mem x hc)
    simp only [find, List.drop_zero, Nat.add_zero, Option.map_id'] at hs ⊢
    simp [List.idxOf?_cons, hxc, hs]

theorem find_eq_none {s : Bytes} {c : UInt8} (h : c ∉ s) (pos : Nat) : find s c pos = none := by
  simp only [find, Option.map_eq_none_iff, List.idxOf?_eq_none_iff]
  exact fun hc => h (List.mem_of_mem_drop hc)

theorem separate_of_not_mem {s : Bytes} {c : UInt8} (h : c ∉ s) : separate s c = (s, []) := by
  rw [separate, find_eq_none h]

theorem separate_append {s : Bytes} {c : UInt8} (h : c ∉ s) (rest : Bytes) :
    separate (s ++ c :: rest) c = (s, rest) := by
  rw [separate, find_append_self h]
  simp

theorem separate_subset (s : Bytes) (c : UInt8) :
    (separate s c).1 ⊆ s ∧ (separate s c).2 ⊆ s := by
  unfold separate
  split
  · exact ⟨List.take_subset _ _, List.drop_subset _ _⟩
  · exact ⟨fun _ h => h, List.nil_subset _⟩

theorem not_mem_intercalate {words : List Bytes} {c x : UInt8} (hwords : ∀ w ∈ words, x ∉ w)
    (hx : x ≠ c) : x ∉ [c].intercalate words := by
  induction words with
  | nil => simp [List.intercalate]
  | cons w words ih =>
    have hw := hwords w (by simp)
    have hrest := ih fun v hv => hwords v (by simp [hv])
    cases words with
    | nil => simpa [List.intercalate] using hw
    | cons v words =>
      simp only [List.intercalate, List.intersperse_cons_cons, List.flatten_cons] at hrest ⊢
      simp only [List.mem_append, List.mem_singleton, not_or]
      exact ⟨hw, hx, hrest⟩

/-- Words joined by single delimiters are split back into the same words. -/
theorem split_intercalate {words : List Bytes} {c : UInt8} (hne : words ≠ [])
    (hwords : ∀ w ∈ words, w ≠ [] ∧ c ∉ w ∧ 0 ∉ w) (hc : c ≠ 0) :
    split ([c].intercalate words) c = words := by
  have hNul : 0 ∉ [c].intercalate words := not_mem_intercalate (fun w hw => (hwords w hw).2.2) hc.symm
  rw [split, cStr_eq_self hNul, List.splitOn_intercalate c (fun l hl => (hwords l hl).2.1) hne]
  exact List.filter_eq_self.mpr fun w hw => by simpa using (hwords w hw).1

theorem isNumeric_iff {s : Bytes} :
    isNumeric s = true ↔ s ≠ [] ∧ ∀ c ∈ s, Decimal.isDigit c = true := by
  cases s <;> simp [isNumeric]

theorem isNumeric_encode (n : Nat) : isNumeric (Decimal.encode n) = true :=
  isNumeric_iff.mpr ⟨Decimal.encode_ne_nil n, fun _ => Decimal.isDigit_of_mem_encode⟩

end Coffee.Http
