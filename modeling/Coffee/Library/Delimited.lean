import Mathlib.Data.List.Infix
import Mathlib.Data.List.TakeWhile

/-! # Tokens in front of a delimiter

A token ends at the first occurrence of the first delimiter that occurs at all, however early the
other delimiters stand.
-/

namespace Coffee.Library.Delimited

universe u

variable {α : Type u} [DecidableEq α]

def token : List α → List α → List α
  | [], s => s
  | delim :: delims, s => if delim ∈ s then s.takeWhile (· ≠ delim) else token delims s

variable {delim : α} {delims s t rest : List α}

theorem takeWhile_append_delim (h : delim ∉ t) (rest : List α) :
    (t ++ delim :: rest).takeWhile (· ≠ delim) = t := by
  have hall : ∀ a ∈ t, decide (a ≠ delim) = true := by
    intro a ha
    simpa using fun hd : a = delim => h (hd ▸ ha)
  rw [List.takeWhile_append_of_pos hall, List.takeWhile_cons_of_neg (by simp), List.append_nil]

theorem token_append (h : delim ∉ t) (rest : List α) :
    token (delim :: delims) (t ++ delim :: rest) = t := by
  rw [token, if_pos (by simp), takeWhile_append_delim h]

theorem token_of_not_mem (h : delim ∉ s) : token (delim :: delims) s = token delims s := by
  rw [token, if_neg h]

theorem token_cases (delim : α) (delims s : List α) :
    (∃ t rest, s = t ++ delim :: rest ∧ delim ∉ t ∧ token (delim :: delims) s = t) ∨
      delim ∉ s ∧ token (delim :: delims) s = token delims s := by
  by_cases h : delim ∈ s
  · obtain ⟨t, rest, rfl, ht⟩ := List.eq_append_cons_of_mem h
    exact .inl ⟨t, rest, rfl, ht, token_append ht rest⟩
  · exact .inr ⟨h, token_of_not_mem h⟩

theorem token_front (delims s : List α) : token delims s <+: s := by
  induction delims with
  | nil => exact List.prefix_refl s
  | cons delim delims ih =>
    rcases token_cases delim delims s with ⟨t, rest, rfl, -, htoken⟩ | ⟨-, htoken⟩
    · rw [htoken]
      exact List.prefix_append t _
    · rw [htoken]
      exact ih

theorem not_mem_token (h : delim ∉ s) : delim ∉ token delims s := fun hmem =>
  h ((token_front delims s).subset hmem)

/-- The first delimiter never stands in a token. -/
theorem not_mem_token_cons (delim : α) (delims s : List α) : delim ∉ token (delim :: delims) s := by
  rcases token_cases delim delims s with ⟨t, rest, -, ht, htoken⟩ | ⟨hs, -⟩
  · rwa [htoken]
  · exact not_mem_token hs

theorem token_eq_self (h : ∀ delim ∈ delims, delim ∉ s) : token delims s = s := by
  induction delims with
  | nil => rfl
  | cons delim delims ih =>
    rw [token_of_not_mem (h delim List.mem_cons_self)]
    exact ih fun d hd => h d (List.mem_cons_of_mem delim hd)

theorem token_nil (delims : List α) : token delims [] = [] := token_eq_self fun _ _ => by simp

end Coffee.Library.Delimited
