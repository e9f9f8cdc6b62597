import Mathlib.Data.List.Perm.Basic
import Mathlib.Data.List.Count

/-! # Mixing codes by exclusive or

The mix of a list depends on the elements that stand in it an odd number of times, and on nothing
else.
-/

namespace Coffee.Library

def mix (codes : List UInt64) : UInt64 := codes.foldr (· ^^^ ·) 0

namespace Mix

variable {α : Type*} {codes codes' : List UInt64}

@[simp] theorem mix_nil : mix [] = 0 := rfl

@[simp] theorem mix_cons (code : UInt64) (codes : List UInt64) :
    mix (code :: codes) = code ^^^ mix codes := rfl

theorem foldl_xor (seed : UInt64) (codes : List UInt64) :
    codes.foldl (· ^^^ ·) seed = seed ^^^ mix codes := by
  induction codes generalizing seed with
  | nil => simp
  | cons code codes ih => rw [List.foldl_cons, ih, mix_cons, UInt64.xor_assoc]

theorem mix_append (codes codes' : List UInt64) :
    mix (codes ++ codes') = mix codes ^^^ mix codes' := by
  induction codes with
  | nil => simp
  | cons code codes ih => rw [List.cons_append, mix_cons, mix_cons, ih, UInt64.xor_assoc]

theorem mix_perm (h : codes.Perm codes') : mix codes = mix codes' := by
  induction h with
  | nil => rfl
  | cons code _ ih => rw [mix_cons, mix_cons, ih]
  | swap code code' codes =>
    rw [mix_cons, mix_cons, mix_cons, mix_cons, ← UInt64.xor_assoc, ← UInt64.xor_assoc,
      UInt64.xor_comm code]
  | trans _ _ ih ih' => exact ih.trans ih'

section Parity

variable [BEq α]

theorem mix_indicator (a : α) (as : List α) :
    mix (as.map fun b => if b == a then 1 else 0) = if as.count a % 2 = 1 then 1 else 0 := by
  induction as with
  | nil => rfl
  | cons b as ih =>
    rw [List.map_cons, mix_cons, ih, List.count_cons]
    cases b == a with
    | true =>
      rw [if_pos rfl, if_pos rfl]
      rcases Nat.mod_two_eq_zero_or_one (as.count a) with h | h
      · rw [if_neg (by omega), if_pos (by omega), UInt64.xor_zero]
      · rw [if_pos h, if_neg (by omega), UInt64.xor_self]
    | false =>
      rw [if_neg Bool.false_ne_true, if_neg Bool.false_ne_true, UInt64.zero_xor, Nat.add_zero]

variable [LawfulBEq α]

/-- Elements that come in pairs cancel out. -/
theorem mix_eq_zero_of_even (f : α → UInt64) {as : List α} (h : ∀ a, as.count a % 2 = 0) :
    mix (as.map f) = 0 := by
  induction hlength : as.length using Nat.strongRecOn generalizing as with
  | _ n ih =>
    cases as with
    | nil => rfl
    | cons a as =>
      have hcount := h a
      rw [List.count_cons_self] at hcount
      have hmem : a ∈ as := List.count_pos_iff.mp (by omega)
      have hperm := (List.perm_cons_erase hmem).map f
      have hrest : mix ((as.erase a).map f) = 0 := by
        refine ih (as.erase a).length ?_ (fun b => ?_) rfl
        · rw [List.length_erase_of_mem hmem, ← hlength, List.length_cons]
          omega
        · have hb := h b
          rw [List.count_cons] at hb
          rcases Decidable.em (a == b) with hab | hab
          · rw [if_pos hab] at hb
            rw [← eq_of_beq hab, List.count_erase_self]
            rw [← eq_of_beq hab] at hb
            omega
          · rw [if_neg hab, Nat.add_zero] at hb
            rwa [List.count_erase_of_ne fun hba => hab (by rw [hba, beq_self_eq_true])]
      rw [List.map_cons, mix_cons, mix_perm hperm, List.map_cons, mix_cons, hrest, UInt64.xor_zero,
        UInt64.xor_self]

/-- Two lists mix alike, whatever their elements are coded to, just when each element stands in both
an even or in both an odd number of times. -/
theorem forall_mix_eq_iff {as bs : List α} :
    (∀ f : α → UInt64, mix (as.map f) = mix (bs.map f)) ↔
      ∀ a, as.count a % 2 = bs.count a % 2 := by
  constructor
  · intro h a
    have hmix := h fun b => if b == a then 1 else 0
    rw [mix_indicator, mix_indicator] at hmix
    split at hmix <;> split at hmix
    · omega
    · cases hmix
    · cases hmix
    · omega
  · intro h f
    have hzero := @mix_eq_zero_of_even α _ _ f (as ++ bs) fun a => by
      rw [List.count_append, Nat.add_mod, h a]
      omega
    rwa [List.map_append, mix_append, UInt64.xor_eq_zero_iff] at hzero

end Parity

end Mix

end Coffee.Library
