import Coffee.Http.Codec

/-! # The tokens of a block

Reading tokens from the start of a block comes to its end, and the tokens are the block without the
line ends between them.
-/

namespace Coffee.Http.HttpProtocolDecoder

open Coffee.Library Coffee.Basis

/-- Repeated calls of `readToken`, each with the position behind it; `none` when there are more than
`fuel` of them. -/
def readTokens (dataBlock : Bytes) : (fuel currentPosition : Nat) → Option (List (Bytes × Nat))
  | 0, _ => none
  | fuel + 1, currentPosition =>
    match readToken dataBlock currentPosition with
    | none => some []
    | some (value, currentPosition) =>
      (readTokens dataBlock fuel currentPosition).map ((value, currentPosition) :: ·)

/-- The positions grow and stay in the block, and the tokens cut it at its line ends and nowhere
else. -/
structure Splits (dataBlock : Bytes) (tokens : List (Bytes × Nat)) : Prop where
  increasing : (0 :: tokens.map Prod.snd).Pairwise (· < ·)
  bounded : ∀ token ∈ tokens, token.2 ≤ dataBlock.length
  unbroken : ∀ token ∈ tokens, ¬ newLineCharacters <:+: token.1
  everyLineEnd : ∀ i, newLineCharacters <+: dataBlock.drop i → i + 2 ∈ tokens.map Prod.snd
  lossless : newLineCharacters.intercalate (tokens.map Prod.fst) ++
    (if newLineCharacters <:+ dataBlock then newLineCharacters else []) = dataBlock

structure ReadsFrom (dataBlock : Bytes) (pos : Nat) (tokens : List (Bytes × Nat)) : Prop where
  reads : ∀ fuel, dataBlock.length < fuel + pos → readTokens dataBlock fuel pos = some tokens
  values : tokens.map Prod.fst = Cut.cut 13 10 (dataBlock.drop pos)
  increasing : (pos :: tokens.map Prod.snd).Pairwise (· < ·)
  bounded : ∀ token ∈ tokens, token.2 ≤ dataBlock.length
  everyLineEnd : ∀ i, pos ≤ i → newLineCharacters <+: dataBlock.drop i →
    i + 2 ∈ tokens.map Prod.snd

variable {dataBlock : Bytes} {pos i : Nat} {tokens : List (Bytes × Nat)}

theorem readsFrom_end (dataBlock : Bytes) : ReadsFrom dataBlock dataBlock.length [] where
  reads fuel hfuel := by
    obtain ⟨fuel, rfl⟩ := Nat.exists_eq_add_one.mpr (by omega : 0 < fuel)
    rw [readTokens, readToken_end]
  values := by rw [List.drop_length]; rfl
  increasing := List.pairwise_singleton _ _
  bounded := List.forall_mem_nil _
  everyLineEnd i hi hprefix := by
    rw [List.drop_of_length_le hi] at hprefix
    exact absurd (List.prefix_nil.mp hprefix) (by decide)

theorem readsFrom_last (hpos : pos < dataBlock.length)
    (h : Cut.position 13 10 (dataBlock.drop pos) = none) :
    ReadsFrom dataBlock pos [(dataBlock.drop pos, dataBlock.length)] where
  reads fuel hfuel := by
    obtain ⟨fuel, rfl⟩ := Nat.exists_eq_add_one.mpr (by omega : 0 < fuel)
    rw [readTokens, readToken_last hpos h]
    simp [(readsFrom_end dataBlock).reads fuel (by omega)]
  values := by
    have hne : dataBlock.drop pos ≠ [] := by simpa using hpos
    rw [Cut.cut_of_position_none hne h]
    rfl
  increasing := by simpa using hpos
  bounded := by simp
  everyLineEnd i hi hprefix := by
    refine absurd ?_ (Cut.position_eq_none_iff.mp h)
    have hsuffix : dataBlock.drop i <:+ dataBlock.drop pos := by
      rw [← Nat.add_sub_cancel' hi, ← List.drop_drop]
      exact List.drop_suffix _ _
    exact hprefix.isInfix.trans hsuffix.isInfix

theorem readsFrom_next (hpos : pos ≤ dataBlock.length)
    (h : Cut.position 13 10 (dataBlock.drop pos) = some i)
    (hrest : ReadsFrom dataBlock (pos + (i + 2)) tokens) :
    ReadsFrom dataBlock pos (((dataBlock.drop pos).take i, pos + (i + 2)) :: tokens) where
  reads fuel hfuel := by
    obtain ⟨fuel, rfl⟩ := Nat.exists_eq_add_one.mpr (by omega : 0 < fuel)
    rw [readTokens, readToken_next h]
    simp [hrest.reads fuel (by omega)]
  values := by
    rw [Cut.cut_of_position_some h, List.drop_drop, List.map_cons, hrest.values]
  increasing := by
    have hincreasing := hrest.increasing
    have hbehind := (List.pairwise_cons.mp hincreasing).1
    refine List.pairwise_cons.mpr ⟨fun next hnext => ?_, hincreasing⟩
    rcases List.mem_cons.mp hnext with rfl | hnext
    · omega
    · exact Nat.lt_trans (by omega) (hbehind next hnext)
  bounded := by
    have hlt := Cut.position_lt h
    rw [List.length_drop] at hlt
    exact List.forall_mem_cons.mpr ⟨by omega, hrest.bounded⟩
  everyLineEnd j hj hprefix := by
    rw [← Nat.add_sub_cancel' hj, ← List.drop_drop] at hprefix
    rw [List.map_cons, List.mem_cons]
    rcases Cut.eq_or_behind_position (by decide) h hprefix with heq | hbehind
    · exact Or.inl (by omega)
    · rw [List.drop_drop, Nat.add_sub_cancel' hj] at hprefix
      exact Or.inr (hrest.everyLineEnd j (by omega) hprefix)

theorem exists_readsFrom (dataBlock : Bytes) {pos : Nat} (hpos : pos ≤ dataBlock.length) :
    ∃ tokens, ReadsFrom dataBlock pos tokens := by
  generalize hs : dataBlock.drop pos = s
  induction s using Cut.position_induction (a := (13 : UInt8)) (b := 10) generalizing pos with
  | hnil =>
    obtain rfl := Nat.le_antisymm hpos (List.drop_eq_nil_iff.mp hs)
    exact ⟨[], readsFrom_end dataBlock⟩
  | hlast s hne hnone =>
    subst hs
    have hlt : pos < dataBlock.length := by simpa using hne
    exact ⟨_, readsFrom_last hlt hnone⟩
  | hnext s i hposition ih =>
    subst hs
    have hlt := Cut.position_lt hposition
    rw [List.length_drop] at hlt
    have hnext : pos + (i + 2) ≤ dataBlock.length := by omega
    obtain ⟨tokens, hrest⟩ := ih hnext List.drop_drop.symm
    exact ⟨_, readsFrom_next hpos hposition hrest⟩

/-- Reading comes to the end of the block, whatever stands in it, and loses nothing of it. -/
theorem readTokens_splits (dataBlock : Bytes) : ∃ tokens,
    (∀ fuel, dataBlock.length < fuel → readTokens dataBlock fuel 0 = some tokens) ∧
      Splits dataBlock tokens := by
  obtain ⟨tokens, h⟩ := exists_readsFrom dataBlock (Nat.zero_le _)
  have hvalues : tokens.map Prod.fst = Cut.cut 13 10 dataBlock := h.values
  refine ⟨tokens, fun fuel hfuel => h.reads fuel hfuel, h.increasing, h.bounded,
    fun token htoken => ?_, fun i => h.everyLineEnd i (Nat.zero_le i), ?_⟩
  · refine Cut.not_infix_of_mem_cut dataBlock token.1 ?_
    rw [← hvalues]
    exact List.mem_map_of_mem htoken
  · rw [hvalues]
    exact Cut.intercalate_cut (by decide) dataBlock

end Coffee.Http.HttpProtocolDecoder
