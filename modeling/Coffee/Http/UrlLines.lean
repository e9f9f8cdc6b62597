import Coffee.Http.Splitting
import Coffee.Http.UrlRoundTrip

/-! # URLs of one line

Every piece of a URL stands in the text as it is, and `encode` puts the pieces together with
delimiters. So the encoding ends a line only if the text does.
-/

namespace Coffee.Http

open Coffee.Library Coffee.Library.Delimited Coffee.Basis

theorem not_endsLine_of_isInfix {s t : Bytes} (h : ¬ EndsLine t) (hst : s <:+: t) : ¬ EndsLine s :=
  fun hs => h (List.IsInfix.trans hs hst)

theorem not_endsLine_append_cons {c : UInt8} (hcr : c ≠ 13) (hlf : c ≠ 10) {s rest : Bytes}
    (hs : ¬ EndsLine s) (hrest : ¬ EndsLine rest) : ¬ EndsLine (s ++ c :: rest) := by
  rw [endsLine_append hcr hlf]
  exact not_or.mpr ⟨hs, hrest⟩

/-- What stands behind is empty or begins with a delimiter. -/
theorem not_endsLine_append_head (c : UInt8) (hcr : c ≠ 13) (hlf : c ≠ 10) {s rest : Bytes}
    (hs : ¬ EndsLine s) (hrest : ¬ EndsLine rest) (hhead : rest = [] ∨ rest.head? = some c) :
    ¬ EndsLine (s ++ rest) := by
  rcases hhead with rfl | hhead
  · rwa [List.append_nil]
  · obtain ⟨rest, rfl⟩ := List.head?_eq_some_iff.mp hhead
    exact not_endsLine_append_cons hcr hlf hs
      (not_endsLine_of_isInfix hrest (List.suffix_cons c rest).isInfix)

theorem isInfix_separate (s : Bytes) (c : UInt8) :
    (separate s c).1 <:+: s ∧ (separate s c).2 <:+: s := by
  unfold separate
  split
  · exact ⟨(List.take_prefix _ s).isInfix, (List.drop_suffix _ s).isInfix⟩
  · exact ⟨List.infix_rfl, (List.nil_prefix).isInfix⟩

/-- The first piece is in front of the text, and the others are in it. -/
theorem splitOn_pieces {s w : Bytes} {ws : List Bytes} {c : UInt8} (h : s.splitOn c = w :: ws) :
    w <+: s ∧ ∀ v ∈ ws, v <:+: s := by
  induction s generalizing w ws with
  | nil =>
    rw [List.splitOn_nil, List.cons.injEq] at h
    obtain ⟨rfl, rfl⟩ := h
    exact ⟨List.prefix_rfl, by simp⟩
  | cons x s ih =>
    rw [List.splitOn_cons_eq_if_modifyHead] at h
    cases hs : s.splitOn c with
    | nil => exact absurd hs (List.splitOn_ne_nil c s)
    | cons p ps =>
      obtain ⟨hp, hps⟩ := ih hs
      have hinfix : ∀ v, v <:+: s → v <:+: x :: s := fun v hv =>
        hv.trans (List.suffix_cons x s).isInfix
      rw [hs] at h
      split at h
      · rw [List.cons.injEq] at h
        obtain ⟨rfl, rfl⟩ := h
        refine ⟨List.nil_prefix, fun v hv => hinfix v ?_⟩
        rcases List.mem_cons.mp hv with rfl | hv
        · exact hp.isInfix
        · exact hps v hv
      · rw [List.modifyHead_cons, List.cons.injEq] at h
        obtain ⟨rfl, rfl⟩ := h
        exact ⟨List.cons_prefix_cons.mpr ⟨rfl, hp⟩, fun v hv => hinfix v (hps v hv)⟩

theorem isInfix_split {s w : Bytes} {c : UInt8} (h : w ∈ split s c) : w <:+: s := by
  have hcStr : cStr s <+: s := List.takeWhile_prefix _
  have hmem := List.mem_of_mem_filter h
  refine List.IsInfix.trans ?_ hcStr.isInfix
  cases hs : (cStr s).splitOn c with
  | nil => exact absurd hs (List.splitOn_ne_nil c _)
  | cons p ps =>
    obtain ⟨hp, hps⟩ := splitOn_pieces hs
    rw [hs] at hmem
    rcases List.mem_cons.mp hmem with rfl | hmem
    · exact hp.isInfix
    · exact hps w hmem

namespace URLParser

/-- No piece ends a line. -/
structure Parts.OneLine (parts : Parts) : Prop where
  scheme : ¬ EndsLine parts.scheme
  user : ¬ EndsLine parts.user
  password : ¬ EndsLine parts.password
  host : ¬ EndsLine parts.host
  port : ¬ EndsLine parts.port
  path : ¬ EndsLine parts.path
  query : ∀ pair ∈ parts.query, ¬ EndsLine pair.1 ∧ ¬ EndsLine pair.2
  fragment : ¬ EndsLine parts.fragment

variable {s path fragment user password host port : Bytes} {query : Query} {parts : Parts}

theorem ReadsTail.pieces (h : ReadsTail s path query fragment) :
    path <:+: s ∧ fragment <:+: s ∧ ∀ pair ∈ query, pair.1 <:+: s ∧ pair.2 <:+: s := by
  cases h with
  | plain => exact ⟨(List.prefix_append _ _).isInfix, (List.suffix_append _ _).isInfix, by simp⟩
  | @question path pairs fragment residue _ _ _ _ hkeyValues =>
    have hpairs : pairs <:+: path ++ 63 :: (pairs ++ fragment) :=
      ⟨path ++ [63], fragment, by simp⟩
    have hfragment : fragment <:+: path ++ 63 :: (pairs ++ fragment) :=
      ⟨path ++ 63 :: pairs, [], by simp⟩
    refine ⟨(List.prefix_append _ _).isInfix, hfragment, fun pair hpair => ?_⟩
    obtain ⟨-, rfl⟩ := readKeyValues_eq_ok_iff.mp hkeyValues
    obtain ⟨word, hword, rfl⟩ := List.mem_map.mp hpair
    have hword := (isInfix_split hword).trans hpairs
    have hsub := isInfix_separate word 61
    exact ⟨hsub.1.trans hword, hsub.2.trans hword⟩

theorem ReadsAuthority.pieces {start : Nat} (h : ReadsAuthority start s user password host port) :
    user <:+: s ∧ password <:+: s ∧ host <:+: s ∧ port <:+: s := by
  have hnil : ([] : Bytes) <:+: s := List.nil_prefix.isInfix
  cases h with
  | endPoint _ hend =>
    have hsub := isInfix_separate s 58
    rw [hend.separate] at hsub
    exact ⟨hnil, hnil, hsub.1, hsub.2⟩
  | userInformation _ hend =>
    have hat := isInfix_separate s 64
    have huser := isInfix_separate (separate s 64).1 58
    have hsub := isInfix_separate (separate s 64).2 58
    rw [hend.separate] at hsub
    exact ⟨huser.1.trans hat.1, huser.2.trans hat.1, hsub.1.trans hat.2, hsub.2.trans hat.2⟩

theorem Reads.oneLine (h : Reads s parts) (hs : ¬ EndsLine s) : parts.OneLine := by
  have hpiece : ∀ {piece}, piece <:+: s → ¬ EndsLine piece := not_endsLine_of_isInfix hs
  cases h with
  | path _ htail =>
    obtain ⟨hpath, hfragment, hquery⟩ := htail.pieces
    have hnil : ¬ EndsLine [] := by decide
    exact ⟨hnil, hnil, hnil, hnil, hnil, hpiece hpath,
      fun pair hpair => ⟨hpiece (hquery pair hpair).1, hpiece (hquery pair hpair).2⟩,
      hpiece hfragment⟩
  | @scheme _ w _ _ _ _ rest _ _ _ _ hseparate _ hauthority hrest htail =>
    have hsub := isInfix_separate s 58
    rw [hseparate] at hsub
    obtain ⟨hscheme, hw⟩ := hsub
    have hdrop := (List.drop_suffix (authorityStart w) w).isInfix.trans hw
    have htoken := (token_front [47, 63, 35] (w.drop (authorityStart w))).isInfix.trans hdrop
    have hbehind : rest <:+: s := by
      refine List.IsInfix.trans ?_ hdrop
      rw [hrest]
      exact (List.suffix_append _ _).isInfix
    obtain ⟨huser, hpassword, hhost, hport⟩ := hauthority.pieces
    obtain ⟨hpath, hfragment, hquery⟩ := htail.pieces
    refine ⟨hpiece hscheme, hpiece (huser.trans htoken), hpiece (hpassword.trans htoken),
      hpiece (hhost.trans htoken), hpiece (hport.trans htoken), hpiece (hpath.trans hbehind),
      fun pair hpair => ?_, hpiece (hfragment.trans hbehind)⟩
    exact ⟨hpiece ((hquery pair hpair).1.trans hbehind), hpiece ((hquery pair hpair).2.trans hbehind)⟩

namespace Parts.OneLine

theorem encodeQuery (h : parts.OneLine) : ¬ EndsLine (URL.encodeQuery true parts.query) := by
  have hquestion : text "?" = [63] := by decide
  have hand : text "&" = [38] := by decide
  have hequals : text "=" = [61] := by decide
  have hnil : ¬ EndsLine [] := by decide
  suffices hall : ∀ (query : Query) (isFirst : Bool),
      (∀ pair ∈ query, ¬ EndsLine pair.1 ∧ ¬ EndsLine pair.2) →
        ¬ EndsLine (URL.encodeQuery isFirst query) from hall parts.query true h.query
  intro query
  induction query with
  | nil => exact fun _ _ => hnil
  | cons pair query ih =>
    intro isFirst hquery
    obtain ⟨hpair, hrest⟩ := List.forall_mem_cons.mp hquery
    have hpair : ¬ EndsLine (URL.encodePair pair) := by
      rw [URL.encodePair, hequals, List.append_assoc]
      split
      · exact hpair.1
      · exact not_endsLine_append_cons (by decide) (by decide) hpair.1 hpair.2
    have hbehind : ¬ EndsLine (URL.encodePair pair ++ URL.encodeQuery false query) := by
      refine not_endsLine_append_head 38 (by decide) (by decide) hpair (ih false hrest) ?_
      cases query with
      | nil => exact .inl rfl
      | cons other query =>
        rw [URL.encodeQuery, if_neg Bool.false_ne_true, hand]
        exact .inr rfl
    rw [URL.encodeQuery, List.append_assoc, hquestion, hand]
    cases isFirst
    · exact not_endsLine_append_cons (s := []) (by decide) (by decide) hnil hbehind
    · exact not_endsLine_append_cons (s := []) (by decide) (by decide) hnil hbehind

theorem tail (h : parts.OneLine) (valid : parts.Valid) : ¬ EndsLine parts.tail := by
  have hbehind : ¬ EndsLine (URL.encodeQuery true parts.query ++ parts.fragment) :=
    not_endsLine_append_head 35 (by decide) (by decide) h.encodeQuery h.fragment
      valid.fragment
  unfold Parts.tail
  by_cases hquery : parts.query = []
  · rw [hquery] at hbehind ⊢
    exact not_endsLine_append_head 35 (by decide) (by decide) h.path hbehind valid.fragment
  · refine not_endsLine_append_head 63 (by decide) (by decide) h.path hbehind (.inr ?_)
    rw [encodeQuery_eq hquery]
    rfl

theorem authority (h : parts.OneLine) : ¬ EndsLine parts.authority := by
  have hendPoint : ¬ EndsLine parts.endPoint := by
    unfold Parts.endPoint
    split
    · rw [List.append_nil]
      exact h.host
    · exact not_endsLine_append_cons (by decide) (by decide) h.host h.port
  have huser : ¬ EndsLine parts.userInformation := by
    unfold Parts.userInformation
    split
    · rw [List.append_nil]
      exact h.user
    · exact not_endsLine_append_cons (by decide) (by decide) h.user h.password
  unfold Parts.authority
  split
  · rename_i hempty
    rw [List.isEmpty_iff.mp hempty]
    exact hendPoint
  · exact not_endsLine_append_cons (by decide) (by decide) huser hendPoint

theorem encode (h : parts.OneLine) (valid : parts.Valid) : ¬ EndsLine parts.toURL.encode := by
  have hbehind : ¬ EndsLine (parts.authority ++ parts.tail) := by
    have htail := h.tail valid
    rcases valid.path_slash with hpath | hpath
    · by_cases hquery : parts.query = []
      · refine not_endsLine_append_head 35 (by decide) (by decide) h.authority htail ?_
        rw [Parts.tail, hpath, hquery]
        exact valid.fragment
      · refine not_endsLine_append_head 63 (by decide) (by decide) h.authority htail (.inr ?_)
        rw [Parts.tail, hpath, encodeQuery_eq hquery]
        rfl
    · refine not_endsLine_append_head 47 (by decide) (by decide) h.authority htail (.inr ?_)
      obtain ⟨path, hcons⟩ := List.head?_eq_some_iff.mp hpath
      rw [Parts.tail, hcons]
      rfl
  rw [encode_toURL]
  split
  · exact hbehind
  · rw [List.append_assoc]
    refine not_endsLine_append_cons (by decide) (by decide) h.scheme ?_
    exact not_endsLine_append_cons (s := [47]) (by decide) (by decide) (by decide) hbehind

end Parts.OneLine

end URLParser

/-- The encoding of a parsed text of one line has one line. -/
theorem URL.not_endsLine_encode {s : Bytes} {url : URL} (h : URLParser.build s = .ok url)
    (hs : ¬ EndsLine s) : ¬ EndsLine url.encode := by
  obtain ⟨parts, hreads, rfl⟩ := URLParser.build_eq_ok_iff.mp h
  exact (hreads.oneLine hs).encode hreads.valid

end Coffee.Http
