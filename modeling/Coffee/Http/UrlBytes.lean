import Coffee.Http.Url
import Mathlib.Tactic.Common

/-! # Where the bytes of a URL come from

Every component of a parsed URL is a piece of the parsed text, and `encode` adds delimiters
only. So an encoding holds no byte the text did not hold, the delimiters apart, and it is never
empty.
-/

namespace Coffee.Http

open Coffee.Library Coffee.Basis

theorem splitOn_subset {s w : Bytes} {c : UInt8} (h : w ∈ s.splitOn c) : w ⊆ s := by
  induction s generalizing w with
  | nil => simp_all
  | cons x s ih =>
    rw [List.splitOn_cons_eq_if_modifyHead] at h
    split at h
    · rcases List.mem_cons.mp h with rfl | h
      · exact List.nil_subset _
      · exact List.Subset.trans (ih h) (List.subset_cons_self x s)
    · cases hs : s.splitOn c with
      | nil => exact absurd hs (List.splitOn_ne_nil c s)
      | cons p ps =>
        rw [hs, List.modifyHead_cons] at h
        rcases List.mem_cons.mp h with rfl | h
        · exact List.cons_subset_cons x (ih (by simp [hs]))
        · exact List.Subset.trans (ih (by simp [hs, h])) (List.subset_cons_self x s)

theorem not_mem_of_mem_splitOn {s w : Bytes} {c : UInt8} (h : w ∈ s.splitOn c) : c ∉ w := by
  induction s generalizing w with
  | nil => simp_all
  | cons x s ih =>
    rw [List.splitOn_cons_eq_if_modifyHead] at h
    split at h
    · rcases List.mem_cons.mp h with rfl | h
      · simp
      · exact ih h
    · rename_i hx
      cases hs : s.splitOn c with
      | nil => exact absurd hs (List.splitOn_ne_nil c s)
      | cons p ps =>
        rw [hs, List.modifyHead_cons] at h
        rcases List.mem_cons.mp h with rfl | h
        · rw [beq_iff_eq] at hx
          have hp : c ∉ p := ih (by simp [hs])
          simp [hp, Ne.symm hx]
        · exact ih (by simp [hs, h])

theorem split_subset {s w : Bytes} {c : UInt8} (h : w ∈ split s c) : w ⊆ s :=
  List.Subset.trans (splitOn_subset (List.mem_of_mem_filter h)) (List.takeWhile_subset _)

def Components.Within (m : Components) (s : Bytes) : Prop := ∀ c v, m c = some v → v ⊆ s

structure URL.Within (url : URL) (s : Bytes) : Prop where
  components : url.m_components.Within s
  query : ∀ pair ∈ url.m_query, pair.1 ⊆ s ∧ pair.2 ⊆ s

namespace URLParser

theorem Within.none (s : Bytes) : Components.Within (fun _ => none) s := by
  intro c v h
  cases h

theorem Within.update {m : Components} {s value : Bytes} (hm : m.Within s) (hv : value ⊆ s)
    (name : ComponentName) : Components.Within (Function.update m name (some value)) s := by
  intro c v h
  by_cases hc : c = name
  · subst hc
    rw [Function.update_self, Option.some.injEq] at h
    exact h ▸ hv
  · rw [Function.update_of_ne hc] at h
    exact hm c v h

theorem addMandatoryComponent_eq_ok {m_url value : Bytes} {name : ComponentName}
    {m m' : Components} (h : addMandatoryComponent m_url name value m = .ok m') :
    value ≠ [] ∧ m' = Function.update m name (some value) := by
  unfold addMandatoryComponent at h
  split at h
  · cases h
  · next hne => exact ⟨by simpa using hne, by cases h; rfl⟩

theorem addOptionalComponent_within {m : Components} {s value : Bytes} (hm : m.Within s)
    (hv : value ⊆ s) (name : ComponentName) : (addOptionalComponent name value m).Within s := by
  unfold addOptionalComponent
  split
  · exact hm
  · exact Within.update hm hv name

theorem addOptionalComponent_of_ne {m : Components} {value : Bytes} {name c : ComponentName}
    (hc : c ≠ name) : addOptionalComponent name value m c = m c := by
  unfold addOptionalComponent
  split
  · rfl
  · exact Function.update_of_ne hc _ _

theorem verifyPortIsNumeric_eq_ok {value port : Bytes} (h : verifyPortIsNumeric value = .ok port) :
    port = value := by
  unfold verifyPortIsNumeric at h
  split at h
  · cases h; rfl
  · split at h
    · cases h; rfl
    · cases h

theorem extractToken_subset (s : Bytes) (initpos : Nat) (delims : Bytes) :
    (extractToken s initpos delims).1 ⊆ s := by
  unfold extractToken
  split
  · exact List.drop_subset _ _
  · exact List.Subset.trans (List.take_subset _ _) (List.drop_subset _ _)

theorem readEndPoint_eq_ok {m_url s : Bytes} {m m' : Components}
    (h : readEndPoint m_url s m = .ok m') :
    (∀ c, c ≠ .Host → c ≠ .Port → m' c = m c) ∧ ∀ t, s ⊆ t → m.Within t → m'.Within t := by
  simp only [readEndPoint, bind, Except.bind, pure, Except.pure] at h
  split at h
  · cases h
  · next m₁ hhost =>
    split at h
    · cases h
    · next port hport =>
      obtain ⟨-, rfl⟩ := addMandatoryComponent_eq_ok hhost
      rw [verifyPortIsNumeric_eq_ok hport, Except.ok.injEq] at h
      subst h
      have hsub := separate_subset s 58
      constructor
      · intro c hHost hPort
        rw [addOptionalComponent_of_ne hPort, Function.update_of_ne hHost]
      · intro t ht hm
        exact addOptionalComponent_within
          (Within.update hm (List.Subset.trans hsub.1 ht) _) (List.Subset.trans hsub.2 ht) _

theorem readAuthority_eq_ok {m_url s : Bytes} {m m' : Components} {pos : Nat}
    (h : readAuthority m_url s m = .ok (m', pos)) :
    m' .Scheme = m .Scheme ∧ ∀ t, s ⊆ t → m.Within t → m'.Within t := by
  simp only [readAuthority, bind, Except.bind, pure, Except.pure] at h
  generalize htoken : extractToken s _ (text "/?#") = token at h
  have htoken := htoken ▸ extractToken_subset s _ (text "/?#")
  split at h
  · split at h
    · cases h
    · next hend =>
      obtain ⟨hkeep, hwithin⟩ := readEndPoint_eq_ok hend
      cases h
      exact ⟨hkeep _ (by decide) (by decide), fun t ht hm => hwithin t (List.Subset.trans htoken ht) hm⟩
  · split at h
    · cases h
    · next hend =>
      obtain ⟨hkeep, hwithin⟩ := readEndPoint_eq_ok hend
      cases h
      have hat := separate_subset token.1 64
      have hcolon := separate_subset (separate token.1 64).1 58
      constructor
      · rw [hkeep _ (by decide) (by decide), addOptionalComponent_of_ne (by decide),
          addOptionalComponent_of_ne (by decide)]
      · intro t ht hm
        have htoken := List.Subset.trans htoken ht
        have huser := List.Subset.trans hcolon.1 (List.Subset.trans hat.1 htoken)
        have hpassword := List.Subset.trans hcolon.2 (List.Subset.trans hat.1 htoken)
        exact hwithin t (List.Subset.trans hat.2 htoken)
          (addOptionalComponent_within (addOptionalComponent_within hm huser _) hpassword _)

theorem readKeyValues_within {residue t : Bytes} {pairs : List Bytes} {query : Query}
    (h : readKeyValues residue pairs = .ok query) (hpairs : ∀ p ∈ pairs, p ⊆ t) :
    ∀ pair ∈ query, pair.1 ⊆ t ∧ pair.2 ⊆ t := by
  induction pairs generalizing query with
  | nil =>
    cases h
    simp
  | cons p pairs ih =>
    simp only [readKeyValues, bind, Except.bind, pure, Except.pure] at h
    split at h
    · cases h
    · split at h
      · cases h
      · next rest hrest =>
        cases h
        intro pair hpair
        rcases List.mem_cons.mp hpair with rfl | hpair
        · have hsub := separate_subset p 61
          have hp := hpairs p (by simp)
          exact ⟨List.Subset.trans hsub.1 hp, List.Subset.trans hsub.2 hp⟩
        · exact ih hrest (fun q hq => hpairs q (by simp [hq])) pair hpair

theorem readQuery_within {s t : Bytes} {endPrevious pos : Nat} {query : Query}
    (h : readQuery s endPrevious = .ok (query, pos)) (hs : s ⊆ t) :
    ∀ pair ∈ query, pair.1 ⊆ t ∧ pair.2 ⊆ t := by
  simp only [readQuery, bind, Except.bind, pure, Except.pure] at h
  split at h
  · cases h
    simp
  · split at h
    · cases h
      simp
    · split at h
      · cases h
      · next hpairs =>
        cases h
        refine readKeyValues_within hpairs fun p hp => ?_
        exact List.Subset.trans (split_subset hp) (List.Subset.trans (extractToken_subset _ _ _) hs)

theorem readPath_within {s t : Bytes} {endPrevious : Nat} {m : Components} (hs : s ⊆ t)
    (hm : m.Within t) : (readPath s endPrevious m).1.Within t := by
  unfold readPath
  split
  · exact hm
  · exact addOptionalComponent_within hm (List.Subset.trans (extractToken_subset _ _ _) hs) _

theorem readFragment_within {s t : Bytes} {endPrevious : Nat} {m : Components} (hs : s ⊆ t)
    (hm : m.Within t) : (readFragment s endPrevious m).Within t := by
  unfold readFragment
  split
  · exact hm
  · exact addOptionalComponent_within hm (List.Subset.trans (List.drop_subset _ _) hs) _

theorem readTail_eq_ok {s : Bytes} {endPrevious : Nat} {m : Components} {url : URL}
    (h : readTail s endPrevious m = .ok url) :
    (∀ c, c ≠ .Fragment → url.m_components c = (readPath s endPrevious m).1 c) ∧
      ∀ t, s ⊆ t → m.Within t → url.Within t := by
  simp only [readTail, bind, Except.bind, pure, Except.pure] at h
  split at h
  · cases h
  · next hquery =>
    cases h
    constructor
    · intro c hc
      unfold readFragment
      split
      · rfl
      · exact addOptionalComponent_of_ne hc
    · intro t hs hm
      exact ⟨readFragment_within hs (readPath_within hs hm), readQuery_within hquery hs⟩

theorem readPath_of_ne {s : Bytes} {endPrevious : Nat} {m : Components} {c : ComponentName}
    (hc : c ≠ .Path) : (readPath s endPrevious m).1 c = m c := by
  unfold readPath
  split
  · rfl
  · exact addOptionalComponent_of_ne hc

theorem firstDelimiter_ne_zero {c : UInt8} {s delims : Bytes} (h : c ∉ delims) :
    firstDelimiter (c :: s) 0 delims ≠ some 0 := by
  induction delims with
  | nil => simp [firstDelimiter]
  | cons d delims ih =>
    have hcd : c ≠ d := fun e => h (by simp [e])
    have hfind : find (c :: s) d 0 = (s.idxOf? d).map (· + 1) := by
      simp only [find, List.drop_zero, List.idxOf?_cons, beq_iff_eq, hcd, if_false, Option.map_map]
      rfl
    rw [firstDelimiter, hfind]
    cases s.idxOf? d with
    | none => exact ih fun hc => h (List.mem_cons_of_mem d hc)
    | some i => simp

theorem readPath_of_slash {s : Bytes} {m : Components} (h : s[0]? = some 47) :
    ∃ v, v ≠ [] ∧ (readPath s 0 m).1 .Path = some v := by
  cases s with
  | nil => cases h
  | cons c s =>
    obtain rfl : c = 47 := by simpa using h
    have htoken : (extractToken (47 :: s) 0 (text "?#")).1 ≠ [] := by
      unfold extractToken
      split
      · simp
      · next pos hpos =>
        have hpos' : pos ≠ 0 := by
          rintro rfl
          exact firstDelimiter_ne_zero (by decide) hpos
        obtain ⟨n, rfl⟩ := Nat.exists_eq_succ_of_ne_zero hpos'
        simp
    refine ⟨_, htoken, ?_⟩
    rw [readPath, if_neg (by simp)]
    simp only [addOptionalComponent, List.isEmpty_iff, if_neg htoken, Function.update_self]

theorem build_within {m_url : Bytes} {url : URL} (h : build m_url = .ok url) :
    url.Within m_url := by
  simp only [build, bind, Except.bind] at h
  split at h
  · exact (readTail_eq_ok h).2 _ (List.Subset.refl _) (Within.none _)
  · split at h
    · cases h
    · next hscheme =>
      split at h
      · cases h
      · next hauth =>
        obtain ⟨-, rfl⟩ := addMandatoryComponent_eq_ok hscheme
        have hsub := separate_subset m_url 58
        have hwithin := (readAuthority_eq_ok hauth).2 _ hsub.2
          (Within.update (Within.none _) hsub.1 _)
        exact (readTail_eq_ok h).2 _ hsub.2 hwithin

/-- A parsed URL has a scheme or a path. -/
theorem build_nonempty {m_url : Bytes} {url : URL} (h : build m_url = .ok url) :
    ∃ c v, (c = .Scheme ∨ c = .Path) ∧ v ≠ [] ∧ url.m_components c = some v := by
  simp only [build, bind, Except.bind] at h
  split at h
  · next hslash =>
    obtain ⟨v, hv, hpath⟩ := readPath_of_slash (m := fun _ => none) hslash
    exact ⟨.Path, v, Or.inr rfl, hv, by rw [(readTail_eq_ok h).1 _ (by decide), hpath]⟩
  · split at h
    · cases h
    · next hscheme =>
      split at h
      · cases h
      · next hauth =>
        obtain ⟨hv, rfl⟩ := addMandatoryComponent_eq_ok hscheme
        refine ⟨.Scheme, _, Or.inl rfl, hv, ?_⟩
        rw [(readTail_eq_ok h).1 _ (by decide), readPath_of_ne (by decide),
          (readAuthority_eq_ok hauth).1, Function.update_self]

end URLParser

namespace URL

def delimiters : Bytes := [58, 47, 64, 63, 38, 61]

theorem part_subset {url : URL} {s : Bytes} (h : url.Within s) (c : ComponentName)
    {before after : Bytes} (hbefore : before ⊆ delimiters) (hafter : after ⊆ delimiters) :
    url.part c before after ⊆ s ++ delimiters := by
  unfold part
  split
  · next v hv =>
    have hv := h.components c v hv
    grind
  · exact List.nil_subset _

theorem encodePair_subset {s : Bytes} {pair : Bytes × Bytes} (h : pair.1 ⊆ s ∧ pair.2 ⊆ s) :
    encodePair pair ⊆ s ++ delimiters := by
  have heq : text "=" ⊆ delimiters := by decide
  unfold encodePair
  grind

theorem encodeQuery_subset {s : Bytes} {query : Query} (isFirst : Bool)
    (h : ∀ pair ∈ query, pair.1 ⊆ s ∧ pair.2 ⊆ s) : encodeQuery isFirst query ⊆ s ++ delimiters := by
  induction query generalizing isFirst with
  | nil => exact List.nil_subset _
  | cons pair query ih =>
    have hpair := encodePair_subset (h pair (by simp))
    have hrest := ih false fun p hp => h p (by simp [hp])
    have hmark : (if isFirst then text "?" else text "&") ⊆ delimiters := by
      cases isFirst <;> decide
    rw [encodeQuery]
    grind

theorem encode_subset {url : URL} {s : Bytes} (h : url.Within s) :
    url.encode ⊆ s ++ delimiters := by
  have hnil : ([] : Bytes) ⊆ delimiters := List.nil_subset _
  have hat : (if url.hasComponent .User || url.hasComponent .Password then text "@" else []) ⊆
      s ++ delimiters := by
    split
    · exact List.subset_append_of_subset_right s (by decide)
    · exact List.nil_subset _
  simp only [encode, List.append_subset]
  refine ⟨⟨⟨⟨⟨⟨⟨⟨?_, ?_⟩, ?_⟩, hat⟩, ?_⟩, ?_⟩, ?_⟩, encodeQuery_subset true h.query⟩, ?_⟩
  · exact part_subset h _ hnil (by decide)
  · exact part_subset h _ hnil hnil
  · exact part_subset h _ (by decide) hnil
  · exact part_subset h _ hnil hnil
  · exact part_subset h _ (by decide) hnil
  · exact part_subset h _ hnil hnil
  · exact part_subset h _ hnil hnil

theorem part_ne_nil {url : URL} {c : ComponentName} {v : Bytes} (h : url.m_components c = some v)
    (hv : v ≠ []) (before after : Bytes) : url.part c before after ≠ [] := by
  simp [part, h, hv]

theorem encode_ne_nil {m_url : Bytes} {url : URL} (h : URLParser.build m_url = .ok url) :
    url.encode ≠ [] := by
  obtain ⟨c, v, hc, hv, hcv⟩ := URLParser.build_nonempty h
  rcases hc with rfl | rfl
  · simp [encode, part_ne_nil hcv hv]
  · simp [encode, part_ne_nil hcv hv]

theorem not_mem_encode {m_url : Bytes} {url : URL} {b : UInt8}
    (h : URLParser.build m_url = .ok url) (hb : b ∉ m_url) (hd : b ∉ delimiters) :
    b ∉ url.encode := fun hmem => by
  rcases List.mem_append.mp (encode_subset (URLParser.build_within h) hmem) with h' | h'
  · exact hb h'
  · exact hd h'

end URL

end Coffee.Http
