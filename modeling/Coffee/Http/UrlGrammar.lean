import Coffee.Http.UrlBytes
import Coffee.Library.Delimited

/-! # What the URL parser reads

The positions of the parser against the pieces of the text: an authority is the token in front of
the first delimiter, and path, query and fragment are what is behind it.
-/

namespace Coffee.Http

open Coffee.Library Coffee.Library.Delimited Coffee.Basis

theorem find_append (s v : Bytes) (c : UInt8) :
    find (s ++ v) c s.length = (v.idxOf? c).map (· + s.length) := by
  rw [find, List.drop_left]

theorem find_eq_none_iff {s : Bytes} {c : UInt8} {pos : Nat} :
    find s c pos = none ↔ c ∉ s.drop pos := by
  simp only [find, Option.map_eq_none_iff, List.idxOf?_eq_none_iff]

/-- The text is the first part, or both parts with the delimiter between them. -/
theorem separate_cases (s : Bytes) (c : UInt8) :
    c ∉ (separate s c).1 ∧
      (s = (separate s c).1 ∧ (separate s c).2 = [] ∨
        s = (separate s c).1 ++ c :: (separate s c).2) := by
  by_cases h : c ∈ s
  · obtain ⟨t, rest, rfl, ht⟩ := List.eq_append_cons_of_mem h
    rw [separate_append ht]
    exact ⟨ht, .inr rfl⟩
  · rw [separate_of_not_mem h]
    exact ⟨h, .inl ⟨rfl, rfl⟩⟩

namespace URLParser

theorem firstDelimiter_append (s v delims : Bytes) :
    firstDelimiter (s ++ v) s.length delims = none ∧ token delims v = v ∨
      firstDelimiter (s ++ v) s.length delims = some (s.length + (token delims v).length) := by
  induction delims with
  | nil => exact .inl ⟨rfl, rfl⟩
  | cons delim delims ih =>
    rw [firstDelimiter]
    rcases token_cases delim delims v with ⟨t, rest, rfl, ht, htoken⟩ | ⟨hv, htoken⟩
    · have hfind : find (s ++ (t ++ delim :: rest)) delim s.length = some (s.length + t.length) := by
        have hhere := find_append_self ht rest
        rw [find_append, ← List.nil_append (t ++ delim :: rest)]
        rw [← List.nil_append (t ++ delim :: rest)] at hhere
        simp only [find, List.nil_append, List.drop_zero, Nat.add_zero, Option.map_id'] at hhere ⊢
        rw [hhere, Option.map_some, Nat.add_comm]
      rw [hfind, htoken]
      exact .inr rfl
    · have hfind : find (s ++ v) delim s.length = none := by
        rw [find_eq_none_iff, List.drop_left]
        exact hv
      rw [hfind, htoken]
      exact ih

theorem extractToken_append (s v delims : Bytes) :
    extractToken (s ++ v) s.length delims =
      (token delims v, s.length + (token delims v).length) := by
  unfold extractToken
  rcases firstDelimiter_append s v delims with ⟨hnone, htoken⟩ | hsome
  · rw [hnone, htoken]
    simp
  · rw [hsome]
    dsimp only
    rw [List.drop_left, Nat.add_sub_cancel_left,
      ← List.prefix_iff_eq_take.mp (token_front delims v)]

/-! ## Path, query and fragment -/

theorem readKeyValues_eq_ok_iff {residue : Bytes} {pairs : List Bytes} {query : Query} :
    readKeyValues residue pairs = .ok query ↔
      (∀ pair ∈ pairs, (separate pair 61).1 ≠ []) ∧ query = pairs.map (separate · 61) := by
  induction pairs generalizing query with
  | nil =>
    rw [readKeyValues, Except.ok.injEq]
    exact ⟨fun h => ⟨by simp, h.symm⟩, fun h => h.2.symm⟩
  | cons pair pairs ih =>
    rw [readKeyValues]
    dsimp only [bind, Except.bind, pure, Except.pure]
    by_cases hkey : (separate pair 61).1 = []
    · simp [hkey]
    · rw [if_neg (by simpa using hkey)]
      cases hrest : readKeyValues residue pairs with
      | error ex =>
        simp only [reduceCtorEq, false_iff]
        rintro ⟨hpairs, -⟩
        have hok := ih.mpr ⟨fun p hp => hpairs p (List.mem_cons_of_mem pair hp), rfl⟩
        rw [hrest] at hok
        cases hok
      | ok rest =>
        obtain ⟨hpairs, rfl⟩ := ih.mp hrest
        simp only [Except.ok.injEq, List.forall_mem_cons, List.map_cons]
        exact ⟨fun h => ⟨⟨hkey, hpairs⟩, h.symm⟩, fun h => h.2.symm⟩

/-- A text that is read as a path, a query and a fragment. -/
inductive ReadsTail : Bytes → Bytes → Query → Bytes → Prop where
  | plain {path fragment : Bytes} (path_question : 63 ∉ path) (path_hash : 35 ∉ path)
      (fragment_question : 63 ∉ fragment) (fragment_hash : fragment = [] ∨ fragment.head? = some 35) :
      ReadsTail (path ++ fragment) path [] fragment
  | question {path pairs fragment residue : Bytes} {query : Query} (path_question : 63 ∉ path)
      (pairs_hash : 35 ∉ pairs) (fragment_hash : fragment = [] ∨ fragment.head? = some 35)
      (keyValues : readKeyValues residue (split pairs 38) = .ok query) :
      ReadsTail (path ++ 63 :: (pairs ++ fragment)) path query fragment

/-- The token in front of a `#`, and the fragment that it leaves. -/
theorem token_hash {t fragment : Bytes} (ht : 35 ∉ t)
    (hfragment : fragment = [] ∨ fragment.head? = some 35) : token [35] (t ++ fragment) = t := by
  rcases hfragment with rfl | hhead
  · rw [List.append_nil]
    exact token_eq_self (by simpa using ht)
  · cases fragment with
    | nil => cases hhead
    | cons c fragment =>
      cases hhead
      exact token_append ht fragment

theorem token_hash_cases (s : Bytes) : ∃ t fragment, s = t ++ fragment ∧ 35 ∉ t ∧
    (fragment = [] ∨ fragment.head? = some 35) := by
  rcases token_cases 35 [] s with ⟨t, rest, rfl, ht, -⟩ | ⟨hs, -⟩
  · exact ⟨t, 35 :: rest, rfl, ht, .inr rfl⟩
  · exact ⟨s, [], by simp, hs, .inl rfl⟩

theorem readPath_append (s v : Bytes) (m : Components) :
    readPath (s ++ v) s.length m = (addOptionalComponent .Path (token [63, 35] v) m,
      s.length + (token [63, 35] v).length) := by
  unfold readPath
  split
  · rename_i hend
    have hv : v = [] := by
      rw [List.length_append] at hend
      exact List.length_eq_zero_iff.mp (by omega)
    rw [hv, token_nil]
    rfl
  · have hdelims : text "?#" = [63, 35] := by decide
    rw [hdelims, extractToken_append]

theorem readFragment_append (s v : Bytes) (m : Components) :
    readFragment (s ++ v) s.length m = addOptionalComponent .Fragment v m := by
  unfold readFragment
  split
  · rename_i hend
    have hv : v = [] := by
      rw [List.length_append] at hend
      exact List.length_eq_zero_iff.mp (by omega)
    rw [hv]
    rfl
  · rw [List.drop_left]

theorem readQuery_append_of_ne {s v : Bytes} (h : v.head? ≠ some 63) :
    readQuery (s ++ v) s.length = .ok ([], s.length) := by
  have hhead : (s ++ v)[s.length]? = v.head? := by
    rw [List.getElem?_append_right (Nat.le_refl _), Nat.sub_self, List.head?_eq_getElem?]
  unfold readQuery
  split
  · rfl
  · rw [hhead, if_pos h]

theorem readQuery_append (s v : Bytes) : readQuery (s ++ 63 :: v) s.length =
    (readKeyValues (strtokResidue 38 false (token [35] v)) (split (token [35] v) 38)).map
      fun query => (query, s.length + 1 + (token [35] v).length) := by
  have hdelims : text "#" = [35] := by decide
  have htoken := extractToken_append (s ++ [63]) v [35]
  rw [List.append_assoc, List.singleton_append, List.length_append, List.length_singleton] at htoken
  unfold readQuery
  rw [if_neg (by simp), if_neg (by simp), hdelims, htoken]
  dsimp only
  cases readKeyValues (strtokResidue 38 false (token [35] v)) (split (token [35] v) 38) <;> rfl

theorem readTail_eq_ok_iff (s v : Bytes) (m : Components) (url : URL) :
    readTail (s ++ v) s.length m = .ok url ↔ ∃ path query fragment,
      ReadsTail v path query fragment ∧
        url = ⟨addOptionalComponent .Fragment fragment (addOptionalComponent .Path path m),
          query⟩ := by
  have hplain : ∀ {path fragment : Bytes}, v = path ++ fragment → token [63, 35] v = path →
      fragment.head? ≠ some 63 → readTail (s ++ v) s.length m =
        .ok ⟨addOptionalComponent .Fragment fragment (addOptionalComponent .Path path m), []⟩ := by
    intro path fragment hv htoken hhead
    have hquery := readQuery_append_of_ne (s := s ++ path) hhead
    have hfragment := readFragment_append (s ++ path) fragment (addOptionalComponent .Path path m)
    rw [List.append_assoc, ← hv, List.length_append] at hquery hfragment
    simp only [readTail, readPath_append, htoken, hquery, bind, Except.bind, pure, Except.pure,
      hfragment]
  have hquestion : ∀ {path pairs fragment : Bytes}, v = path ++ 63 :: (pairs ++ fragment) →
      token [63, 35] v = path → token [35] (pairs ++ fragment) = pairs →
      readTail (s ++ v) s.length m = (readKeyValues (strtokResidue 38 false pairs)
        (split pairs 38)).map fun query =>
          ⟨addOptionalComponent .Fragment fragment (addOptionalComponent .Path path m), query⟩ := by
    intro path pairs fragment hv htoken hpairs
    have hquery := readQuery_append (s ++ path) (pairs ++ fragment)
    have hfragment := readFragment_append (s ++ path ++ 63 :: pairs) fragment
      (addOptionalComponent .Path path m)
    have hlength : (s ++ path ++ 63 :: pairs).length = s.length + path.length + 1 + pairs.length := by
      simp
      omega
    have htext : s ++ path ++ 63 :: pairs ++ fragment = s ++ v := by simp [hv]
    rw [hpairs, List.append_assoc, ← hv, List.length_append] at hquery
    rw [hlength, htext] at hfragment
    simp only [readTail, readPath_append, htoken, hquery, bind, Except.bind, pure, Except.pure]
    cases readKeyValues (strtokResidue 38 false pairs) (split pairs 38) with
    | error ex => rfl
    | ok query => simp [Except.map, hfragment]
  constructor
  · intro h
    rcases token_cases 63 [35] v with ⟨path, rest, rfl, hpath, htoken⟩ | ⟨hv, htoken⟩
    · obtain ⟨pairs, fragment, rfl, hpairs, hfragment⟩ := token_hash_cases rest
      rw [hquestion rfl htoken (token_hash hpairs hfragment)] at h
      cases hquery : readKeyValues (strtokResidue 38 false pairs) (split pairs 38) with
      | error ex =>
        rw [hquery] at h
        cases h
      | ok query =>
        rw [hquery] at h
        cases h
        exact ⟨path, query, fragment, .question hpath hpairs hfragment hquery, rfl⟩
    · obtain ⟨path, fragment, rfl, hpath, hfragment⟩ := token_hash_cases v
      rw [token_hash hpath hfragment] at htoken
      simp only [List.mem_append, not_or] at hv
      have hhead : fragment.head? ≠ some 63 := fun hhead => hv.2 (List.mem_of_mem_head? hhead)
      rw [hplain rfl htoken hhead] at h
      cases h
      exact ⟨path, [], fragment, .plain hv.1 hpath hv.2 hfragment, rfl⟩
  · rintro ⟨path, query, fragment, hreads, rfl⟩
    cases hreads with
    | plain hpath hpath' hfragment hfragment' =>
      have htoken : token [63, 35] (path ++ fragment) = path := by
        rw [token_of_not_mem (by simp [hpath, hfragment]), token_hash hpath' hfragment']
      exact hplain rfl htoken fun hhead => hfragment (List.mem_of_mem_head? hhead)
    | question hpath hpairs hfragment hkeyValues =>
      obtain ⟨hkeys, rfl⟩ := readKeyValues_eq_ok_iff.mp hkeyValues
      rw [hquestion rfl (token_append hpath _) (token_hash hpairs hfragment)]
      rw [readKeyValues_eq_ok_iff.mpr ⟨hkeys, rfl⟩]
      rfl

/-! ## The authority -/

/-- A text that is read as a host and a port. -/
structure ReadsEndPoint (s host port : Bytes) : Prop where
  separate : Http.separate s 58 = (host, port)
  host_ne_nil : host ≠ []
  port_numeric : port = [] ∨ isNumeric port = true

/-- A token that is read as an authority, with a search for `@` that begins at `start`. -/
inductive ReadsAuthority (start : Nat) (s : Bytes) : Bytes → Bytes → Bytes → Bytes → Prop where
  | endPoint {host port : Bytes} (at_sign : 64 ∉ s.drop start) (endPoint : ReadsEndPoint s host port) :
      ReadsAuthority start s [] [] host port
  | userInformation {host port : Bytes} (at_sign : 64 ∈ s.drop start)
      (endPoint : ReadsEndPoint (separate s 64).2 host port) :
      ReadsAuthority start s (separate (separate s 64).1 58).1 (separate (separate s 64).1 58).2
        host port

theorem verifyPortIsNumeric_cases (value : Bytes) :
    (value = [] ∨ isNumeric value = true) ∧ verifyPortIsNumeric value = .ok value ∨
      ¬ (value = [] ∨ isNumeric value = true) ∧ ∃ ex, verifyPortIsNumeric value = .error ex := by
  unfold verifyPortIsNumeric
  by_cases hempty : value = []
  · exact .inl ⟨.inl hempty, if_pos (by simpa using hempty)⟩
  · rw [if_neg (by simpa using hempty)]
    by_cases hnumeric : isNumeric value = true
    · exact .inl ⟨.inr hnumeric, if_pos hnumeric⟩
    · exact .inr ⟨by simp [hempty, hnumeric], _, if_neg hnumeric⟩

theorem readEndPoint_eq_ok_iff {m_url s : Bytes} {m m' : Components} :
    readEndPoint m_url s m = .ok m' ↔ ∃ host port, ReadsEndPoint s host port ∧
      m' = addOptionalComponent .Port port (Function.update m .Host (some host)) := by
  dsimp only [readEndPoint, addMandatoryComponent, bind, Except.bind, pure, Except.pure]
  by_cases hhost : (separate s 58).1 = []
  · rw [if_pos (by simpa using hhost)]
    constructor
    · intro h
      cases h
    · rintro ⟨host, port, hreads, -⟩
      rw [hreads.separate] at hhost
      exact absurd hhost hreads.host_ne_nil
  · rw [if_neg (by simpa using hhost)]
    dsimp only
    rcases verifyPortIsNumeric_cases (separate s 58).2 with ⟨hport, hok⟩ | ⟨hport, ex, herror⟩
    · rw [hok]
      constructor
      · intro h
        cases h
        exact ⟨_, _, ⟨rfl, hhost, hport⟩, rfl⟩
      · rintro ⟨host, port, hreads, rfl⟩
        rw [hreads.separate]
    · rw [herror]
      constructor
      · intro h
        cases h
      · rintro ⟨host, port, hreads, -⟩
        rw [hreads.separate] at hport
        exact absurd hreads.port_numeric hport

def authorityStart (withoutScheme : Bytes) : Nat :=
  match findText withoutScheme (text "//") 0 with
  | some pos => pos + 2
  | none => 0

theorem authorityStart_le (w : Bytes) : authorityStart w ≤ w.length := by
  have hslashes : text "//" = [47, 47] := by decide
  unfold authorityStart
  rw [findText, hslashes, List.drop_zero, search_pair]
  cases hposition : Cut.position 47 47 w with
  | none => exact Nat.zero_le _
  | some pos => exact Cut.position_lt hposition

/-- The components with an authority. -/
def withAuthority (user password host port : Bytes) (m : Components) : Components :=
  addOptionalComponent .Port port (Function.update
    (addOptionalComponent .Password password (addOptionalComponent .User user m)) .Host (some host))

theorem readAuthority_eq (m_url w : Bytes) (m : Components) :
    readAuthority m_url w m =
      let token := extractToken w (authorityStart w) (text "/?#")
      match find token.1 64 (authorityStart w) with
      | none => do return (← readEndPoint m_url token.1 m, token.2)
      | some _ => do
        let userInformation := separate (separate token.1 64).1 58
        let m := addOptionalComponent .User userInformation.1 m
        let m := addOptionalComponent .Password userInformation.2 m
        return (← readEndPoint m_url (separate token.1 64).2 m, token.2) := rfl

theorem readAuthority_eq_ok_iff {m_url w : Bytes} {m m' : Components} {endAuthority : Nat} :
    readAuthority m_url w m = .ok (m', endAuthority) ↔ ∃ user password host port,
      ReadsAuthority (authorityStart w) (token [47, 63, 35] (w.drop (authorityStart w)))
        user password host port ∧
      m' = withAuthority user password host port m ∧
      endAuthority =
        authorityStart w + (token [47, 63, 35] (w.drop (authorityStart w))).length := by
  have hdelims : text "/?#" = [47, 63, 35] := by decide
  have hlength : (w.take (authorityStart w)).length = authorityStart w := by
    rw [List.length_take, Nat.min_eq_left (authorityStart_le w)]
  have htoken := extractToken_append (w.take (authorityStart w)) (w.drop (authorityStart w))
    [47, 63, 35]
  rw [List.take_append_drop, hlength] at htoken
  rw [readAuthority_eq, hdelims, htoken]
  dsimp only [bind, Except.bind, pure, Except.pure]
  generalize token [47, 63, 35] (w.drop (authorityStart w)) = s
  cases hfind : find s 64 (authorityStart w) with
  | none =>
    have hat := find_eq_none_iff.mp hfind
    dsimp only
    constructor
    · intro h
      cases hend : readEndPoint m_url s m with
      | error ex =>
        rw [hend] at h
        cases h
      | ok components =>
        rw [hend] at h
        cases h
        obtain ⟨host, port, hreads, rfl⟩ := readEndPoint_eq_ok_iff.mp hend
        exact ⟨[], [], host, port, .endPoint hat hreads, rfl, rfl⟩
    · rintro ⟨user, password, host, port, hreads, rfl, rfl⟩
      cases hreads with
      | endPoint _ hend => rw [readEndPoint_eq_ok_iff.mpr ⟨host, port, hend, rfl⟩]; rfl
      | userInformation hmem => exact absurd hmem hat
  | some pos =>
    have hat : 64 ∈ s.drop (authorityStart w) := by
      by_contra hnot
      rw [find_eq_none_iff.mpr hnot] at hfind
      cases hfind
    dsimp only
    constructor
    · intro h
      split at h
      · cases h
      · rename_i components hend
        cases h
        obtain ⟨host, port, hreads, rfl⟩ := readEndPoint_eq_ok_iff.mp hend
        exact ⟨_, _, host, port, .userInformation hat hreads, rfl, rfl⟩
    · rintro ⟨user, password, host, port, hreads, rfl, rfl⟩
      cases hreads with
      | endPoint hnot => exact absurd hat hnot
      | userInformation _ hend => rw [readEndPoint_eq_ok_iff.mpr ⟨host, port, hend, rfl⟩]; rfl

theorem readTail_authority_iff {w rest : Bytes} {m : Components} {url : URL}
    (hrest : w.drop (authorityStart w) = token [47, 63, 35] (w.drop (authorityStart w)) ++ rest) :
    readTail w (authorityStart w + (token [47, 63, 35] (w.drop (authorityStart w))).length) m =
        .ok url ↔ ∃ path query fragment, ReadsTail rest path query fragment ∧
      url = ⟨addOptionalComponent .Fragment fragment (addOptionalComponent .Path path m), query⟩ := by
  have htail := readTail_eq_ok_iff
    (w.take (authorityStart w) ++ token [47, 63, 35] (w.drop (authorityStart w))) rest m url
  rw [List.append_assoc, ← hrest, List.take_append_drop, List.length_append, List.length_take,
    Nat.min_eq_left (authorityStart_le w)] at htail
  exact htail

/-! ## The whole text -/

/-- The pieces of a URL, empty where the component is absent. -/
structure Parts where
  scheme : Bytes
  user : Bytes
  password : Bytes
  host : Bytes
  port : Bytes
  path : Bytes
  query : Query
  fragment : Bytes

def Parts.piece (parts : Parts) : ComponentName → Bytes
  | .Scheme => parts.scheme
  | .User => parts.user
  | .Password => parts.password
  | .Host => parts.host
  | .Port => parts.port
  | .Path => parts.path
  | .Fragment => parts.fragment

def Parts.toURL (parts : Parts) : URL where
  m_components c := if (parts.piece c).isEmpty then none else some (parts.piece c)
  m_query := parts.query

/-- A text that is read as the pieces of a URL. -/
inductive Reads : Bytes → Parts → Prop where
  | path {s path fragment : Bytes} {query : Query} (slash : s.head? = some 47)
      (tail : ReadsTail s path query fragment) : Reads s ⟨[], [], [], [], [], path, query, fragment⟩
  | scheme {s scheme w user password host port rest path fragment : Bytes} {query : Query}
      (slash : s.head? ≠ some 47) (separate : Http.separate s 58 = (scheme, w))
      (scheme_ne_nil : scheme ≠ [])
      (authority : ReadsAuthority (authorityStart w)
        (token [47, 63, 35] (w.drop (authorityStart w))) user password host port)
      (rest_eq : w.drop (authorityStart w) = token [47, 63, 35] (w.drop (authorityStart w)) ++ rest)
      (tail : ReadsTail rest path query fragment) :
      Reads s ⟨scheme, user, password, host, port, path, query, fragment⟩

theorem addOptionalComponent_apply (name : ComponentName) (value : Bytes) (m : Components)
    (c : ComponentName) : addOptionalComponent name value m c =
      if c = name ∧ value ≠ [] then some value else m c := by
  unfold addOptionalComponent
  by_cases hvalue : value = []
  · simp [hvalue]
  · by_cases hc : c = name
    · subst hc
      simp [hvalue]
    · simp [hvalue, hc]

theorem ReadsAuthority.host_ne_nil {start : Nat} {s user password host port : Bytes}
    (h : ReadsAuthority start s user password host port) : host ≠ [] := by
  cases h with
  | endPoint _ hend => exact hend.host_ne_nil
  | userInformation _ hend => exact hend.host_ne_nil

theorem Parts.toURL_eq_scheme (parts : Parts) (hscheme : parts.scheme ≠ [])
    (hhost : parts.host ≠ []) : parts.toURL = ⟨addOptionalComponent .Fragment parts.fragment
      (addOptionalComponent .Path parts.path
        (withAuthority parts.user parts.password parts.host parts.port
          (Function.update (fun _ => none) .Scheme (some parts.scheme)))), parts.query⟩ := by
  unfold toURL withAuthority
  congr 1
  funext c
  cases c <;> simp [addOptionalComponent_apply, piece, hscheme, hhost, Function.update]

theorem Parts.toURL_eq_path {path fragment : Bytes} {query : Query} :
    Parts.toURL ⟨[], [], [], [], [], path, query, fragment⟩ =
      ⟨addOptionalComponent .Fragment fragment (addOptionalComponent .Path path fun _ => none),
        query⟩ := by
  unfold toURL
  congr 1
  funext c
  cases c <;> simp [addOptionalComponent_apply, piece]

/-- The parser accepts just the texts that are read as pieces, and returns the pieces. -/
theorem build_eq_ok_iff {s : Bytes} {url : URL} :
    build s = .ok url ↔ ∃ parts, Reads s parts ∧ url = parts.toURL := by
  have hhead : s[0]? = s.head? := List.head?_eq_getElem?.symm
  rw [build, hhead]
  by_cases hslash : s.head? = some 47
  · rw [if_pos hslash]
    have htail := readTail_eq_ok_iff [] s (fun _ => none) url
    rw [List.nil_append, List.length_nil] at htail
    rw [htail]
    constructor
    · rintro ⟨path, query, fragment, hreads, rfl⟩
      exact ⟨_, .path hslash hreads, Parts.toURL_eq_path.symm⟩
    · rintro ⟨parts, hreads, rfl⟩
      cases hreads with
      | path _ hreads => exact ⟨_, _, _, hreads, Parts.toURL_eq_path⟩
      | scheme hnot => exact absurd hslash hnot
  · rw [if_neg hslash]
    dsimp only [bind, Except.bind]
    generalize hseparate : separate s 58 = separation
    obtain ⟨scheme, w⟩ := separation
    dsimp only
    constructor
    · intro h
      split at h
      · cases h
      · rename_i m hscheme
        obtain ⟨hne, rfl⟩ := addMandatoryComponent_eq_ok hscheme
        split at h
        · cases h
        · rename_i result hauthority
          obtain ⟨m, endAuthority⟩ := result
          obtain ⟨user, password, host, port, hreads, rfl, rfl⟩ :=
            readAuthority_eq_ok_iff.mp hauthority
          obtain ⟨rest, hrest⟩ := token_front [47, 63, 35] (w.drop (authorityStart w))
          obtain ⟨path, query, fragment, htail, rfl⟩ :=
            (readTail_authority_iff hrest.symm).mp h
          refine ⟨⟨scheme, user, password, host, port, path, query, fragment⟩,
            .scheme hslash hseparate hne hreads hrest.symm htail, ?_⟩
          rw [Parts.toURL_eq_scheme _ hne hreads.host_ne_nil]
    · rintro ⟨parts, hreads, rfl⟩
      cases hreads with
      | path hyes => exact absurd hyes hslash
      | scheme _ hpieces hne hauthority hrest htail =>
        cases hseparate.symm.trans hpieces
        rw [addMandatoryComponent, if_neg (by simpa using hne)]
        dsimp only
        rw [readAuthority_eq_ok_iff.mpr ⟨_, _, _, _, hauthority, rfl, rfl⟩]
        exact (readTail_authority_iff hrest).mpr ⟨_, _, _, htail,
          Parts.toURL_eq_scheme _ hne hauthority.host_ne_nil⟩

end URLParser

end Coffee.Http
