import Coffee.Http.Codec

/-! # Reading back an encoded first line

The first line is made of words separated by single blanks, so the decoder's `split` finds the
words the encoder wrote.
-/

namespace Coffee.Http

open Coffee.Library Coffee.Basis HttpProtocolState

/-- Words separated by single blanks, free of CR, LF and NUL. -/
def IsPhrase (s : Bytes) : Prop :=
  ∃ words : List Bytes, s = [32].intercalate words ∧
    ∀ w ∈ words, w ≠ [] ∧ ∀ c ∈ w, c ≠ 32 ∧ c ≠ 13 ∧ c ≠ 10 ∧ c ≠ 0

theorem not_mem_encodeVersion (message : HttpMessage) {c : UInt8}
    (hdigit : Decimal.isDigit c = false) (hname : c ∉ text "HTTP/") (hdot : c ∉ text ".") :
    c ∉ message.encodeVersion := by
  simp only [HttpMessage.encodeVersion, asString_natCast, List.mem_append, not_or]
  exact ⟨⟨⟨hname, Decimal.not_mem_encode hdigit⟩, hdot⟩, Decimal.not_mem_encode hdigit⟩

theorem versionNumber_encode (n : UInt16) : versionNumber (Decimal.encode n.toNat) = n := by
  have hlt := n.toNat_lt
  rw [versionNumber, atoi, atol_encode (by omega), Int32.ofInt_eq_ofNat, Int32.toUInt32_ofNat',
    UInt32.toUInt16_ofNat', UInt16.ofNat_toNat]

theorem tryHttpVersion_encodeVersion (message : HttpMessage) :
    tryHttpVersion message.encodeVersion =
      some (message.m_majorVersion, message.m_minorVersion) := by
  have hversion : message.encodeVersion = text "HTTP" ++ 47 ::
      (Decimal.encode message.m_majorVersion.toNat ++ 46 ::
        Decimal.encode message.m_minorVersion.toNat) := by
    simp only [HttpMessage.encodeVersion, asString_natCast, List.append_assoc]
    rfl
  have hdot : (46 : UInt8) ∉ Decimal.encode message.m_majorVersion.toNat :=
    Decimal.not_mem_encode (by decide)
  rw [tryHttpVersion, hversion, separate_append (by decide), separate_append hdot]
  simp [isNumeric_encode, versionNumber_encode]

theorem encodeVersion_http (message : HttpMessage) :
    strncasecmp message.encodeVersion (text "http") 4 = true := by
  have hnul : 0 ∉ message.encodeVersion := not_mem_encodeVersion message (by decide) (by decide) (by decide)
  rw [strncasecmp, cStr_eq_self hnul]
  rfl

theorem tryMessage_fresh {value : Bytes} {message : HttpMessage}
    (h : tryMessage value = .ok (some message)) :
    ∃ derived major minor, message = .instantiate derived major minor := by
  unfold tryMessage at h
  split at h
  · next response hresponse =>
    cases h
    unfold tryResponse at hresponse
    grind [HttpResponse.instantiate]
  · unfold tryRequest at h
    split at h
    · split at h
      · simp only [HttpRequest.instantiate, bind, Except.bind, pure, Except.pure] at h
        split at h <;> grind
      · cases h
    · cases h

theorem tryMethod_asString (method : HttpRequest.Method) :
    tryMethod method.asString = some method := by
  cases method <;> decide

theorem method_word (method : HttpRequest.Method) :
    (method.asString ≠ [] ∧ 32 ∉ method.asString ∧ 0 ∉ method.asString ∧ 13 ∉ method.asString) ∧
      strncasecmp method.asString (text "http") 4 = false := by
  cases method <;> decide

theorem encodeVersion_word (message : HttpMessage) :
    message.encodeVersion ≠ [] ∧ 32 ∉ message.encodeVersion ∧ 0 ∉ message.encodeVersion ∧
      13 ∉ message.encodeVersion := by
  refine ⟨by simp [HttpMessage.encodeVersion, text], ?_, ?_, ?_⟩
  all_goals exact not_mem_encodeVersion message (by decide) (by decide) (by decide)

theorem tryMessage_request {message : HttpMessage} {method : HttpRequest.Method} {url : URL}
    (hderived : message.derived = .request method url) (hne : url.encode ≠ [])
    (hblank : 32 ∉ url.encode) (hnul : 0 ∉ url.encode)
    (hbuild : URLParser.build url.encode = .ok url) :
    tryMessage message.encodeFirstLine = .ok (some (.instantiate (.request method url)
      message.m_majorVersion message.m_minorVersion)) := by
  obtain ⟨⟨hmethod, hmblank, hmnul, -⟩, hhttp⟩ := method_word method
  obtain ⟨hversion, hvblank, hvnul, -⟩ := encodeVersion_word message
  have hline : message.encodeFirstLine =
      [32].intercalate [method.asString, url.encode, message.encodeVersion] := by
    rw [HttpMessage.encodeFirstLine, hderived]
    simp [List.intercalate, text]
  have hsplit : split message.encodeFirstLine 32 =
      [method.asString, url.encode, message.encodeVersion] := by
    rw [hline]
    refine split_intercalate (by simp) (fun w hw => ?_) (by decide)
    simp only [List.mem_cons, List.not_mem_nil, or_false] at hw
    rcases hw with rfl | rfl | rfl
    · exact ⟨hmethod, hmblank, hmnul⟩
    · exact ⟨hne, hblank, hnul⟩
    · exact ⟨hversion, hvblank, hvnul⟩
  rw [tryMessage, hsplit]
  simp only [tryResponse, hhttp, tryRequest, tryMethod_asString, tryHttpVersion_encodeVersion,
    HttpRequest.instantiate, hbuild, bind, Except.bind, pure, Except.pure, UInt16.toUInt16_toUInt32]
  rfl

theorem tryMessage_response {message : HttpMessage} {code : Int32} {words : List Bytes}
    (hcode : 0 ≤ code.toInt) (hne : words ≠ [])
    (hwords : ∀ w ∈ words, w ≠ [] ∧ 32 ∉ w ∧ 0 ∉ w) :
    tryMessage (message.encodeVersion ++ text " " ++ asString code.toInt ++ text " " ++
        [32].intercalate words) =
      .ok (some (HttpResponse.instantiate message.m_majorVersion message.m_minorVersion code
        ([32].intercalate words))) := by
  obtain ⟨hversion, hvblank, hvnul, -⟩ := encodeVersion_word message
  obtain ⟨n, hn⟩ := Int.eq_ofNat_of_zero_le hcode
  have hnumber : asString code.toInt = Decimal.encode n := by rw [hn, asString_natCast]
  have hatoi : atoi (Decimal.encode n) = code := by
    have hlt := code.toInt_lt
    rw [atoi, atol_encode (by omega), ← hn, Int32.ofInt_toInt]
  obtain ⟨w, rest, rfl⟩ := List.exists_cons_of_ne_nil hne
  have hline : message.encodeVersion ++ text " " ++ asString code.toInt ++ text " " ++
      [32].intercalate (w :: rest) =
      [32].intercalate (message.encodeVersion :: Decimal.encode n :: w :: rest) := by
    simp [List.intercalate, hnumber, text]
  rw [tryMessage, hline, split_intercalate (by simp) ?_ (by decide)]
  · simp [tryResponse, encodeVersion_http, tryHttpVersion_encodeVersion, isNumeric_encode, hatoi,
      pure, Except.pure]
  · intro v hv
    simp only [List.mem_cons] at hv
    rcases hv with rfl | rfl | hv
    · exact ⟨hversion, hvblank, hvnul⟩
    · exact ⟨Decimal.encode_ne_nil _, Decimal.not_mem_encode (by decide),
        Decimal.not_mem_encode (by decide)⟩
    · exact hwords v (List.mem_cons.mpr hv)

theorem reasons_phrase : ∀ entry ∈ HttpResponse.reasons, IsPhrase entry.2 ∧ entry.2 ≠ [] := by
  -- A quantifier over the bytes of a word may be decided for each of the 256 bytes, `all` is not.
  have hsplit : ∀ entry ∈ HttpResponse.reasons, entry.2 = [32].intercalate (split entry.2 32) ∧
      entry.2 ≠ [] ∧ ∀ w ∈ split entry.2 32, w ≠ [] ∧
        w.all (fun c => c != 32 && (c != 13 && (c != 10 && c != 0))) = true := by
    decide +kernel
  intro entry hentry
  obtain ⟨hwords, hne, hclean⟩ := hsplit entry hentry
  refine ⟨⟨_, hwords, fun w hw => ⟨(hclean w hw).1, fun c hc => ?_⟩⟩, hne⟩
  simpa using List.all_eq_true.mp (hclean w hw).2 c hc

theorem reason_phrase (code : Int32) {description : Bytes} (h : IsPhrase description) :
    IsPhrase (HttpResponse.reason code description) ∧ HttpResponse.reason code description ≠ [] := by
  unfold HttpResponse.reason
  split
  · cases hlookup : HttpResponse.reasons.lookup code with
    | none =>
      exact ⟨⟨[text "Unknown"], rfl, by decide +kernel⟩, by decide +kernel⟩
    | some phrase =>
      obtain ⟨l₁, l₂, hmem, -⟩ := List.lookup_eq_some_iff.mp hlookup
      exact reasons_phrase (code, phrase) (by simp [hmem])
  · next hne =>
    obtain ⟨words, hphrase, hclean⟩ := h
    have hnul : 0 ∉ description := by
      rw [hphrase]
      exact not_mem_intercalate (fun w hw hc => (hclean w hw).2 0 hc |>.2.2.2 rfl) (by decide)
    rw [cStr_eq_self hnul]
    exact ⟨⟨words, hphrase, hclean⟩, by simpa using hne⟩

end Coffee.Http
