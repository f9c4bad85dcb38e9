import Globe.Key.MnemonicRoundTrip

/-!
# Completing a mnemonic

`AddChecksum` decodes `3 * k - 1` words without the checksum, which packs
their `33 * k - 11` bits into `4 * k` bytes followed by `11 - k` zero bits,
encodes those bytes, and checks the result.  The encoding cuts the same bits
back into the same words (`take_encodeIndices_packFields`), so the words are
kept and one word is added.
-/

namespace Globe

open ByteCodec UB CString

variable {env : MnemonicEnv} {nLanguage : Int} {L : WordList}

theorem beValue_packFields {n : Nat} {xs : List Nat} (hxs : ∀ x ∈ xs, x < 2048)
    (hn : 11 * xs.length ≤ 8 * n) :
    beValue (packFields 11 n xs) = fieldsValue 11 xs * 2 ^ (8 * n - 11 * xs.length) := by
  have hF : fieldsValue 11 xs < 2 ^ (11 * xs.length) := fieldsValue_lt hxs
  rw [packFields, beValue_beBytes, Nat.mod_eq_of_lt]
  calc fieldsValue 11 xs * 2 ^ (8 * n - 11 * xs.length)
      < 2 ^ (11 * xs.length) * 2 ^ (8 * n - 11 * xs.length) :=
        Nat.mul_lt_mul_of_pos_right hF (Nat.two_pow_pos _)
    _ = 256 ^ n := by
        rw [← Nat.pow_add, Nat.add_sub_cancel' hn, Nat.pow_mul]

/-- The offsets `Encode` cuts from packed words begin with those words. -/
theorem take_encodeIndices_packFields (env : MnemonicEnv) {n : Nat} {xs : List Nat}
    (hxs : ∀ x ∈ xs, x < 2048) (hn : 11 * xs.length ≤ 8 * n)
    (hw : xs.length ≤ (n * 8 + n / 4 + 10) / 11) (hcs : n / 4 ≤ 256) :
    (encodeIndices env (packFields 11 n xs)).take xs.length = xs := by
  have hElen : (packFields 11 n xs).length = n := beBytes_length _ _
  have hcslen := checksumBytes_length (env.CSHA256 (packFields 11 n xs)) hcs
  have hidx : encodeIndices env (packFields 11 n xs) =
      (List.range ((n * 8 + n / 4 + 10) / 11)).map fun j => bitField
        (beValue (packFields 11 n xs ++ checksumBytes (env.CSHA256 (packFields 11 n xs)) (n / 4)))
        (8 * (n + 32)) (11 * j) 11 := by
    simp only [encodeIndices, hElen, List.length_append, hcslen]
  set vIn := packFields 11 n xs ++ checksumBytes (env.CSHA256 (packFields 11 n xs)) (n / 4)
  have hbound : beValue vIn < 2 ^ (8 * (n + 32)) := by
    have h := beValue_lt vIn
    rwa [List.length_append, hcslen, hElen, show (256 : Nat) = 2 ^ 8 by norm_num,
      ← Nat.pow_mul] at h
  -- the checksum bytes sit below the packed words
  have htop : beValue vIn / 2 ^ (8 * (n + 32) - 11 * xs.length) = fieldsValue 11 xs := by
    have hlow := beValue_lt (checksumBytes (env.CSHA256 (packFields 11 n xs)) (n / 4))
    rw [hcslen] at hlow
    rw [beValue_append, beValue_packFields hxs hn, hcslen,
      show 8 * (n + 32) - 11 * xs.length = (8 * n - 11 * xs.length) + 8 * 32 by omega,
      Nat.pow_add, Nat.pow_mul, show (2 : Nat) ^ 8 = 256 by norm_num, Nat.mul_assoc,
      Nat.add_comm, Nat.add_mul_div_right _ _ (by positivity),
      Nat.div_eq_of_lt (lt_of_lt_of_le hlow (Nat.le_mul_of_pos_left _ (Nat.two_pow_pos _))),
      Nat.zero_add]
  have hfields := @fieldsValue_bitFields 11 _ _ hbound xs.length (by omega)
  rw [htop] at hfields
  rw [hidx, ← List.map_take, List.take_range, Nat.min_eq_left hw]
  refine @fieldsValue_inj 11 _ _ (by simp) ?_ hxs hfields
  intro o ho
  obtain ⟨j, -, rfl⟩ := List.mem_map.mp ho
  exact bitField_lt _ _ _ 11

theorem encodeIndices_packFields (env : MnemonicEnv) {k : Nat} (hk : 4 ≤ k ∧ k ≤ 11)
    {xs : List Nat} (hxs : ∀ x ∈ xs, x < 2048) (hlen : xs.length = 3 * k - 1) :
    ∃ o < 2048, encodeIndices env (packFields 11 (4 * k) xs) = xs ++ [o] := by
  have hElen : (packFields 11 (4 * k) xs).length = 4 * k := beBytes_length _ _
  have hcount : (encodeIndices env (packFields 11 (4 * k) xs)).length = 3 * k := by
    rw [length_encodeIndices, hElen]
    omega
  have htake := take_encodeIndices_packFields env hxs (show 11 * xs.length ≤ 8 * (4 * k) by omega)
    (by omega) (by omega)
  obtain ⟨o, ho⟩ := List.length_eq_one_iff.mp
    (show ((encodeIndices env (packFields 11 (4 * k) xs)).drop xs.length).length = 1 by
      rw [List.length_drop, hcount, hlen]; omega)
  refine ⟨o, encodeIndices_lt env _ o (List.mem_of_mem_drop (ho ▸ List.mem_singleton_self o)), ?_⟩
  rw [← List.take_append_drop xs.length (encodeIndices env _), htake, ho]

theorem decodeWordInts_unchecked {k : Nat} (hk : 4 ≤ k ∧ k ≤ 11) {xs : List Nat}
    (hxs : ∀ x ∈ xs, x < 2048) (hlen : xs.length = 3 * k - 1) :
    decodeWordInts env xs true = .ok (packFields 11 (4 * k) xs) := by
  have hbytes : xs.length * 11 / 8 + (if xs.length * 11 % 8 = 0 then 0 else 1) = 4 * k := by
    rw [hlen]
    split <;> omega
  have hpack := @packWords_replicate (4 * k) xs hxs (by omega)
  simp only [decodeWordInts, hbytes, hpack, Bool.not_true, Bool.false_eq_true, false_and,
    if_false, if_true]
  rfl

theorem addChecksum_appends_word (hL : languageList env nLanguage = some L)
    (hnorm : env.NormalisesWords L) (hshort : ∀ w ∈ L.words, w.length ≤ 33) {ws : List Bytes}
    (hws : ∀ w ∈ ws, w ∈ L.words) {k : Nat} (hk : 4 ≤ k ∧ k ≤ 11) (hlen : ws.length = 3 * k - 1) :
    ∃ w ∈ L.words,
      AddChecksum env nLanguage ([32].intercalate ws) = .ok (mnemonicText nLanguage (ws ++ [w])) ∧
      Decode env nLanguage (mnemonicText nLanguage (ws ++ [w])) false =
        .ok (nLanguage, packFields 11 (4 * k) (ws.map L.index)) := by
  have hlang := ne_neg_one_of_languageList hL
  have hne : ws ≠ [] := by
    rintro rfl
    simp at hlen
    omega
  have hidx : ∀ o ∈ ws.map L.index, o < 2048 := by
    intro o ho
    obtain ⟨w, hw, rfl⟩ := List.mem_map.mp ho
    exact L.index_lt (hws w hw)
  have hspaced : ([32].intercalate ws).length < 2048 := by
    have h := length_intercalate_le (32 : UInt8) fun w hw => hshort w (hws w hw)
    omega
  have hunchecked : Decode env nLanguage ([32].intercalate ws) true =
      .ok (nLanguage, packFields 11 (4 * k) (ws.map L.index)) := by
    rw [decode_spaced hL hws hne (normaliseInput_spaced hnorm hws) hspaced,
      decodeWordInts_unchecked hk hidx (by rw [List.length_map, hlen])]
    rfl
  obtain ⟨o, ho, hcode⟩ := encodeIndices_packFields env hk hidx (by rw [List.length_map, hlen])
  have hwords : (encodeIndices env (packFields 11 (4 * k) (ws.map L.index))).map
      (L.words.getD · []) = ws ++ [L.words.getD o []] := by
    rw [hcode, List.map_append, List.map_map, List.map_singleton]
    congr 1
    conv_rhs => rw [← List.map_id ws]
    exact List.map_congr_left fun w hw => L.getD_index (hws w hw)
  have hElen : (packFields 11 (4 * k) (ws.map L.index)).length = 4 * k := beBytes_length _ _
  have hencode := encode_eq (e := packFields 11 (4 * k) (ws.map L.index)) hL
    (by rw [hElen]; omega) (by rw [hElen]; omega)
  rw [hwords] at hencode
  have hall : ∀ w ∈ ws ++ [L.words.getD o []], w ∈ L.words := by
    rw [← hwords]
    exact getD_encodeIndices_mem env L _
  have hlen' : ([32].intercalate (ws ++ [L.words.getD o []])).length < 2048 := by
    have h := length_intercalate_le (32 : UInt8) fun w hw => hshort w (hall w hw)
    rw [List.length_append, hlen, List.length_singleton] at h
    omega
  have hdecode := decode_encodedWords (e := packFields 11 (4 * k) (ws.map L.index)) hL hnorm
    (by rw [hElen]; omega) (by rw [hwords]; exact hlen') false
  rw [hwords, decodeWordInts_encodeIndices hElen ⟨by omega, by omega⟩] at hdecode
  refine ⟨L.words.getD o [], L.getD_mem ho, ?_, hdecode⟩
  simp only [AddChecksum, normaliseInput_spaced hnorm hws, hlang, if_false, hunchecked, ok_bind,
    hencode, hdecode]
  rfl

theorem addChecksum_eleven_words :
    ∃ w ∈ sampleWords.words,
      AddChecksum (sampleEnv zeroHash) 1 ([32].intercalate ((List.range 11).map sampleWord)) =
        .ok (mnemonicText 1 ((List.range 11).map sampleWord ++ [w])) ∧
      Decode (sampleEnv zeroHash) 1 (mnemonicText 1 ((List.range 11).map sampleWord ++ [w])) false =
        .ok (1, packFields 11 16 (((List.range 11).map sampleWord).map sampleWords.index)) := by
  have hws : ∀ w ∈ (List.range 11).map sampleWord, w ∈ sampleWords.words := by
    intro w hw
    obtain ⟨n, hn, rfl⟩ := List.mem_map.mp hw
    exact sampleWord_mem (by rw [List.mem_range] at hn; omega)
  exact addChecksum_appends_word (languageList_sampleEnv zeroHash)
    (sampleEnv_normalisesWords zeroHash) (fun w hw => by rw [(mem_sampleWords hw).1]; omega) hws
    (show 4 ≤ 4 ∧ 4 ≤ 11 by omega) (by simp)

end Globe
