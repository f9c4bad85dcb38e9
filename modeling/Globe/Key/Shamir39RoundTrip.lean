import Globe.Key.Shamir39Field
import Globe.Key.MnemonicRoundTrip

/-!
# Combining the shares of a split

`combinemnemonic` reads each share back: the version word, the word offsets,
the parameter words up to the first without the run-on bit, whose five-bit
groups give the threshold and the share index (`readParams_shareWords`), and
after them the padding word and one evaluation per word.  Each word's
evaluations are those of one polynomial of degree below the threshold whose
constant coefficient is the word, so `lagrange` gives the word back
(`lagrange_eq_constant`).

`combinemnemonic_splitmnemonic`: any `threshold` or more distinct shares of
`splitmnemonic` combine into the mnemonic, in any order, as long as each share
is at most 4096 bytes long.  The shares are longer than the mnemonic, and
`GetWordOffsets` refuses a text of 4096 bytes or more: a mnemonic that
`splitmnemonic` accepts can have shares that `combinemnemonic` rejects
(`combinemnemonic_long_shares`).
-/

namespace Globe

open ByteCodec UB CString

/-! ## The parameter words -/

/-- Parameter word `k` of share `i` without its run-on bit: five bits of the
threshold above five bits of the index. -/
def paramBase (threshold i k : Nat) : Nat :=
  ((threshold >>> (5 * k)) &&& 0x1F) <<< 5 + ((i >>> (5 * k)) &&& 0x1F &&& 0x1F)

/-- Parameter word `k`, with the run-on bit on all but the first. -/
def paramWord (threshold i k : Nat) : Nat := paramBase threshold i k + if k = 0 then 0 else 1024

theorem digit_eq (x k : Nat) : (x >>> (5 * k)) &&& 0x1F = x / 32 ^ k % 32 := by
  rw [Nat.shiftRight_eq_div_pow, show (0x1F : Nat) = 2 ^ 5 - 1 from rfl,
    Nat.and_two_pow_sub_one_eq_mod, Nat.pow_mul]

theorem paramBase_eq (threshold i k : Nat) :
    paramBase threshold i k = threshold / 32 ^ k % 32 * 32 + i / 32 ^ k % 32 := by
  rw [paramBase, Nat.and_assoc, Nat.and_self, digit_eq, digit_eq, Nat.shiftLeft_eq]

theorem paramBase_lt (threshold i k : Nat) : paramBase threshold i k < 1024 := by
  rw [paramBase_eq]
  omega

theorem getElem?_paramsWords {threshold i k : Nat} (hk : k < (paramsWords threshold i).length) :
    (paramsWords threshold i)[k]? = some (paramWord threshold i k) := by
  rw [length_paramsWords] at hk
  have hbase := paramBase_lt threshold i k
  rw [paramsWords, List.getElem?_map, List.getElem?_range hk, Option.map_some]
  congr 1
  show (if k > 0 then paramBase threshold i k ||| 1 <<< 10 else paramBase threshold i k) = _
  rw [paramWord]
  by_cases hk0 : k = 0
  · rw [if_neg (by omega), if_pos hk0, Nat.add_zero]
  · -- below the run-on bit, OR is addition
    have hor := Nat.two_pow_add_eq_or_of_lt (show paramBase threshold i k < 2 ^ 10 from hbase) 1
    rw [Nat.mul_one] at hor
    rw [if_pos (by omega), if_neg hk0, Nat.one_shiftLeft, Nat.or_comm, ← hor, Nat.add_comm]

/-- A word has the run-on bit when it is 1024 or more. -/
theorem and_runOn_eq_zero {w : Nat} (hw : w < 2048) : w &&& 1 <<< 10 = 0 ↔ w < 1024 := by
  rw [Nat.one_shiftLeft, Nat.and_two_pow, testBit_ten hw]
  by_cases h : 1024 ≤ w
  · rw [decide_eq_true h, Bool.toNat_true, Nat.one_mul]
    exact ⟨fun h0 => absurd h0 (by decide), fun hlt => absurd h (by omega)⟩
  · rw [decide_eq_false h, Bool.toNat_false, Nat.zero_mul]
    exact ⟨fun _ => by omega, fun _ => rfl⟩

theorem paramWord_runOn {threshold i k : Nat} : paramWord threshold i k &&& 1 <<< 10 = 0 ↔ k = 0 := by
  have hbase := paramBase_lt threshold i k
  rw [and_runOn_eq_zero (by rw [paramWord]; split <;> omega), paramWord]
  split <;> omega

theorem strip_paramWord (threshold i k : Nat) : paramWord threshold i k &&& 0x3FF = paramBase threshold i k := by
  have hbase := paramBase_lt threshold i k
  rw [show (0x3FF : Nat) = 2 ^ 10 - 1 from rfl, Nat.and_two_pow_sub_one_eq_mod, paramWord]
  split <;> omega

theorem threshold_paramBase (threshold i k : Nat) :
    (paramBase threshold i k >>> 5) &&& 0x1F = threshold / 32 ^ k % 32 := by
  rw [show (0x1F : Nat) = 2 ^ 5 - 1 from rfl, Nat.and_two_pow_sub_one_eq_mod, Nat.shiftRight_eq_div_pow,
    paramBase_eq]
  omega

theorem index_paramBase (threshold i k : Nat) : paramBase threshold i k &&& 0x1F = i / 32 ^ k % 32 := by
  rw [show (0x1F : Nat) = 2 ^ 5 - 1 from rfl, Nat.and_two_pow_sub_one_eq_mod, paramBase_eq]
  omega

/-- A share's words start with its parameter words, the last one first. -/
theorem getElem?_shareWords (rand : Nat → UInt8) (threshold : Nat) (word_offsets : List Nat) (i : Nat)
    {k : Nat} (hk : k < (paramsWords threshold i).length) :
    (shareWords rand threshold word_offsets i)[k]? =
      some (paramWord threshold i ((paramsWords threshold i).length - 1 - k)) := by
  rw [shareWords, List.reverse_append, List.getElem?_append_left (by rwa [List.length_reverse]),
    List.getElem?_reverse hk, getElem?_paramsWords (by omega)]

theorem lastParamWord_shareWords (rand : Nat → UInt8) {threshold : Nat} (ht : threshold ≠ 0)
    (word_offsets : List Nat) (i : Nat) :
    lastParamWord (shareWords rand threshold word_offsets i) = (paramsWords threshold i).length - 1 := by
  have hn := List.length_pos_iff.mpr (paramsWords_ne_nil ht i)
  have hword : ∀ k < (paramsWords threshold i).length,
      ∃ h : k < (shareWords rand threshold word_offsets i).length, (shareWords rand threshold word_offsets i)[k] =
        paramWord threshold i ((paramsWords threshold i).length - 1 - k) := fun k hk =>
    List.getElem?_eq_some_iff.mp (getElem?_shareWords rand threshold word_offsets i hk)
  obtain ⟨hlast, hlastw⟩ := hword _ (Nat.sub_lt hn Nat.one_pos)
  rw [lastParamWord, List.findIdx?_eq_some_iff_getElem.mpr ⟨hlast, ?_, ?_⟩, Option.getD_some]
  · -- the first parameter word, read last, has no run-on bit
    rw [hlastw, decide_eq_true_eq, paramWord_runOn]
    omega
  · intro j hj
    obtain ⟨_, hjw⟩ := hword j (by omega)
    rw [hjw, decide_eq_true_eq, paramWord_runOn]
    omega

/-! ## Reading the parameters back -/

theorem shlInt32_digit {d m : Nat} (hd : d < 32) (hm : m ≤ 2) :
    shlInt32 (d : ℤ) (5 * m) = .ok ((d * 32 ^ m : ℕ) : ℤ) := by
  have hpow : 32 ^ m ≤ 32 ^ 2 := Nat.pow_le_pow_right (Nat.succ_pos 31) hm
  have hprod : d * 32 ^ m ≤ 31 * 1024 := Nat.mul_le_mul (by omega) hpow
  have hcast : (d : ℤ) * 2 ^ (5 * m) = ((d * 32 ^ m : ℕ) : ℤ) := by
    rw [pow_mul]
    push_cast
    rfl
  rw [shlInt32_of_lt (by omega) (Int.natCast_nonneg d) (by rw [hcast]; omega), hcast]

/-- One pass of the parameter loop over parameter word `last - k`: it adds that
digit in base 32 of the threshold and of the index at its place. -/
theorem readParam_paramWord {ws : List Nat} {last k threshold i : Nat}
    (hk : ws[k]? = some (paramWord threshold i (last - k))) (hlast : last ≤ 2) {a b : ℕ}
    (ha : a < 2 ^ 15) (hb : b < 2 ^ 15) :
    readParam ws last ((a : ℤ), (b : ℤ)) k =
      .ok (((a + threshold / 32 ^ (last - k) % 32 * 32 ^ (last - k) : ℕ) : ℤ),
        ((b + i / 32 ^ (last - k) % 32 * 32 ^ (last - k) : ℕ) : ℤ)) := by
  have hdm : threshold / 32 ^ (last - k) % 32 < 32 := Nat.mod_lt _ (by decide)
  have hdi : i / 32 ^ (last - k) % 32 < 32 := Nat.mod_lt _ (by decide)
  have hpow : 32 ^ (last - k) ≤ 32 ^ 2 := Nat.pow_le_pow_right (Nat.succ_pos 31) (by omega)
  have hm : threshold / 32 ^ (last - k) % 32 * 32 ^ (last - k) ≤ 31 * 1024 :=
    Nat.mul_le_mul (by omega) hpow
  have hi : i / 32 ^ (last - k) % 32 * 32 ^ (last - k) ≤ 31 * 1024 := Nat.mul_le_mul (by omega) hpow
  rw [readParam, index, hk, ok_bind]
  dsimp only
  rw [strip_paramWord, threshold_paramBase, index_paramBase, shlInt32_digit hdm (by omega), ok_bind,
    addInt32_of_fits (by omega) (by omega), ok_bind, shlInt32_digit hdi (by omega), ok_bind,
    addInt32_of_fits (by omega) (by omega), ok_bind]
  push_cast
  rfl

/-- The part of `x` above its lowest `m + 1` digits in base 32, and digit `m`,
make the part above the lowest `m`. -/
theorem div_mul_add_digit (x m : Nat) :
    x / 32 ^ (m + 1) * 32 ^ (m + 1) + x / 32 ^ m % 32 * 32 ^ m = x / 32 ^ m * 32 ^ m := by
  have h := Nat.div_add_mod (x / 32 ^ m) 32
  rw [Nat.div_div_eq_div_mul, ← Nat.pow_succ] at h
  calc x / 32 ^ (m + 1) * 32 ^ (m + 1) + x / 32 ^ m % 32 * 32 ^ m
      = (32 * (x / 32 ^ (m + 1)) + x / 32 ^ m % 32) * 32 ^ m := by rw [Nat.pow_succ]; ring
    _ = x / 32 ^ m * 32 ^ m := by rw [h]

/-- After `K` passes of the parameter loop over `n` parameter words, the top `K`
digits in base 32 of the threshold and of the index are read. -/
theorem foldlM_readParam {ws : List Nat} {threshold i n : Nat} (hn : n ≤ 3) (ht : threshold < 32 ^ n)
    (hi : i < 32 ^ n) (hws : ∀ k < n, ws[k]? = some (paramWord threshold i (n - 1 - k))) :
    ∀ K ≤ n, (List.range K).foldlM (readParam ws (n - 1)) ((0 : ℤ), (0 : ℤ)) =
      .ok (((threshold / 32 ^ (n - K) * 32 ^ (n - K) : ℕ) : ℤ), ((i / 32 ^ (n - K) * 32 ^ (n - K) : ℕ) : ℤ))
  | 0, _ => by
    rw [List.range_zero, List.foldlM_nil, Nat.sub_zero, Nat.div_eq_of_lt ht, Nat.div_eq_of_lt hi,
      Nat.zero_mul]
    rfl
  | K + 1, hK => by
    have hbound : 32 ^ n ≤ 32 ^ 3 := Nat.pow_le_pow_right (Nat.succ_pos 31) hn
    have ha := Nat.div_mul_le_self threshold (32 ^ (n - K))
    have hb := Nat.div_mul_le_self i (32 ^ (n - K))
    rw [List.range_succ, List.foldlM_append, foldlM_readParam hn ht hi hws K (by omega), ok_bind,
      List.foldlM_cons, readParam_paramWord (hws K (by omega)) (by omega) (by omega) (by omega),
      ok_bind, List.foldlM_nil, show n - K = n - 1 - K + 1 by omega, div_mul_add_digit,
      div_mul_add_digit, show n - 1 - K = n - (K + 1) by omega]
    rfl

/-- Words of 11 bits need at most three parameter words. -/
theorem length_paramsWords_le {threshold i : Nat} (ht : threshold < 2048) (hi : i < 2048) :
    (paramsWords threshold i).length ≤ 3 := by
  have hbits_t := countBits_le (show threshold < 2 ^ 11 from ht)
  have hbits_i := countBits_le (show i < 2 ^ 11 from hi)
  rw [length_paramsWords]
  omega

/-- The parameter loop reads back the threshold and the index of a share. -/
theorem readParams_shareWords (rand : Nat → UInt8) {threshold i : Nat} (ht0 : threshold ≠ 0)
    (ht : threshold < 2048) (hi : i < 2048) (word_offsets : List Nat) :
    readParams (shareWords rand threshold word_offsets i) ((paramsWords threshold i).length - 1) =
      .ok ((threshold : ℤ), (i : ℤ)) := by
  have hn3 := length_paramsWords_le ht hi
  set n := (paramsWords threshold i).length with hn
  have hn0 := List.length_pos_iff.mpr (paramsWords_ne_nil ht0 i)
  rw [length_paramsWords] at hn
  -- `n` words hold `5 * n` bits, enough for both
  have hcover : ∀ x, CountBits x ≤ max (CountBits threshold) (CountBits i) → x < 32 ^ n := fun x hx =>
    calc x < 2 ^ CountBits x := lt_two_pow_countBits x
      _ ≤ 2 ^ (5 * n) := Nat.pow_le_pow_right Nat.two_pos (by omega)
      _ = 32 ^ n := by rw [Nat.pow_mul]
  have hrun := foldlM_readParam (n := n) (by omega) (hcover threshold (le_max_left _ _))
    (hcover i (le_max_right _ _)) (fun k hk => getElem?_shareWords rand threshold word_offsets i hk) n le_rfl
  rw [Nat.sub_self, Nat.pow_zero, Nat.div_one, Nat.mul_one, Nat.div_one, Nat.mul_one] at hrun
  rw [readParams, Nat.sub_add_cancel hn0]
  exact hrun

/-! ## Reading a share's text -/

/-- NFKD on the text of a Japanese share after its version word: the ideographic
space in front and those between the words become spaces. -/
def MnemonicEnv.NormalisesShareText (env : MnemonicEnv) (L : WordList) : Prop :=
  ∀ ws : List Bytes, (∀ w ∈ ws, w ∈ L.words) → ws ≠ [] →
    env.NormaliseUnicode (ideographicSpace ++ ideographicSpace.intercalate ws) = 32 :: [32].intercalate ws

/-- The separator `mnemonicText` puts between words. -/
def wordSeparator (nLanguage : Int) : Bytes :=
  if nLanguage = WLL_JAPANESE then ideographicSpace else [32]

theorem mnemonicText_cons (nLanguage : Int) (w : Bytes) {ws : List Bytes} (hws : ws ≠ []) :
    mnemonicText nLanguage (w :: ws) = w ++ (wordSeparator nLanguage ++ mnemonicText nLanguage ws) := by
  obtain ⟨w', ws', rfl⟩ := List.exists_cons_of_ne_nil hws
  unfold mnemonicText wordSeparator
  split <;> rw [List.intercalate_cons_cons, List.append_assoc]

theorem trimWhitespace_cons_space (s : Bytes) : TrimWhitespace (32 :: s) = TrimWhitespace s := by
  rw [TrimWhitespace, List.dropWhile_cons_of_pos (by decide), ← TrimWhitespace]

/-- The text of a Japanese share after its version word has no white space to trim. -/
theorem trimWhitespace_ideographic (L : WordList) {ws : List Bytes} (hws : ∀ w ∈ ws, w ∈ L.words)
    (hne : ws ≠ []) :
    TrimWhitespace (ideographicSpace ++ ideographicSpace.intercalate ws) =
      ideographicSpace ++ ideographicSpace.intercalate ws := by
  have hwords : ∀ w ∈ ws, w ≠ [] := fun w hw => L.ne_nil w (hws w hw)
  have hjoined : ideographicSpace.intercalate ws ≠ [] := by
    obtain ⟨w, ws', rfl⟩ := List.exists_cons_of_ne_nil hne
    intro h
    have := congrArg List.head? h
    rw [head?_intercalate_cons _ (hwords w List.mem_cons_self)] at this
    exact hwords w List.mem_cons_self (List.head?_eq_none_iff.mp this)
  have hhead : ∀ c ∈ (ideographicSpace ++ ideographicSpace.intercalate ws).head?, isSpaceByte c = false := by
    intro c hc
    rw [ideographicSpace, List.cons_append, List.head?_cons, Option.mem_some_iff] at hc
    rw [← hc]
    decide
  have hlast : ∀ c ∈ (ideographicSpace ++ ideographicSpace.intercalate ws).reverse.head?,
      isSpaceByte c = false := by
    intro c hc
    rw [List.head?_reverse, List.getLast?_append_of_ne_nil _ hjoined] at hc
    obtain ⟨w, hw, hcw⟩ := mem_getLast?_intercalate hwords hc
    exact (L.wordBytes w (hws w hw) c hcw).2
  rw [TrimWhitespace, dropWhile_of_head? hhead, dropWhile_of_head? hlast, List.reverse_reverse]

/-- Words of the list after a space are cut into the same offsets. -/
theorem getWordOffsets_space_spaced {env : MnemonicEnv} {nLanguage : Int} {L : WordList}
    (hL : languageList env nLanguage = some L) {ws : List Bytes} (hws : ∀ w ∈ ws, w ∈ L.words)
    (hne : ws ≠ []) (hlen : (32 :: [32].intercalate ws).length < 4096) :
    GetWordOffsets env nLanguage (32 :: [32].intercalate ws) = .ok (ws.map L.index) := by
  rw [GetWordOffsets, hL]
  simp only [Nat.not_le.mpr hlen, if_false]
  rw [strtok_cons_sep (by decide), strtok_intercalate (by decide) (tokens_of_words hws) hne,
    getWordOffsetsLoop_text L hws]

section ShareText

variable {env : MnemonicEnv} {nLanguage : Int} {L : WordList}

/-- What `combinemnemonic` normalises of a share's text after the version word:
the words joined by spaces, after a space for Japanese. -/
theorem normaliseInput_shareRest (hnorm : env.NormalisesWords L)
    (hjp : nLanguage = WLL_JAPANESE → env.NormalisesShareText L) {ws : List Bytes}
    (hws : ∀ w ∈ ws, w ∈ L.words) (hne : ws ≠ []) :
    NormaliseInput env (wordSeparator nLanguage ++ mnemonicText nLanguage ws) =
      (if nLanguage = WLL_JAPANESE then [32] else []) ++ [32].intercalate ws := by
  unfold wordSeparator mnemonicText
  by_cases hJ : nLanguage = WLL_JAPANESE
  · -- U+3000 normalises to a space, in front of the words too
    simp only [if_pos hJ]
    rw [NormaliseInput, trimWhitespace_ideographic L hws hne, hjp hJ ws hws hne]
    rfl
  · simp only [if_neg hJ]
    rw [List.singleton_append, NormaliseInput, trimWhitespace_cons_space, ← NormaliseInput,
      normaliseInput_spaced hnorm hws, List.nil_append]

/-- What `combinemnemonic` cuts from a share's text after the version word: the
offsets of its words, when the text is at most 4096 bytes long. -/
theorem getWordOffsets_shareText (hL : languageList env nLanguage = some L)
    (hnorm : env.NormalisesWords L) (hjp : nLanguage = WLL_JAPANESE → env.NormalisesShareText L)
    {ws : List Bytes} (hws : ∀ w ∈ ws, w ∈ L.words) (hne : ws ≠ [])
    (hshort : (versionWord ++ (wordSeparator nLanguage ++ mnemonicText nLanguage ws)).length ≤ 4096) :
    GetWordOffsets env nLanguage (NormaliseInput env (wordSeparator nLanguage ++ mnemonicText nLanguage ws)) =
      .ok (ws.map L.index) := by
  rw [normaliseInput_shareRest hnorm hjp hws hne]
  rw [List.length_append, length_versionWord] at hshort
  unfold wordSeparator mnemonicText at hshort
  by_cases hJ : nLanguage = WLL_JAPANESE
  · -- the spaces are shorter than the ideographic spaces they replace
    simp only [if_pos hJ] at hshort ⊢
    have hmono := length_intercalate_mono (show [(32 : UInt8)].length ≤ ideographicSpace.length by decide) ws
    rw [List.length_append, show ideographicSpace.length = 3 from rfl] at hshort
    rw [List.singleton_append]
    exact getWordOffsets_space_spaced hL hws hne (by rw [List.length_cons]; omega)
  · simp only [if_neg hJ, List.nil_append] at hshort ⊢
    rw [List.singleton_append, List.length_cons] at hshort
    exact getWordOffsets_spaced hL hws hne (by omega)

/-- A share whose words, joined by spaces, make 4096 bytes or more is refused. -/
theorem readShare_long (hL : languageList env nLanguage = some L) (hnorm : env.NormalisesWords L)
    (hjp : nLanguage = WLL_JAPANESE → env.NormalisesShareText L) {ws : List Bytes}
    (hws : ∀ w ∈ ws, w ∈ L.words) (hne : ws ≠ []) (hlong : 4096 ≤ ([32].intercalate ws).length) :
    readShare env nLanguage (versionWord ++ (wordSeparator nLanguage ++ mnemonicText nLanguage ws)) =
      .error (.rv 1 (cstr "Word string is too long.")) := by
  have hlang : ¬nLanguage < 0 := by have := one_le_of_languageList hL; omega
  have hversion : ¬((versionWord ++ (wordSeparator nLanguage ++ mnemonicText nLanguage ws)).length <
      versionWord.length ∨
      (versionWord ++ (wordSeparator nLanguage ++ mnemonicText nLanguage ws)).take versionWord.length ≠
        versionWord) := by
    simp
  have htoo : 4096 ≤ ((if nLanguage = WLL_JAPANESE then [32] else []) ++ [32].intercalate ws).length := by
    rw [List.length_append]
    omega
  simp only [readShare, hversion, if_false, List.drop_left, hlang, hL, Option.isNone_some,
    Bool.false_eq_true, normaliseInput_shareRest hnorm hjp hws hne, GetWordOffsets, if_pos htoo]
  rfl

theorem shareWords_lt (rand : Nat → UInt8) (threshold : Nat) {word_offsets : List Nat}
    (hoffs : ∀ o ∈ word_offsets, o < 2048) {i : Nat} (hi : i < 2047) :
    ∀ o ∈ shareWords rand threshold word_offsets i, o < 2048 := by
  have hpolys := wordPolys_lt rand threshold 0
    fun o ho => addPaddingWord_lt hoffs o (List.mem_reverse.mp ho)
  intro o ho
  rw [shareWords, List.mem_reverse, List.mem_append, List.mem_map] at ho
  rcases ho with ⟨poly, hpoly, rfl⟩ | ho
  · exact hornerValue_lt (by omega) (hpolys poly hpoly)
  · exact paramsWords_lt threshold i o ho

/-- `combinemnemonic` reads share `i` of a split back: its language, its word
offsets, the position of its last parameter word, the threshold and `i`. -/
theorem readShare_shareText (hL : languageList env nLanguage = some L)
    (hnorm : env.NormalisesWords L) (hjp : nLanguage = WLL_JAPANESE → env.NormalisesShareText L)
    (rand : Nat → UInt8) {threshold : Nat} (ht : 2 ≤ threshold ∧ threshold ≤ 2047)
    {word_offsets : List Nat} (hoffs : ∀ o ∈ word_offsets, o < 2048) {i : Nat} (hi : i < 2047)
    (hshort : (mnemonicText nLanguage
      (versionWord :: (shareWords rand threshold word_offsets i).map (L.words.getD · []))).length ≤ 4096) :
    readShare env nLanguage
        (mnemonicText nLanguage (versionWord :: (shareWords rand threshold word_offsets i).map (L.words.getD · []))) =
      .ok (nLanguage, shareWords rand threshold word_offsets i, (paramsWords threshold i).length - 1,
        threshold, i) := by
  have hvals := shareWords_lt rand threshold hoffs hi
  have hsw : ∀ w ∈ (shareWords rand threshold word_offsets i).map (L.words.getD · []), w ∈ L.words := by
    intro w hw
    obtain ⟨o, ho, rfl⟩ := List.mem_map.mp hw
    exact L.getD_mem (hvals o ho)
  have hne : (shareWords rand threshold word_offsets i).map (L.words.getD · []) ≠ [] := by
    rw [Ne, List.map_eq_nil_iff, shareWords, List.reverse_eq_nil_iff, List.append_eq_nil_iff]
    exact fun h => paramsWords_ne_nil (by omega) i h.2
  -- the words are those at the share's offsets
  have hindex : ((shareWords rand threshold word_offsets i).map (L.words.getD · [])).map L.index =
      shareWords rand threshold word_offsets i := by
    rw [List.map_map]
    conv_rhs => rw [← List.map_id (shareWords rand threshold word_offsets i)]
    exact List.map_congr_left fun o ho => L.index_getD (hvals o ho)
  rw [mnemonicText_cons nLanguage versionWord hne] at hshort ⊢
  have hoffsets := getWordOffsets_shareText hL hnorm hjp hsw hne hshort
  rw [hindex] at hoffsets
  have hlang : ¬nLanguage < 0 := by have := one_le_of_languageList hL; omega
  have hversion : ¬((versionWord ++ (wordSeparator nLanguage ++ mnemonicText nLanguage
      ((shareWords rand threshold word_offsets i).map (L.words.getD · [])))).length < versionWord.length ∨
      (versionWord ++ (wordSeparator nLanguage ++ mnemonicText nLanguage
        ((shareWords rand threshold word_offsets i).map (L.words.getD · [])))).take versionWord.length ≠
        versionWord) := by
    simp
  have hmax : (max_bits_value : ℤ) = 2047 := rfl
  have hparams := readParams_shareWords rand (show threshold ≠ 0 by omega) (show threshold < 2048 by omega)
    (show i < 2048 by omega) word_offsets
  simp only [readShare, hversion, if_false, List.drop_left, hlang, hL, Option.isNone_some,
    Bool.false_eq_true, hoffsets, Except.mapError, ok_bind,
    lastParamWord_shareWords rand (show threshold ≠ 0 by omega), hparams, defined_ok]
  rw [if_neg (by omega), if_neg (by omega)]
  rfl

end ShareText

/-! ## The map of shares -/

/-- Inserting a new key puts it somewhere among the others. -/
theorem insertShare_perm {k : Nat} {v : List Nat} :
    ∀ {m : List (Nat × List Nat)}, k ∉ m.map (·.1) → (insertShare k v m).Perm ((k, v) :: m)
  | [], _ => List.Perm.refl _
  | (k', v') :: m, hk => by
    rw [List.map_cons, List.mem_cons, not_or] at hk
    rw [insertShare]
    split
    · exact List.Perm.refl _
    · rw [if_neg hk.1]
      exact ((insertShare_perm hk.2).cons (k', v')).trans (List.Perm.swap _ _ _)

/-- The evaluations of the words of a share, without the padding word's. -/
def sharePolys (rand : Nat → UInt8) (threshold : Nat) (word_offsets : List Nat) : List (List Nat) :=
  ((wordPolys rand threshold (addPaddingWord word_offsets).reverse 0).reverse).drop 1

/-- What `combinemnemonic` keeps of share `i`: the values at `i + 1` of the words' polynomials. -/
def shareEvals (rand : Nat → UInt8) (threshold : Nat) (word_offsets : List Nat) (i : Nat) : List Nat :=
  (sharePolys rand threshold word_offsets).map (hornerValue (i + 1))

theorem length_shareWords (rand : Nat → UInt8) (threshold : Nat) (word_offsets : List Nat) (i : Nat) :
    (shareWords rand threshold word_offsets i).length =
      word_offsets.length + 1 + (paramsWords threshold i).length := by
  rw [shareWords, List.length_reverse, List.length_append, List.length_map, length_wordPolys,
    List.length_reverse, addPaddingWord, List.length_cons]

/-- Stripping the parameter words and the padding word leaves the evaluations of the words. -/
theorem drop_shareWords (rand : Nat → UInt8) {threshold : Nat} (ht : threshold ≠ 0) (word_offsets : List Nat)
    (i : Nat) :
    (shareWords rand threshold word_offsets i).drop ((paramsWords threshold i).length - 1 + 2) =
      shareEvals rand threshold word_offsets i := by
  have hn := List.length_pos_iff.mpr (paramsWords_ne_nil ht i)
  rw [shareWords, List.reverse_append, show (paramsWords threshold i).length - 1 + 2 =
      (paramsWords threshold i).reverse.length + 1 by rw [List.length_reverse]; omega,
    List.drop_append, List.drop_of_length_le (Nat.le_succ _), List.nil_append,
    show (paramsWords threshold i).reverse.length + 1 - (paramsWords threshold i).reverse.length = 1 by omega,
    ← List.map_reverse, ← List.map_drop]
  rfl

theorem length_sharePolys (rand : Nat → UInt8) (threshold : Nat) (word_offsets : List Nat) :
    (sharePolys rand threshold word_offsets).length = word_offsets.length := by
  rw [sharePolys, List.length_drop, List.length_reverse, length_wordPolys, List.length_reverse,
    addPaddingWord, List.length_cons, Nat.add_sub_cancel]

theorem length_randomCoeffs (rand : Nat → UInt8) : ∀ q n : Nat, (randomCoeffs rand q n).length = n
  | _, 0 => rfl
  | q, n + 1 => by rw [randomCoeffs, List.length_cons, length_randomCoeffs rand (q + num_bits) n]

/-- Polynomial `j` of the word loop: word `j`, random coefficients, and a top coefficient 0. -/
theorem getElem?_wordPolys (rand : Nat → UInt8) (threshold : Nat) :
    ∀ {words : List Nat} (q : Nat) {j word : Nat}, words[j]? = some word →
      ∃ cs, (wordPolys rand threshold words q)[j]? = some (word :: cs ++ [0]) ∧
        cs.length = threshold - 1 ∧ ∀ c ∈ cs, c < 2048
  | [], _, _, _, h => absurd h (by simp)
  | w :: words, q, 0, word, h => by
    rw [List.getElem?_cons_zero, Option.some.injEq] at h
    exact ⟨randomCoeffs rand q (threshold - 1), by rw [wordPolys, ← h]; rfl,
      length_randomCoeffs rand q _, randomCoeffs_lt rand q _⟩
  | w :: words, q, j + 1, word, h => by
    rw [List.getElem?_cons_succ] at h
    rw [wordPolys, List.getElem?_cons_succ]
    exact getElem?_wordPolys rand threshold _ h

/-- Word `w`'s polynomial: its constant coefficient is the word. -/
theorem getElem?_sharePolys (rand : Nat → UInt8) (threshold : Nat) {word_offsets : List Nat} {w word : Nat}
    (hw : word_offsets[w]? = some word) :
    ∃ cs, (sharePolys rand threshold word_offsets)[w]? = some (word :: cs ++ [0]) ∧
      cs.length = threshold - 1 ∧ ∀ c ∈ cs, c < 2048 := by
  have hwlt := (List.getElem?_eq_some_iff.mp hw).1
  have hlen : (wordPolys rand threshold (addPaddingWord word_offsets).reverse 0).length = word_offsets.length + 1 := by
    rw [length_wordPolys, List.length_reverse, addPaddingWord, List.length_cons]
  -- position `w` after the padding word, counted from the end of the reversed words
  have hrev : (addPaddingWord word_offsets).reverse[word_offsets.length - 1 - w]? = some word := by
    rw [List.getElem?_reverse (by rw [addPaddingWord, List.length_cons]; omega), addPaddingWord,
      List.length_cons, show word_offsets.length + 1 - 1 - (word_offsets.length - 1 - w) = w + 1 by omega,
      List.getElem?_cons_succ, hw]
  obtain ⟨cs, hcs, hlen', hlt⟩ := getElem?_wordPolys rand threshold 0 hrev
  refine ⟨cs, ?_, hlen', hlt⟩
  rw [sharePolys, List.getElem?_drop, List.getElem?_reverse (by omega), hlen,
    show word_offsets.length + 1 - 1 - (1 + w) = word_offsets.length - 1 - w by omega, hcs]

theorem hornerValue_append_zero (x : Nat) (coeffs : List Nat) :
    hornerValue x (coeffs ++ [0]) = hornerValue x coeffs := by
  rw [hornerValue, List.foldr_append, List.foldr_cons, List.foldr_nil, if_pos rfl]
  rfl

/-! ## Combining -/

theorem getD_map_range {α : Type} (f : Nat → α) {n i : Nat} (hi : i < n) (d : α) :
    ((List.range n).map f).getD i d = f i := by
  rw [List.getD_eq_getElem?_getD, List.getElem?_map, List.getElem?_range hi, Option.map_some,
    Option.getD_some]

/-- The text `splitmnemonic` writes for share `i`. -/
def splitShareText (nLanguage : Int) (L : WordList) (rand : Nat → UInt8) (threshold : Nat)
    (word_offsets : List Nat) (i : Nat) : Bytes :=
  mnemonicText nLanguage (versionWord :: (shareWords rand threshold word_offsets i).map (L.words.getD · []))

section Combine

variable {env : MnemonicEnv} {nLanguage : Int} {L : WordList}

/-- The share loop of `combinemnemonic` over distinct shares of a split keeps
each share's evaluations under its index, after those it had. -/
theorem readShares_split (hL : languageList env nLanguage = some L) (hnorm : env.NormalisesWords L)
    (hjp : nLanguage = WLL_JAPANESE → env.NormalisesShareText L) (rand : Nat → UInt8) {threshold : Nat}
    (ht : 2 ≤ threshold ∧ threshold ≤ 2047) {word_offsets : List Nat} (hoffs : ∀ o ∈ word_offsets, o < 2048) :
    ∀ {sel : List Nat}, sel.Nodup → (∀ i ∈ sel, i < 2047) →
      (∀ i ∈ sel, (splitShareText nLanguage L rand threshold word_offsets i).length ≤ 4096) →
      ∀ (g : Int) (m : List (Nat × List Nat)), (g = 0 ∨ g = threshold) → (∀ i ∈ sel, i ∉ m.map (·.1)) →
      ∃ m', readShares env nLanguage g m (sel.map (splitShareText nLanguage L rand threshold word_offsets)) =
          .ok (nLanguage, (if sel = [] then g else threshold), m') ∧
        m'.Perm (sel.map (fun i => (i, shareEvals rand threshold word_offsets i)) ++ m)
  | [], _, _, _, g, m, _, _ => ⟨m, rfl, List.Perm.refl _⟩
  | i :: sel, hnd, hrange, hshort, g, m, hg, hfresh => by
    rw [List.nodup_cons] at hnd
    have ht0 : threshold ≠ 0 := by omega
    have hread := readShare_shareText hL hnorm hjp rand ht hoffs (hrange i List.mem_cons_self)
      (hshort i List.mem_cons_self)
    have hlen := length_shareWords rand threshold word_offsets i
    have hn0 := List.length_pos_iff.mpr (paramsWords_ne_nil ht0 i)
    have hinsert := insertShare_perm (v := shareEvals rand threshold word_offsets i)
      (hfresh i List.mem_cons_self)
    -- the next shares are fresh for the map with this one
    have hfresh' : ∀ j ∈ sel, j ∉ (insertShare i (shareEvals rand threshold word_offsets i) m).map (·.1) := by
      intro j hj hmem
      rcases List.mem_cons.mp ((hinsert.map (·.1)).subset hmem) with rfl | hm
      · exact hnd.1 hj
      · exact hfresh j (List.mem_cons_of_mem i hj) hm
    obtain ⟨m', hrun, hperm⟩ := readShares_split hL hnorm hjp rand ht hoffs hnd.2
      (fun j hj => hrange j (List.mem_cons_of_mem i hj)) (fun j hj => hshort j (List.mem_cons_of_mem i hj))
      threshold _ (Or.inr rfl) hfresh'
    refine ⟨m', ?_, ?_⟩
    · have hgroup : (if g = 0 then (threshold : ℤ) else g) = threshold := by
        split <;> omega
      rw [List.map_cons, readShares, splitShareText, hread, ok_bind]
      dsimp only
      rw [hgroup, if_neg (fun h => h rfl), if_neg (by omega), Int.toNat_natCast,
        drop_shareWords rand ht0, hrun, if_neg (List.cons_ne_nil i sel)]
      split <;> rfl
    · rw [List.map_cons, List.cons_append]
      exact (hperm.trans (List.Perm.append_left _ hinsert)).trans List.perm_middle

/-- The length check of `combinemnemonic` passes shares of one length. -/
theorem shareWordCount_of_length {N : Nat} (hN : N ≠ 0) :
    ∀ {m : List (Nat × List Nat)}, (∀ s ∈ m, s.2.length = N) → shareWordCount m N = .ok N
  | [], _ => rfl
  | (k, v) :: m, hlen => by
    have hv : v.length = N := hlen (k, v) List.mem_cons_self
    rw [shareWordCount, if_neg hN, if_neg (by omega)]
    exact shareWordCount_of_length hN fun s hs => hlen s (List.mem_cons_of_mem _ hs)

theorem shareWordCount_zero {N : Nat} (hN : N ≠ 0) {m : List (Nat × List Nat)} (hm : m ≠ [])
    (hlen : ∀ s ∈ m, s.2.length = N) : shareWordCount m 0 = .ok N := by
  obtain ⟨⟨k, v⟩, m, rfl⟩ := List.exists_cons_of_ne_nil hm
  have hv : v.length = N := hlen (k, v) List.mem_cons_self
  rw [shareWordCount, if_pos rfl, hv, if_neg (fun h => h rfl)]
  exact shareWordCount_of_length hN fun s hs => hlen s (List.mem_cons_of_mem _ hs)

/-- The word loop of `combinemnemonic`, when `lagrange` gives word offsets. -/
theorem combineWords_eq (nLanguage : Int) (L : WordList) {m : List (Nat × List Nat)} {f : Nat → Nat} :
    ∀ (is : List Nat), (∀ w ∈ is, lagrange w m = .ok (f w) ∧ f w < 2048) →
      combineWords nLanguage L.text m is = .ok (is.map fun w => L.words.getD (f w) [])
  | [], _ => rfl
  | w :: is, h => by
    obtain ⟨hlag, hlt⟩ := h w List.mem_cons_self
    rw [combineWords, hlag, defined_ok, ok_bind, L.getWord_text hlt, combineWords_eq nLanguage L is fun w' hw' => h w' (List.mem_cons_of_mem w hw')]
    rfl

/-- Each word of a share of the split is its word's polynomial at the share's
index plus one, a polynomial of `threshold` coefficients whose constant one is
the word: `lagrange` gives the word back from `threshold` or more shares. -/
theorem lagrange_shareEvals (rand : Nat → UInt8) {threshold : Nat} (ht : threshold ≠ 0)
    {word_offsets : List Nat} (hoffs : ∀ o ∈ word_offsets, o < 2048) {m : List (Nat × List Nat)} (hkeys : (m.map (·.1)).Nodup)
    (hlt : ∀ k ∈ m.map (·.1), k + 1 < 2048) (hcount : threshold ≤ m.length)
    (hm : ∀ s ∈ m, s.2 = shareEvals rand threshold word_offsets s.1) {w : Nat} (hw : w < word_offsets.length) :
    lagrange w m = .ok (word_offsets.getD w 0) := by
  have hword : word_offsets[w]? = some (word_offsets.getD w 0) := by
    rw [List.getD_eq_getElem?_getD, List.getElem?_eq_getElem hw, Option.getD_some]
  obtain ⟨cs, hpoly, hlen, hcs⟩ := getElem?_sharePolys rand threshold hword
  have hcoeffs : ∀ c ∈ word_offsets.getD w 0 :: cs, c < 2048 := by
    intro c hc
    rcases List.mem_cons.mp hc with rfl | hc
    · rw [List.getD_eq_getElem?_getD, List.getElem?_eq_getElem hw, Option.getD_some]
      exact hoffs _ (List.getElem_mem hw)
    · exact hcs c hc
  refine lagrange_eq_constant hkeys hlt hcoeffs (by rw [List.length_cons, hlen]; omega) fun s hs => ?_
  rw [hm s hs, shareEvals, List.getElem?_map, hpoly, Option.map_some, hornerValue_append_zero]

end Combine

/-- `combinemnemonic` on `threshold` or more distinct shares of `splitmnemonic`,
in any order, gives back the mnemonic: its words joined by spaces, or by
ideographic spaces in Japanese.  The shares must be at most 4096 bytes long,
which `splitmnemonic` does not ensure. -/
theorem combinemnemonic_splitmnemonic {env : MnemonicEnv} {nLanguage : Int} {L : WordList}
    (hL : languageList env nLanguage = some L) (hnorm : env.NormalisesWords L)
    (hjp : nLanguage = WLL_JAPANESE → env.NormalisesShareText L)
    {num_shares threshold : Nat} (hn : 2 ≤ num_shares ∧ num_shares ≤ 2047)
    (ht : 2 ≤ threshold ∧ threshold ≤ num_shares)
    {mnemonic_in : Bytes} {ws : List Bytes} (hws : ∀ w ∈ ws, w ∈ L.words) (hne : ws ≠ [])
    (htext : NormaliseInput env mnemonic_in = [32].intercalate ws)
    (hlen : ([32].intercalate ws).length < 4096) (rand : Nat → UInt8) {shares : List Bytes}
    (hsplit : splitmnemonic env mnemonic_in nLanguage num_shares threshold rand = .ok shares)
    {sel : List Nat} (hsel : sel.Nodup) (hrange : ∀ i ∈ sel, i < num_shares)
    (hcount : threshold ≤ sel.length) (hshort : ∀ i ∈ sel, (shares.getD i []).length ≤ 4096) :
    combinemnemonic env (sel.map (shares.getD · [])) nLanguage = .ok (mnemonicText nLanguage ws) := by
  rw [splitmnemonic_eq hL hn ht hws hne htext hlen rand, Except.ok.injEq] at hsplit
  subst hsplit
  have hoffs : ∀ o ∈ ws.map L.index, o < 2048 := by
    intro o ho
    obtain ⟨w, hw, rfl⟩ := List.mem_map.mp ho
    exact L.index_lt (hws w hw)
  -- the selected shares are the texts of the split
  have hget : ∀ i ∈ sel, ((List.range num_shares).map (splitShareText nLanguage L rand threshold
      (ws.map L.index))).getD i [] = splitShareText nLanguage L rand threshold (ws.map L.index) i :=
    fun i hi => getD_map_range _ (hrange i hi) []
  change combinemnemonic env (sel.map (((List.range num_shares).map
    (splitShareText nLanguage L rand threshold (ws.map L.index))).getD · [])) nLanguage = _
  change ∀ i ∈ sel, (((List.range num_shares).map
    (splitShareText nLanguage L rand threshold (ws.map L.index))).getD i []).length ≤ 4096 at hshort
  rw [List.map_congr_left hget]
  have hselne : sel ≠ [] := by
    intro h
    rw [h, List.length_nil] at hcount
    omega
  obtain ⟨m, hrun, hperm⟩ := readShares_split hL hnorm hjp rand ⟨ht.1, by omega⟩ hoffs hsel
    (fun i hi => by have := hrange i hi; omega) (fun i hi => by rw [← hget i hi]; exact hshort i hi)
    0 [] (Or.inl rfl) (fun _ _ h => by simp at h)
  rw [List.append_nil] at hperm
  rw [if_neg hselne] at hrun
  -- what the loop kept: each selected share's evaluations under its index
  have hmlen : m.length = sel.length := by rw [hperm.length_eq, List.length_map]
  have hkeys_sel : (sel.map fun i => (i, shareEvals rand threshold (ws.map L.index) i)).map (·.1) = sel := by
    rw [List.map_map]
    exact List.map_id' sel
  have hkeys : (m.map (·.1)).Nodup := by
    rw [(hperm.map (·.1)).nodup_iff, hkeys_sel]
    exact hsel
  have hmem : ∀ s ∈ m, s.1 ∈ sel ∧ s.2 = shareEvals rand threshold (ws.map L.index) s.1 := by
    intro s hs
    obtain ⟨i, hi, rfl⟩ := List.mem_map.mp (hperm.subset hs)
    exact ⟨hi, rfl⟩
  have hlengths : ∀ s ∈ m, s.2.length = (ws.map L.index).length := fun s hs => by
    rw [(hmem s hs).2, shareEvals, List.length_map, length_sharePolys]
  have hN : (ws.map L.index).length ≠ 0 := by
    rw [List.length_map]
    exact (List.length_pos_iff.mpr hne).ne'
  have hmne : m ≠ [] := fun h => hselne (List.eq_nil_of_length_eq_zero (by rw [← hmlen, h]; rfl))
  -- every word comes back
  have hlag : ∀ w ∈ List.range (ws.map L.index).length,
      lagrange w m = .ok ((ws.map L.index).getD w 0) ∧ (ws.map L.index).getD w 0 < 2048 := by
    intro w hw
    have hw' := List.mem_range.mp hw
    refine ⟨lagrange_shareEvals rand (by omega) hoffs hkeys ?_ (by omega) (fun s hs => (hmem s hs).2) hw', ?_⟩
    · intro k hk
      obtain ⟨s, hs, rfl⟩ := List.mem_map.mp hk
      have := hrange s.1 (hmem s hs).1
      omega
    · rw [List.getD_eq_getElem?_getD, List.getElem?_eq_getElem hw', Option.getD_some]
      exact hoffs _ (List.getElem_mem hw')
  have hwords : (List.range (ws.map L.index).length).map
      (fun w => L.words.getD ((ws.map L.index).getD w 0) []) = ws := by
    apply List.ext_getElem (by rw [List.length_map, List.length_range, List.length_map])
    intro w h1 h2
    have hoffset : (ws.map L.index).getD w 0 = L.index ws[w] := by
      rw [List.getD_eq_getElem?_getD, List.getElem?_map, List.getElem?_eq_getElem h2, Option.map_some,
        Option.getD_some]
    rw [List.getElem_map, List.getElem_range, hoffset, L.getD_index (hws _ (List.getElem_mem h2))]
  rw [combinemnemonic, List.length_map, if_neg (by omega), hrun, ok_bind]
  dsimp only
  rw [if_neg (by omega), shareWordCount_zero hN hmne hlengths, ok_bind, hL]
  dsimp only
  rw [combineWords_eq nLanguage L _ hlag, ok_bind, hwords, joinWords_eq fun w hw => L.ne_nil w (hws w hw),
    mnemonicText]
  split
  · rw [replaceStrInPlace_spaced hws]
    rfl
  · rfl

theorem mem_sample_pair {w : Bytes} (hw : w ∈ [sampleWord 5, sampleWord 7]) : w ∈ sampleWords.words := by
  simp only [List.mem_cons, List.not_mem_nil, or_false] at hw
  rcases hw with rfl | rfl <;> exact sampleWord_mem (by decide)

/-- Two words of the two-letter list, split into three shares of which two are
needed, come back from the third share and the first. -/
theorem combinemnemonic_splitmnemonic_sample :
    ∃ shares, splitmnemonic (sampleEnv zeroHash) ([32].intercalate [sampleWord 5, sampleWord 7]) 1 3 2
        (fun k => UInt8.ofNat k) = .ok shares ∧
      combinemnemonic (sampleEnv zeroHash) ([2, 0].map (shares.getD · [])) 1 =
        .ok (mnemonicText 1 [sampleWord 5, sampleWord 7]) := by
  have htext := normaliseInput_spaced (sampleEnv_normalisesWords zeroHash) fun w hw => mem_sample_pair hw
  have hsplit := splitmnemonic_eq (languageList_sampleEnv zeroHash) (show 2 ≤ 3 ∧ 3 ≤ 2047 by decide)
    (show 2 ≤ 2 ∧ 2 ≤ 3 by decide) (fun w hw => mem_sample_pair hw) (List.cons_ne_nil _ _) htext (by decide)
    (fun k => UInt8.ofNat k)
  refine ⟨_, hsplit, combinemnemonic_splitmnemonic (languageList_sampleEnv zeroHash)
    (sampleEnv_normalisesWords zeroHash) (fun h => absurd h (by decide)) (show 2 ≤ 3 ∧ 3 ≤ 2047 by decide)
    (show 2 ≤ 2 ∧ 2 ≤ 3 by decide) (fun w hw => mem_sample_pair hw) (List.cons_ne_nil _ _) htext (by decide) _
    hsplit (by decide) (by decide) (by decide) ?_⟩
  -- each share has at most six words after its version word
  intro i hi
  have hi3 : i < 3 := by simp only [List.mem_cons, List.not_mem_nil, or_false] at hi; omega
  have hoffs : ∀ o ∈ [sampleWord 5, sampleWord 7].map sampleWords.index, o < 2048 := by
    intro o ho
    obtain ⟨w, hw, rfl⟩ := List.mem_map.mp ho
    exact sampleWords.index_lt (mem_sample_pair hw)
  have hvals := shareWords_lt (fun k => UInt8.ofNat k) 2 hoffs (show i < 2047 by omega)
  have hparams := length_paramsWords_le (show 2 < 2048 by decide) (show i < 2048 by omega)
  rw [getD_map_range _ hi3, mnemonicText, if_neg (by decide)]
  refine le_trans (length_intercalate_le 32 (b := 11) fun w hw => ?_) ?_
  · rcases List.mem_cons.mp hw with rfl | hw
    · rw [length_versionWord]
    · obtain ⟨o, ho, rfl⟩ := List.mem_map.mp hw
      rw [(mem_sampleWords (sampleWords.getD_mem (hvals o ho))).1]
      decide
  · rw [List.length_cons, List.length_map, length_shareWords, List.length_map]
    simp only [List.length_cons, List.length_nil]
    omega

/-- A mnemonic of `k` words, in a list whose words have at least `b` bytes each,
with `(b + 1) * (k + 2) > 4096`: `combinemnemonic` refuses any two or more of
its shares, since each has at least `k + 2` words after its version word. -/
theorem combinemnemonic_long_shares {env : MnemonicEnv} {nLanguage : Int} {L : WordList}
    (hL : languageList env nLanguage = some L) (hnorm : env.NormalisesWords L)
    (hjp : nLanguage = WLL_JAPANESE → env.NormalisesShareText L) {b : Nat} (hb : ∀ w ∈ L.words, b ≤ w.length)
    {num_shares threshold : Nat} (hn : 2 ≤ num_shares ∧ num_shares ≤ 2047)
    (ht : 2 ≤ threshold ∧ threshold ≤ num_shares)
    {mnemonic_in : Bytes} {ws : List Bytes} (hws : ∀ w ∈ ws, w ∈ L.words) (hne : ws ≠ [])
    (htext : NormaliseInput env mnemonic_in = [32].intercalate ws)
    (hlen : ([32].intercalate ws).length < 4096) (rand : Nat → UInt8) {shares : List Bytes}
    (hsplit : splitmnemonic env mnemonic_in nLanguage num_shares threshold rand = .ok shares)
    (hlong : 4096 < (b + 1) * (ws.length + 2)) {sel : List Nat} (hsel : 2 ≤ sel.length)
    (hrange : ∀ i ∈ sel, i < num_shares) :
    combinemnemonic env (sel.map (shares.getD · [])) nLanguage =
      .error (.rv 1 (cstr "Word string is too long.")) := by
  rw [splitmnemonic_eq hL hn ht hws hne htext hlen rand, Except.ok.injEq] at hsplit
  subst hsplit
  obtain ⟨i, rest, rfl⟩ := List.exists_cons_of_ne_nil (List.ne_nil_of_length_pos (show 0 < sel.length by omega))
  have hi := hrange i List.mem_cons_self
  have hoffs : ∀ o ∈ ws.map L.index, o < 2048 := by
    intro o ho
    obtain ⟨w, hw, rfl⟩ := List.mem_map.mp ho
    exact L.index_lt (hws w hw)
  have hvals := shareWords_lt rand threshold hoffs (show i < 2047 by omega)
  have hsw : ∀ w ∈ (shareWords rand threshold (ws.map L.index) i).map (L.words.getD · []), w ∈ L.words := by
    intro w hw
    obtain ⟨o, ho, rfl⟩ := List.mem_map.mp hw
    exact L.getD_mem (hvals o ho)
  have hswlen : ws.length + 2 ≤ ((shareWords rand threshold (ws.map L.index) i).map (L.words.getD · [])).length := by
    have hn0 := List.length_pos_iff.mpr (paramsWords_ne_nil (show threshold ≠ 0 by omega) i)
    rw [List.length_map, length_shareWords, List.length_map]
    omega
  have hswne : (shareWords rand threshold (ws.map L.index) i).map (L.words.getD · []) ≠ [] :=
    List.ne_nil_of_length_pos (by omega)
  -- the first share's words make 4096 bytes or more
  have htoo : 4096 ≤ ([32].intercalate ((shareWords rand threshold (ws.map L.index) i).map
      (L.words.getD · []))).length := by
    have hjoin := le_length_intercalate 32 fun w hw => hb w (hsw w hw)
    have hmul := Nat.mul_le_mul_left (b + 1) hswlen
    omega
  have hfirst : ((List.range num_shares).map fun i => mnemonicText nLanguage
      (versionWord :: (shareWords rand threshold (ws.map L.index) i).map (L.words.getD · []))).getD i [] =
      versionWord ++ (wordSeparator nLanguage ++ mnemonicText nLanguage
        ((shareWords rand threshold (ws.map L.index) i).map (L.words.getD · []))) := by
    rw [getD_map_range _ hi, mnemonicText_cons nLanguage versionWord hswne]
  rw [combinemnemonic, List.length_map, if_neg (by omega), List.map_cons, readShares, hfirst,
    readShare_long hL hnorm hjp hsw hswne htoo]
  rfl

/-- A mnemonic of 1364 two-letter words, 4091 bytes, is split, but any two of
its shares are refused. -/
theorem combinemnemonic_long_shares_sample :
    ∃ shares, splitmnemonic (sampleEnv zeroHash) ([32].intercalate (List.replicate 1364 (sampleWord 0))) 1 3 2
        (fun k => UInt8.ofNat k) = .ok shares ∧
      combinemnemonic (sampleEnv zeroHash) ([0, 1].map (shares.getD · [])) 1 =
        .error (.rv 1 (cstr "Word string is too long.")) := by
  have hws : ∀ w ∈ List.replicate 1364 (sampleWord 0), w ∈ sampleWords.words := fun w hw => by
    rw [List.eq_of_mem_replicate hw]
    exact sampleWord_mem (by decide)
  have hne : List.replicate 1364 (sampleWord 0) ≠ [] :=
    List.ne_nil_of_length_pos (by rw [List.length_replicate]; decide)
  have htext := normaliseInput_spaced (sampleEnv_normalisesWords zeroHash) hws
  have hlen : ([32].intercalate (List.replicate 1364 (sampleWord 0))).length < 4096 :=
    lt_of_le_of_lt (length_sampleText hws) (by rw [List.length_replicate]; decide)
  have hsplit := splitmnemonic_eq (languageList_sampleEnv zeroHash) (show 2 ≤ 3 ∧ 3 ≤ 2047 by decide)
    (show 2 ≤ 2 ∧ 2 ≤ 3 by decide) hws hne htext hlen (fun k => UInt8.ofNat k)
  exact ⟨_, hsplit, combinemnemonic_long_shares (languageList_sampleEnv zeroHash)
    (sampleEnv_normalisesWords zeroHash) (fun h => absurd h (by decide))
    (fun w hw => (mem_sampleWords hw).1.ge) (show 2 ≤ 3 ∧ 3 ≤ 2047 by decide)
    (show 2 ≤ 2 ∧ 2 ≤ 3 by decide) hws hne htext hlen _ hsplit
    (by rw [List.length_replicate]; decide) (by decide) (by decide)⟩

end Globe
