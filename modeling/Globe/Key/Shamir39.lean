import Globe.Key.Mnemonic

/-!
# Shamir39

`key/mnemonic.cpp`, namespace `shamir39`: a mnemonic split into shares by
Shamir's scheme over GF(2^11), one polynomial per word, and shares combined
back by Lagrange interpolation at 0.  Field elements are the 11-bit word
offsets; addition is XOR and multiplication goes through the tables
`build_tables` fills with the powers of the generator of x^11 + x^2 + 1.

`splitmnemonic` puts a padding word in front of the words, draws the
coefficients 11 bits at a time from `StrongRandomIssuer`, and writes each
share as the version word, its parameter words (threshold and share index,
five bits of each per word) and its evaluations, in reverse order of
evaluation.  `combinemnemonic` reads the parameters back, strips them and
the padding share, and interpolates each word.

The random bytes are a parameter: `rand k` is byte `k` of the bytes the
issuer's refills draw, one after the other.  `std::map<int, std::vector<int>>`
is an association list sorted by key, and `share_indices` are its keys in
order, so `lagrange` reads each share from the list directly.
-/

namespace Globe

open ByteCodec UB CString

/-! ## The tables -/

def num_bits : Nat := 11

def max_bits_value : Nat := (1 <<< num_bits) - 1

/-- One step of `build_tables`: the element times the generator,
`x <<= 1; if (x >= size) { x ^= primitive; x &= size - 1; }`. -/
def nextElement (size primitive x : Nat) : Nat :=
  let x := x <<< 1
  if x ≥ size then (x ^^^ primitive) &&& (size - 1) else x

/-- The loop of `build_tables` from iteration `i`, with `x` the next element:
`exp_table[i] = x; log_table[x] = i`. -/
def buildTablesLoop (size primitive : Nat) :
    Nat → Nat → Nat → List Nat → List Nat → List Nat × List Nat
  | 0, _, _, exp_table, log_table => (exp_table, log_table)
  | n + 1, i, x, exp_table, log_table =>
    buildTablesLoop size primitive n (i + 1) (nextElement size primitive x)
      (exp_table.set i x) (log_table.set x i)

/-- `build_tables`, over the zero-initialised global arrays of 2048 entries. -/
def build_tables : List Nat × List Nat :=
  let size := 1 <<< num_bits
  buildTablesLoop size 5 size 0 1 (List.replicate 2048 0) (List.replicate 2048 0)

def exp_table : List Nat := build_tables.1

def log_table : List Nat := build_tables.2

/-! ## Evaluation and interpolation -/

/-- One step of `horner`: `fx * x + coeff`, where `logx` is the log of `x`; a
zero accumulator has no log and is replaced by the coefficient. -/
def hornerStep (logx coeff fx : Nat) : Defined Nat :=
  if fx = 0 then pure coeff
  else do
    let logfx ← index log_table fx
    let e ← index exp_table ((logx + logfx) % max_bits_value)
    pure (e ^^^ coeff)

/-- `horner(x, coeffs)`: the polynomial with the coefficients `coeffs`, lowest
first, at `x`, from the highest coefficient down. -/
def horner (x : Nat) (coeffs : List Nat) : Defined Nat := do
  let logx ← index log_table x
  coeffs.foldrM (hornerStep logx) 0

/-- The inner loop of `lagrange` for the share at position `i`, whose index
plus one is `xi`: over the other shares `j`, add the log of `0 ^ xj` and
subtract the log of `xi ^ xj`, modulo `max_bits_value`. -/
def lagrangeProduct (i xi : Nat) : List Nat → Nat → Int → Defined Int
  | [], _, product => .ok product
  | share_index :: share_indices, j, product =>
    if i = j then lagrangeProduct i xi share_indices (j + 1) product
    else do
      let xj := share_index + 1
      -- `at` is 0: the shares are interpolated at 0
      let logxj ← index log_table (0 ^^^ xj)
      let logxixj ← index log_table (xi ^^^ xj)
      lagrangeProduct i xi share_indices (j + 1)
        ((product + logxj - logxixj + max_bits_value).tmod max_bits_value)

/-- The outer loop of `lagrange` from the share at position `i`: the shares'
words `word_index` weighted at 0, summed by XOR. -/
def lagrangeSum (word_index : Nat) (share_indices : List Nat) :
    List (Nat × List Nat) → Nat → Nat → Defined Nat
  | [], _, sum => .ok sum
  | (share_index, word_offsets) :: shares, i, sum => do
    let share_word_index ← index word_offsets word_index
    if share_word_index = 0 then lagrangeSum word_index share_indices shares (i + 1) sum
    else
      let product ← index log_table share_word_index
      let product ← lagrangeProduct i (share_index + 1) share_indices 0 product
      let e ← indexInt exp_table product
      lagrangeSum word_index share_indices shares (i + 1) (sum ^^^ e)

/-- `lagrange(word_index, share_indices, shamir_shares)`. -/
def lagrange (word_index : Nat) (shamir_shares : List (Nat × List Nat)) : Defined Nat :=
  lagrangeSum word_index (shamir_shares.map (·.1)) shamir_shares 0 0

/-! ## Splitting -/

/-- `CountBits(x)`: the number of bits up to the highest set one. -/
def CountBits (x : Nat) : Nat :=
  if x = 0 then 0 else CountBits (x >>> 1) + 1
termination_by x
decreasing_by
  rw [Nat.shiftRight_eq_div_pow, Nat.pow_one]
  omega

/-- Bit `q` of the random stream: `m_cached_bytes[m_bytes_used] & (1 << m_bits_used)`
reads the bytes from the first bit up. -/
def randomBit (rand : Nat → UInt8) (q : Nat) : Bool := (rand (q / 8)).toNat.testBit (q % 8)

/-- `StrongRandomIssuer::GetBits(num_bits, output)` with `q` bits of the stream
used: `none` for 1. -/
def GetBits (rand : Nat → UInt8) (q num_bits : Nat) : Option Nat :=
  if num_bits > 32 then none
  else some ((List.range num_bits).foldl
    (fun output k => if randomBit rand (q + k) then output ||| 1 <<< k else output) 0)

/-- The coefficients `coeffs[1 .. n]` of one word, 11 bits each from bit `q`. -/
def drawCoeffs (rand : Nat → UInt8) (q : Nat) : Nat → Except MnemonicError (List Nat)
  | 0 => .ok []
  | n + 1 =>
    match GetBits rand q num_bits with
    | none => .error (.rv 5 (cstr "Get random bits failed"))
    | some c => (c :: ·) <$> drawCoeffs rand (q + num_bits) n

/-- The word loop of `splitmnemonic` over the word offsets from the last to the
padding word, with `q` bits of the stream used: the word is the constant
coefficient, the top coefficient `coeffs[threshold]` stays 0, and share
`k - 1` gets the polynomial at `k`. -/
def splitShares (rand : Nat → UInt8) (num_shares threshold : Nat) :
    List Nat → Nat → List (List Nat) → Except MnemonicError (List (List Nat))
  | [], _, shares => .ok shares
  | word :: words, q, shares => do
    let coeffs ← drawCoeffs rand q (threshold - 1)
    let ys ← defined ((List.range num_shares).mapM fun k => horner (k + 1) (word :: coeffs ++ [0]))
    splitShares rand num_shares threshold words (q + num_bits * (threshold - 1))
      (List.zipWith (· ++ [·]) shares ys)

/-- The parameter words of share `i`: five bits of the threshold and five of
the index in each, lowest first, all but the first with the run-on bit 10. -/
def paramsWords (threshold i : Nat) : List Nat :=
  -- `std::ceil((float)n / 5.0)` is exact for counts of bits
  let params_words := (max (CountBits threshold) (CountBits i) + 4) / 5
  (List.range params_words).map fun k =>
    let shifted_m := (threshold >>> (5 * k)) &&& 0x1F
    let shifted_i := (i >>> (5 * k)) &&& 0x1F
    let params_word := (shifted_m <<< 5) + (shifted_i &&& 0x1F)
    if k > 0 then params_word ||| 1 <<< 10 else params_word

def versionWord : Bytes := cstr "shamir39-p1"

/-- The text of share `i`: its words from the last pushed to the first after
the version word, separated by spaces, or ideographic spaces in Japanese. -/
def shareText (nLanguage : Int) (pwl : Bytes) (threshold i : Nat) (share : List Nat) :
    Except MnemonicError Bytes := do
  let words ← getWords nLanguage pwl (share ++ paramsWords threshold i).reverse
  let sWordList := joinWords (versionWord :: words)
  if nLanguage = WLL_JAPANESE then return ReplaceStrInPlace sWordList 32 ideographicSpace
  return sWordList

/-- The output loop of `splitmnemonic` from share `i`. -/
def shareTexts (nLanguage : Int) (pwl : Bytes) (threshold : Nat) :
    Nat → List (List Nat) → Except MnemonicError (List Bytes)
  | _, [] => .ok []
  | i, share :: shares => do
    let text ← shareText nLanguage pwl threshold i share
    let texts ← shareTexts nLanguage pwl threshold (i + 1) shares
    pure (text :: texts)

/-- The padding word in front of the word offsets, which makes the number of
bits a multiple of 4; the float arithmetic of the source is exact here. -/
def addPaddingWord (word_offsets : List Nat) : List Nat :=
  let bits_length := word_offsets.length * num_bits
  let zero_pad := (bits_length + 3) / 4 * 4 - bits_length
  (1 <<< zero_pad) :: word_offsets

/-- A callee's error as a caller that returns 1 sees it: the text it left in
`sError` stays. -/
def returnOne : MnemonicError → MnemonicError
  | .rv _ sError => .rv 1 sError
  | .undefined u => .undefined u

variable (env : MnemonicEnv)

/-- `splitmnemonic(mnemonic_in, language_ind, num_shares, threshold, output, sError)`
with the random stream `rand`. -/
def splitmnemonic (mnemonic_in : Bytes) (language_ind : Int) (num_shares threshold : Nat)
    (rand : Nat → UInt8) : Except MnemonicError (List Bytes) := do
  if num_shares < 2 ∨ num_shares > max_bits_value then
    throw (.rv 1 (cstr "Number of shares must be at least 2 and at most 4095"))
  if threshold < 2 ∨ threshold > num_shares then
    throw (.rv 1 (cstr "Required shares must be at least 2 and at most num_shares"))
  let word_list := NormaliseInput env mnemonic_in
  let language_ind := if language_ind < 0 then DetectLanguage env word_list else language_ind
  if language_ind < 0 then throw (.rv 2 (cstr "Language detection failed"))
  let some L := languageList env language_ind | throw (.rv 2 (cstr "Unknown language"))
  -- `CountLanguageWords`: the newlines of the list's text
  if L.text.count 10 ≠ 2048 then throw (.rv 2 (cstr "Wordlist must have exactly 2048 words"))
  let word_offsets ← (GetWordOffsets env language_ind word_list).mapError returnOne
  let word_offsets := addPaddingWord word_offsets
  let shares ← splitShares rand num_shares threshold word_offsets.reverse 0
    (List.replicate num_shares [])
  shareTexts language_ind L.text threshold 0 shares

/-! ## Combining -/

/-- The position of the last parameter word: the first word without the
run-on bit, or 0. -/
def lastParamWord (word_offsets : List Nat) : Nat :=
  (word_offsets.findIdx? fun w => w &&& 1 <<< 10 = 0).getD 0

/-- One pass of the parameter loop of `combinemnemonic`: add word `k`'s five
bits of the threshold and of the index at their place. -/
def readParam (word_offsets : List Nat) (last_param_word : Nat) (acc : Int × Int) (k : Nat) :
    Defined (Int × Int) := do
  -- strip the run-on bit
  let word_index := (← index word_offsets k) &&& 0x3FF
  let shift_bits := 5 * (last_param_word - k)
  let threshold ← addInt32 acc.1 (← shlInt32 ((word_index >>> 5) &&& 0x1F : Nat) shift_bits)
  let mnemonic_index ← addInt32 acc.2 (← shlInt32 (word_index &&& 0x1F : Nat) shift_bits)
  pure (threshold, mnemonic_index)

/-- The threshold and the share index a share's parameter words give. -/
def readParams (word_offsets : List Nat) (last_param_word : Nat) : Defined (Int × Int) :=
  (List.range (last_param_word + 1)).foldlM (readParam word_offsets last_param_word) (0, 0)

/-- `shamir_shares[k] = v` on a map kept as a list sorted by key. -/
def insertShare (k : Nat) (v : List Nat) : List (Nat × List Nat) → List (Nat × List Nat)
  | [] => [(k, v)]
  | (k', v') :: rest =>
    if k < k' then (k, v) :: (k', v') :: rest
    else if k = k' then (k, v) :: rest
    else (k', v') :: insertShare k v rest

/-- One share of `combinemnemonic`, up to its parameters: the language, the
word offsets, the position of the last parameter word, the threshold and the
share index. -/
def readShare (language_ind : Int) (words : Bytes) :
    Except MnemonicError (Int × List Nat × Nat × Int × Int) := do
  if words.length < versionWord.length ∨ words.take versionWord.length ≠ versionWord then
    throw (.rv 1 (cstr "Invalid version word"))
  let words := NormaliseInput env (words.drop versionWord.length)
  let language_ind := if language_ind < 0 then DetectLanguage env words else language_ind
  if language_ind < 0 then throw (.rv 2 (cstr "Language detection failed"))
  if (languageList env language_ind).isNone then throw (.rv 2 (cstr "Unknown language"))
  let word_offsets ← (GetWordOffsets env language_ind words).mapError returnOne
  let last_param_word := lastParamWord word_offsets
  let (threshold, mnemonic_index) ← defined (readParams word_offsets last_param_word)
  if threshold < 2 ∨ threshold > max_bits_value then
    throw (.rv 2 (cstr "Threshold out of valid range"))
  if mnemonic_index < 0 ∨ mnemonic_index > max_bits_value then
    throw (.rv 2 (cstr "Mnemonic index out of valid range"))
  return (language_ind, word_offsets, last_param_word, threshold, mnemonic_index)

/-- The share loop of `combinemnemonic`, with the language and the group's
threshold (0 before the first share) so far. -/
def readShares (language_ind group_threshold : Int) (shamir_shares : List (Nat × List Nat)) :
    List Bytes → Except MnemonicError (Int × Int × List (Nat × List Nat))
  | [] => .ok (language_ind, group_threshold, shamir_shares)
  | words :: mnemonics => do
    let (language_ind, word_offsets, last_param_word, threshold, mnemonic_index) ←
      readShare env language_ind words
    let group_threshold := if group_threshold = 0 then threshold else group_threshold
    if group_threshold ≠ threshold then throw (.rv 2 (cstr "Mixed thresholds in mnemonic group"))
    -- strip the parameter words and the padding word; erasing past the end is undefined
    if word_offsets.length < last_param_word + 2 then throw (.undefined .outOfBounds)
    readShares language_ind group_threshold
      (insertShare mnemonic_index.toNat (word_offsets.drop (last_param_word + 2)) shamir_shares)
      mnemonics

/-- The length check of `combinemnemonic`: every share has as many words as
the first non-empty one. -/
def shareWordCount : List (Nat × List Nat) → Nat → Except MnemonicError Nat
  | [], num_share_words => .ok num_share_words
  | (_, word_offsets) :: shares, num_share_words =>
    let num_share_words := if num_share_words = 0 then word_offsets.length else num_share_words
    if num_share_words ≠ word_offsets.length then .error (.rv 2 (cstr "Mismatched share length"))
    else shareWordCount shares num_share_words

/-- The word loop of `combinemnemonic` over the word positions `is`. -/
def combineWords (language_ind : Int) (pwl : Bytes) (shamir_shares : List (Nat × List Nat)) :
    List Nat → Except MnemonicError (List Bytes)
  | [] => .ok []
  | i :: is => do
    let word_offset ← defined (lagrange i shamir_shares)
    match GetWord word_offset pwl with
    | none => throw (.rv 3 (cstr s!"Word extract failed {word_offset}, language {language_ind}."))
    | some sWord => (sWord :: ·) <$> combineWords language_ind pwl shamir_shares is

/-- `combinemnemonic(mnemonics_in, language_ind, mnemonic_out, sError)`. -/
def combinemnemonic (mnemonics_in : List Bytes) (language_ind : Int) :
    Except MnemonicError Bytes := do
  if mnemonics_in.length < 2 then throw (.rv 1 (cstr "Too few mnemonics provided"))
  let (language_ind, group_threshold, shamir_shares) ← readShares env language_ind 0 [] mnemonics_in
  if shamir_shares.length < 2 ∨ (shamir_shares.length : Int) < group_threshold then
    throw (.rv 2 (cstr "Too few shares for threshold"))
  let num_share_words ← shareWordCount shamir_shares 0
  -- every share checked the language, so its list is there
  let some L := languageList env language_ind | throw (.rv 2 (cstr "Unknown language"))
  let words ← combineWords language_ind L.text shamir_shares (List.range num_share_words)
  let mnemonic_out := joinWords words
  if language_ind = WLL_JAPANESE then return ReplaceStrInPlace mnemonic_out 32 ideographicSpace
  return mnemonic_out

/-! ## The tables hold the powers of the generator -/

/-- The `i`-th power of the generator, as `build_tables` steps through them. -/
def genPow (i : Nat) : Nat := (nextElement 2048 5)^[i] 1

theorem nextElement_lt {x : Nat} (hx : x < 2048) : nextElement 2048 5 x < 2048 := by
  unfold nextElement
  dsimp only
  split
  · exact Nat.lt_of_le_of_lt Nat.and_le_right (by decide)
  · omega

theorem genPow_lt (i : Nat) : genPow i < 2048 := by
  induction i with
  | zero => decide
  | succ i ih =>
    rw [genPow, Function.iterate_succ_apply']
    exact nextElement_lt ih

theorem genPow_succ (i : Nat) : genPow (i + 1) = nextElement 2048 5 (genPow i) :=
  Function.iterate_succ_apply' _ _ _

/-- What `build_tables` has written after `i` iterations. -/
structure TablesInv (i : Nat) (exp_table log_table : List Nat) : Prop where
  length_exp : exp_table.length = 2048
  length_log : log_table.length = 2048
  exp_lt : ∀ v ∈ exp_table, v < 2048
  log_lt : ∀ v ∈ log_table, v < 2048
  exp_pow : ∀ j < i, exp_table[j]? = some (genPow j)
  log_pow : ∀ j < i, ∃ l, log_table[genPow j]? = some l ∧ l < i ∧ genPow l = genPow j

theorem tablesInv_init : TablesInv 0 (List.replicate 2048 0) (List.replicate 2048 0) where
  length_exp := List.length_replicate
  length_log := List.length_replicate
  exp_lt := fun v hv => by rw [List.eq_of_mem_replicate hv]; decide
  log_lt := fun v hv => by rw [List.eq_of_mem_replicate hv]; decide
  exp_pow := fun _ hj => absurd hj (Nat.not_lt_zero _)
  log_pow := fun _ hj => absurd hj (Nat.not_lt_zero _)

/-- One iteration writes the next power and its log. -/
theorem TablesInv.step {i : Nat} {exp_table log_table : List Nat} (hinv : TablesInv i exp_table log_table)
    (hi : i < 2048) :
    TablesInv (i + 1) (exp_table.set i (genPow i)) (log_table.set (genPow i) i) := by
  have hexp : i < exp_table.length := by rw [hinv.length_exp]; exact hi
  have hlog : genPow i < log_table.length := by rw [hinv.length_log]; exact genPow_lt i
  refine ⟨by rw [List.length_set, hinv.length_exp], by rw [List.length_set, hinv.length_log],
    fun v hv => ?_, fun v hv => ?_, fun j hj => ?_, fun j hj => ?_⟩
  · rcases List.mem_or_eq_of_mem_set hv with hv | rfl
    · exact hinv.exp_lt v hv
    · exact genPow_lt i
  · rcases List.mem_or_eq_of_mem_set hv with hv | rfl
    · exact hinv.log_lt v hv
    · exact hi
  · rcases Nat.lt_succ_iff_lt_or_eq.mp hj with hj | rfl
    · rw [List.getElem?_set_ne (by omega)]
      exact hinv.exp_pow j hj
    · exact List.getElem?_set_self hexp
  · -- the log of a power written again is the later index
    by_cases hsame : genPow i = genPow j
    · exact ⟨i, by rw [hsame.symm]; exact List.getElem?_set_self hlog, Nat.lt_succ_self i, hsame⟩
    · have hj : j < i := by
        rcases Nat.lt_succ_iff_lt_or_eq.mp hj with hj | rfl
        · exact hj
        · exact absurd rfl hsame
      obtain ⟨l, hl, hli, hpow⟩ := hinv.log_pow j hj
      exact ⟨l, by rw [List.getElem?_set_ne hsame]; exact hl, Nat.lt_succ_of_lt hli, hpow⟩

theorem buildTablesLoop_inv : ∀ (n i : Nat) {exp_table log_table : List Nat},
    TablesInv i exp_table log_table → i + n ≤ 2048 →
      TablesInv (i + n) (buildTablesLoop 2048 5 n i (genPow i) exp_table log_table).1
        (buildTablesLoop 2048 5 n i (genPow i) exp_table log_table).2
  | 0, _, _, _, hinv, _ => hinv
  | n + 1, i, _, _, hinv, hn => by
    rw [buildTablesLoop, ← genPow_succ, show i + (n + 1) = i + 1 + n by omega]
    exact buildTablesLoop_inv n (i + 1) (hinv.step (by omega)) (by omega)

theorem build_tables_eq : build_tables =
    buildTablesLoop 2048 5 2048 0 (genPow 0) (List.replicate 2048 0) (List.replicate 2048 0) :=
  rfl

theorem tablesInv_build : TablesInv 2048 exp_table log_table := by
  have hrun := buildTablesLoop_inv 2048 0 tablesInv_init (Nat.le_refl _)
  rw [Nat.zero_add] at hrun
  rw [exp_table, log_table, build_tables_eq]
  exact hrun

theorem length_exp_table : exp_table.length = 2048 := tablesInv_build.length_exp

theorem length_log_table : log_table.length = 2048 := tablesInv_build.length_log

theorem getD_table_lt {table : List Nat} (htable : ∀ v ∈ table, v < 2048) (i : Nat) :
    table.getD i 0 < 2048 := by
  rw [List.getD_eq_getElem?_getD]
  cases h : table[i]? with
  | none => decide
  | some v => exact htable v (List.mem_of_getElem? h)

theorem index_table {table : List Nat} (hlen : table.length = 2048) {i : Nat} (hi : i < 2048) :
    index table i = .ok (table.getD i 0) := by
  rw [index_of_lt (by omega), List.getD_eq_getElem?_getD, List.getElem?_eq_getElem (by omega)]
  rfl

/-! ## Evaluation by the tables -/

/-- The value `horner` computes when every read is in range. -/
def hornerValue (x : Nat) (coeffs : List Nat) : Nat :=
  coeffs.foldr (fun coeff fx => if fx = 0 then coeff
    else exp_table.getD ((log_table.getD x 0 + log_table.getD fx 0) % max_bits_value) 0 ^^^ coeff) 0

theorem hornerStep_eq {logx coeff fx : Nat} (hfx : fx < 2048) :
    hornerStep logx coeff fx = .ok (if fx = 0 then coeff
      else exp_table.getD ((logx + log_table.getD fx 0) % max_bits_value) 0 ^^^ coeff) := by
  unfold hornerStep
  split
  · rfl
  · have hmod : (logx + log_table.getD fx 0) % max_bits_value < 2048 :=
      Nat.lt_of_lt_of_le (Nat.mod_lt _ (by decide)) (by decide)
    rw [index_table length_log_table hfx, ok_bind, index_table length_exp_table hmod, ok_bind]
    rfl

theorem horner_eq {x : Nat} (hx : x < 2048) :
    ∀ {coeffs : List Nat}, (∀ c ∈ coeffs, c < 2048) →
      horner x coeffs = .ok (hornerValue x coeffs) ∧ hornerValue x coeffs < 2048
  | [], _ => by
    rw [horner, index_table length_log_table hx, ok_bind]
    exact ⟨rfl, Nat.zero_lt_succ _⟩
  | coeff :: coeffs, hc => by
    obtain ⟨hrest, hlt⟩ := horner_eq hx fun c hcm => hc c (List.mem_cons_of_mem coeff hcm)
    rw [horner, index_table length_log_table hx, ok_bind] at hrest ⊢
    have hcoeff : coeff < 2048 := hc coeff List.mem_cons_self
    have hexp := getD_table_lt tablesInv_build.exp_lt
      ((log_table.getD x 0 + log_table.getD (hornerValue x coeffs) 0) % max_bits_value)
    refine ⟨by rw [List.foldrM_cons, hrest, ok_bind, hornerStep_eq hlt]; rfl, ?_⟩
    show (if hornerValue x coeffs = 0 then coeff else _ ^^^ coeff) < 2048
    split
    · exact hcoeff
    · exact Nat.xor_lt_two_pow (n := 11) hexp hcoeff

/-! ## The random coefficients -/

/-- The value `GetBits` reads: `num_bits` bits of the stream from bit `q`. -/
def bitsValue (rand : Nat → UInt8) (q : Nat) : Nat :=
  (List.range num_bits).foldl
    (fun output k => if randomBit rand (q + k) then output ||| 1 <<< k else output) 0

theorem getBits_num_bits (rand : Nat → UInt8) (q : Nat) :
    GetBits rand q num_bits = some (bitsValue rand q) := by
  rw [GetBits, if_neg (by decide)]
  rfl

/-- `n` bits ORed into 0 stay below `2 ^ n`. -/
theorem foldl_or_bits_lt (b : Nat → Bool) (n : Nat) :
    (List.range n).foldl (fun output k => if b k then output ||| 1 <<< k else output) 0 < 2 ^ n := by
  induction n with
  | zero => exact Nat.one_pos
  | succ n ih =>
    rw [List.range_succ, List.foldl_append, List.foldl_cons, List.foldl_nil]
    have hpow : 2 ^ n < 2 ^ (n + 1) := Nat.pow_lt_pow_right (by decide) (Nat.lt_succ_self n)
    split
    · exact Nat.or_lt_two_pow (by omega) (by rw [Nat.one_shiftLeft]; exact hpow)
    · omega

theorem bitsValue_lt (rand : Nat → UInt8) (q : Nat) : bitsValue rand q < 2048 :=
  foldl_or_bits_lt (fun k => randomBit rand (q + k)) num_bits

/-- The coefficients `drawCoeffs` draws. -/
def randomCoeffs (rand : Nat → UInt8) : Nat → Nat → List Nat
  | _, 0 => []
  | q, n + 1 => bitsValue rand q :: randomCoeffs rand (q + num_bits) n

theorem drawCoeffs_eq (rand : Nat → UInt8) :
    ∀ (q n : Nat), drawCoeffs rand q n = .ok (randomCoeffs rand q n)
  | _, 0 => rfl
  | q, n + 1 => by
    rw [drawCoeffs, getBits_num_bits, drawCoeffs_eq rand (q + num_bits) n]
    rfl

theorem randomCoeffs_lt (rand : Nat → UInt8) :
    ∀ (q n : Nat), ∀ c ∈ randomCoeffs rand q n, c < 2048
  | _, 0 => fun _ hc => absurd hc List.not_mem_nil
  | q, n + 1 => fun c hc => by
    rcases List.mem_cons.mp hc with rfl | hc
    · exact bitsValue_lt rand q
    · exact randomCoeffs_lt rand (q + num_bits) n c hc

/-! ## The word loop -/

/-- The polynomials of the word loop from bit `q` of the stream: each word, its
random coefficients, and the top coefficient 0. -/
def wordPolys (rand : Nat → UInt8) (threshold : Nat) : List Nat → Nat → List (List Nat)
  | [], _ => []
  | word :: words, q =>
    (word :: randomCoeffs rand q (threshold - 1) ++ [0]) ::
      wordPolys rand threshold words (q + num_bits * (threshold - 1))

theorem wordPolys_lt (rand : Nat → UInt8) (threshold : Nat) :
    ∀ {words : List Nat} (q : Nat), (∀ w ∈ words, w < 2048) →
      ∀ poly ∈ wordPolys rand threshold words q, ∀ c ∈ poly, c < 2048
  | [], _, _ => fun _ hp => absurd hp List.not_mem_nil
  | word :: words, q, hw => fun poly hp c hc => by
    rcases List.mem_cons.mp hp with rfl | hp
    · simp only [List.mem_cons, List.mem_append, List.not_mem_nil, or_false] at hc
      rcases hc with (rfl | hc) | rfl
      · exact hw c List.mem_cons_self
      · exact randomCoeffs_lt rand q _ c hc
      · decide
    · exact wordPolys_lt rand threshold _ (fun w hm => hw w (List.mem_cons_of_mem word hm)) poly hp c hc

theorem length_wordPolys (rand : Nat → UInt8) (threshold : Nat) :
    ∀ (words : List Nat) (q : Nat), (wordPolys rand threshold words q).length = words.length
  | [], _ => rfl
  | _ :: words, q => by
    rw [wordPolys, List.length_cons, length_wordPolys rand threshold words, List.length_cons]

/-- Appending the values of a list that has one for each share. -/
theorem zipWith_append_range (shares : List (List Nat)) (g : Nat → Nat) :
    List.zipWith (· ++ [·]) shares ((List.range shares.length).map g) =
      shares.mapIdx fun j share => share ++ [g j] := by
  apply List.ext_getElem?
  intro j
  rw [List.getElem?_zipWith, List.getElem?_mapIdx, List.getElem?_map]
  cases h : shares[j]? with
  | none => rfl
  | some share =>
    rw [List.getElem?_range (List.getElem?_eq_some_iff.mp h).1]
    rfl

/-- The word loop appends to share `j` every polynomial at `j + 1`. -/
theorem splitShares_eq (rand : Nat → UInt8) {num_shares threshold : Nat} (hn : num_shares ≤ 2047) :
    ∀ {words : List Nat} (q : Nat) {shares : List (List Nat)}, (∀ w ∈ words, w < 2048) →
      shares.length = num_shares →
      splitShares rand num_shares threshold words q shares =
        .ok (shares.mapIdx fun j share =>
          share ++ (wordPolys rand threshold words q).map (hornerValue (j + 1)))
  | [], _, shares, _, _ => by
    simp only [splitShares, wordPolys, List.map_nil, List.append_nil]
    refine congrArg Except.ok (List.ext_getElem? fun j => ?_)
    rw [List.getElem?_mapIdx]
    cases shares[j]? <;> rfl
  | word :: words, q, shares, hw, hlen => by
    have hpoly := wordPolys_lt rand threshold q hw _ List.mem_cons_self
    have hys : (List.range num_shares).mapM
        (fun k => horner (k + 1) (word :: randomCoeffs rand q (threshold - 1) ++ [0])) =
          .ok ((List.range num_shares).map fun k =>
            hornerValue (k + 1) (word :: randomCoeffs rand q (threshold - 1) ++ [0])) :=
      mapM_eq_ok fun k hk => (horner_eq (by have := List.mem_range.mp hk; omega) hpoly).1
    have hrest := @splitShares_eq rand num_shares threshold hn _ (q + num_bits * (threshold - 1)) _
      (fun w hm => hw w (List.mem_cons_of_mem word hm))
      (show (shares.mapIdx fun j share => share ++
        [hornerValue (j + 1) (word :: randomCoeffs rand q (threshold - 1) ++ [0])]).length = num_shares
        by rw [List.length_mapIdx, hlen])
    rw [splitShares, drawCoeffs_eq, ok_bind, hys, defined_ok, ok_bind, ← hlen, zipWith_append_range,
      hlen, hrest, List.mapIdx_mapIdx]
    simp only [wordPolys, List.map_cons, Function.comp_def, List.append_assoc, List.singleton_append]

/-! ## The parameter words -/

theorem countBits_zero : CountBits 0 = 0 := by
  rw [CountBits, if_pos rfl]

theorem countBits_of_ne_zero {x : Nat} (hx : x ≠ 0) : CountBits x = CountBits (x >>> 1) + 1 := by
  rw [CountBits, if_neg hx]

theorem lt_two_pow_countBits (x : Nat) : x < 2 ^ CountBits x := by
  induction x using CountBits.induct with
  | case1 => rw [countBits_zero]; decide
  | case2 x hx ih =>
    have hhalf : x >>> 1 = x / 2 := by rw [Nat.shiftRight_eq_div_pow, Nat.pow_one]
    rw [countBits_of_ne_zero hx, Nat.pow_succ]
    rw [hhalf] at ih ⊢
    omega

theorem countBits_le {x n : Nat} (hx : x < 2 ^ n) : CountBits x ≤ n := by
  induction x using CountBits.induct generalizing n with
  | case1 => rw [countBits_zero]; exact Nat.zero_le n
  | case2 x hx0 ih =>
    cases n with
    | zero => omega
    | succ n =>
      have hhalf : x >>> 1 < 2 ^ n := by
        rw [Nat.shiftRight_eq_div_pow, Nat.pow_one]
        rw [Nat.pow_succ] at hx
        omega
      rw [countBits_of_ne_zero hx0]
      exact Nat.succ_le_succ (ih hhalf)

theorem countBits_pos {x : Nat} (hx : x ≠ 0) : 0 < CountBits x := by
  rw [countBits_of_ne_zero hx]
  exact Nat.succ_pos _

theorem length_paramsWords (threshold i : Nat) :
    (paramsWords threshold i).length = (max (CountBits threshold) (CountBits i) + 4) / 5 := by
  simp [paramsWords]

theorem paramsWords_lt (threshold i : Nat) : ∀ p ∈ paramsWords threshold i, p < 2048 := by
  intro p hp
  simp only [paramsWords, List.mem_map, List.mem_range] at hp
  obtain ⟨k, -, rfl⟩ := hp
  -- five bits of each, below the run-on bit
  have hm : (threshold >>> (5 * k)) &&& 0x1F ≤ 31 := Nat.and_le_right
  have hi : (i >>> (5 * k)) &&& 0x1F &&& 0x1F ≤ 31 := Nat.and_le_right
  have hword : ((threshold >>> (5 * k)) &&& 0x1F) <<< 5 + ((i >>> (5 * k)) &&& 0x1F &&& 0x1F) < 1024 := by
    rw [Nat.shiftLeft_eq]
    omega
  split
  · exact Nat.or_lt_two_pow (n := 11) (by omega) (by decide)
  · omega

theorem paramsWords_ne_nil {threshold : Nat} (ht : threshold ≠ 0) (i : Nat) :
    paramsWords threshold i ≠ [] := by
  have hpos := countBits_pos ht
  rw [← List.length_pos_iff, length_paramsWords]
  omega

/-! ## The share texts -/

theorem versionWord_eq : versionWord = [115, 104, 97, 109, 105, 114, 51, 57, 45, 112, 49] := by
  unfold versionWord cstr
  decide +kernel

theorem length_versionWord : versionWord.length = 11 := by
  rw [versionWord_eq]
  rfl

/-- Words without a space, joined by spaces, as the Japanese text writes them. -/
theorem replaceStrInPlace_intercalate {ws : List Bytes} (hws : ∀ w ∈ ws, (32 : UInt8) ∉ w) :
    ReplaceStrInPlace ([32].intercalate ws) 32 ideographicSpace = ideographicSpace.intercalate ws := by
  rw [ReplaceStrInPlace, flatMap_intercalate, List.flatMap_singleton, if_pos rfl]
  congr 1
  conv_rhs => rw [← List.map_id ws]
  apply List.map_congr_left
  intro w hw
  calc w.flatMap (fun c => if c = 32 then ideographicSpace else [c])
      = w.flatMap (fun c => [c]) :=
        List.flatMap_congr fun c hc => if_neg fun (h : c = 32) => hws w hw (h ▸ hc)
    _ = w := List.flatMap_singleton' w

theorem shareText_eq (nLanguage : Int) (L : WordList) (threshold i : Nat) {share : List Nat}
    (hshare : ∀ o ∈ share, o < 2048) :
    shareText nLanguage L.text threshold i share =
      .ok (mnemonicText nLanguage
        (versionWord :: (share ++ paramsWords threshold i).reverse.map (L.words.getD · []))) := by
  have hoffsets : ∀ o ∈ (share ++ paramsWords threshold i).reverse, o < 2048 := by
    intro o ho
    rcases List.mem_append.mp (List.mem_reverse.mp ho) with ho | ho
    · exact hshare o ho
    · exact paramsWords_lt threshold i o ho
  have hmem : ∀ w ∈ (share ++ paramsWords threshold i).reverse.map (L.words.getD · []),
      w ∈ L.words := by
    intro w hw
    obtain ⟨o, ho, rfl⟩ := List.mem_map.mp hw
    exact L.getD_mem (hoffsets o ho)
  have hwords : ∀ w ∈ versionWord :: (share ++ paramsWords threshold i).reverse.map (L.words.getD · []),
      w ≠ [] ∧ (32 : UInt8) ∉ w := by
    intro w hw
    rcases List.mem_cons.mp hw with rfl | hw
    · rw [versionWord_eq]
      exact ⟨List.cons_ne_nil _ _, by decide⟩
    · exact ⟨L.ne_nil w (hmem w hw), fun h => (L.byte_ne (hmem w hw) h).2.1 rfl⟩
  rw [shareText, getWords_text nLanguage L hoffsets, ok_bind]
  dsimp only
  rw [joinWords_eq fun w hw => (hwords w hw).1, mnemonicText]
  split
  · rw [replaceStrInPlace_intercalate fun w hw => (hwords w hw).2]
    rfl
  · rfl

theorem shareTexts_eq (nLanguage : Int) (L : WordList) (threshold : Nat) :
    ∀ (i : Nat) {shares : List (List Nat)}, (∀ share ∈ shares, ∀ o ∈ share, o < 2048) →
      shareTexts nLanguage L.text threshold i shares =
        .ok (shares.mapIdx fun j share => mnemonicText nLanguage
          (versionWord :: (share ++ paramsWords threshold (i + j)).reverse.map (L.words.getD · [])))
  | _, [], _ => rfl
  | i, share :: shares, h => by
    rw [shareTexts, shareText_eq nLanguage L threshold i (h share List.mem_cons_self), ok_bind,
      shareTexts_eq nLanguage L threshold (i + 1) fun s hs => h s (List.mem_cons_of_mem share hs),
      ok_bind, List.mapIdx_cons, Nat.add_zero]
    simp only [Nat.add_assoc, Nat.add_comm 1]
    rfl

/-! ## What `splitmnemonic` writes -/

theorem count_wordListText {ws : List Bytes} (hws : ∀ w ∈ ws, 10 ∉ w) :
    (wordListText ws).count 10 = ws.length := by
  induction ws with
  | nil => rfl
  | cons w ws ih =>
    rw [wordListText_cons, List.count_append, List.count_cons_self,
      List.count_eq_zero_of_not_mem (hws w List.mem_cons_self),
      ih fun u hu => hws u (List.mem_cons_of_mem w hu), List.length_cons]
    omega

theorem count_text (L : WordList) : L.text.count 10 = 2048 := by
  rw [WordList.text, count_wordListText L.newline_not_mem, L.length_words]

theorem one_le_of_languageList {env : MnemonicEnv} {nLanguage : Int} {L : WordList}
    (hL : languageList env nLanguage = some L) : 1 ≤ nLanguage := by
  unfold languageList at hL
  split at hL
  · cases hL
  · omega

theorem addPaddingWord_lt {word_offsets : List Nat} (h : ∀ o ∈ word_offsets, o < 2048) :
    ∀ o ∈ addPaddingWord word_offsets, o < 2048 := by
  intro o ho
  rcases List.mem_cons.mp ho with rfl | ho
  · -- at most three bits of padding
    have hpad : (word_offsets.length * num_bits + 3) / 4 * 4 - word_offsets.length * num_bits ≤ 3 := by
      omega
    rw [Nat.one_shiftLeft]
    exact Nat.lt_of_le_of_lt (Nat.pow_le_pow_right (by decide) hpad) (by decide)
  · exact h o ho

theorem mapIdx_replicate {β : Type} (n : Nat) (a : List Nat) (f : Nat → List Nat → β) :
    (List.replicate n a).mapIdx f = (List.range n).map fun j => f j a := by
  apply List.ext_getElem?
  intro j
  rw [List.getElem?_mapIdx, List.getElem?_map, List.getElem?_replicate]
  by_cases hj : j < n
  · rw [if_pos hj, List.getElem?_range hj]
    rfl
  · rw [if_neg hj, List.getElem?_eq_none (by simpa using hj)]
    rfl

/-- The word offsets of share `i`, in the order of its text: the parameter
words, then the evaluations from the padding word on. -/
def shareWords (rand : Nat → UInt8) (threshold : Nat) (word_offsets : List Nat) (i : Nat) :
    List Nat :=
  ((wordPolys rand threshold (addPaddingWord word_offsets).reverse 0).map (hornerValue (i + 1)) ++
    paramsWords threshold i).reverse

/-- `splitmnemonic` on a mnemonic whose words are in the list: share `i` is the
version word and the words at the offsets `shareWords` gives. -/
theorem splitmnemonic_eq {env : MnemonicEnv} {language_ind : Int} {L : WordList}
    (hL : languageList env language_ind = some L) {num_shares threshold : Nat}
    (hn : 2 ≤ num_shares ∧ num_shares ≤ 2047) (ht : 2 ≤ threshold ∧ threshold ≤ num_shares)
    {mnemonic_in : Bytes} {ws : List Bytes} (hws : ∀ w ∈ ws, w ∈ L.words) (hne : ws ≠ [])
    (htext : NormaliseInput env mnemonic_in = [32].intercalate ws)
    (hlen : ([32].intercalate ws).length < 4096) (rand : Nat → UInt8) :
    splitmnemonic env mnemonic_in language_ind num_shares threshold rand =
      .ok ((List.range num_shares).map fun i => mnemonicText language_ind
        (versionWord :: (shareWords rand threshold (ws.map L.index) i).map (L.words.getD · []))) := by
  have hoffsets : ∀ o ∈ addPaddingWord (ws.map L.index), o < 2048 := by
    apply addPaddingWord_lt
    intro o ho
    obtain ⟨w, hw, rfl⟩ := List.mem_map.mp ho
    exact L.index_lt (hws w hw)
  have hreversed : ∀ o ∈ (addPaddingWord (ws.map L.index)).reverse, o < 2048 :=
    fun o ho => hoffsets o (List.mem_reverse.mp ho)
  have hshares := @splitShares_eq rand num_shares threshold hn.2 _ 0 (List.replicate num_shares [])
    hreversed List.length_replicate
  have hpolys := wordPolys_lt rand threshold 0 hreversed
  have hvalues : ∀ share ∈ (List.replicate num_shares ([] : List Nat)).mapIdx (fun j share =>
      share ++ (wordPolys rand threshold (addPaddingWord (ws.map L.index)).reverse 0).map
        (hornerValue (j + 1))), ∀ o ∈ share, o < 2048 := by
    intro share hshare o ho
    rw [mapIdx_replicate, List.mem_map] at hshare
    obtain ⟨j, hj, rfl⟩ := hshare
    rw [List.nil_append, List.mem_map] at ho
    obtain ⟨poly, hpoly, rfl⟩ := ho
    exact (horner_eq (by have := List.mem_range.mp hj; omega) (hpolys poly hpoly)).2
  have hlang : ¬language_ind < 0 := by have := one_le_of_languageList hL; omega
  simp only [splitmnemonic, show ¬(num_shares < 2 ∨ num_shares > max_bits_value) by
      rw [show max_bits_value = 2047 from rfl]; omega,
    show ¬(threshold < 2 ∨ threshold > num_shares) by omega, if_false, hlang, hL, count_text,
    htext, getWordOffsets_spaced hL hws hne hlen]
  rw [if_neg (fun h => h rfl)]
  change (splitShares rand num_shares threshold (addPaddingWord (ws.map L.index)).reverse 0
      (List.replicate num_shares []) >>= shareTexts language_ind L.text threshold 0) = _
  rw [hshares, ok_bind, shareTexts_eq language_ind L threshold 0 hvalues, List.mapIdx_mapIdx,
    mapIdx_replicate]
  simp only [Function.comp_def, List.nil_append, Nat.zero_add, shareWords]

end Globe
