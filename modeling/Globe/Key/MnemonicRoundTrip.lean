import Globe.Key.Mnemonic
import Mathlib.Data.List.Nodup

/-!
# Mnemonic round trips

Each pass of `Encode`'s loop reads the 11-bit field of `vIn` at its bit
offset, in both of its cases (`encodeWord_bytes`), and each pass of
`Decode`'s loop adds a word at its bit offset to a buffer whose later bits are
still zero (`packWord_beBytes`).  Over the loops: `Encode` cuts the entropy
and its checksum bits into fields (`encodeWords_bytes`), and `Decode` puts
fields back together, padded with zero bits (`packWords_replicate`).

For entropy of `4 * m` bytes, `1 ≤ m ≤ 31`, the two meet: `Encode` writes
`3 * m` words, and `Decode` packs them into the entropy followed by the
checksum bits, which it finds equal to those of the hash.  For other lengths
the word count is not a multiple of three.  `AddChecksum` over `3 * k - 1`
words, `4 ≤ k ≤ 11`, decodes them into exactly `4 * k` bytes, so that the
encoding keeps those words and adds one.
-/

namespace Globe

open ByteCodec UB CString

/-! ## The loop of `Encode` -/

theorem shiftLeft_mask_shiftLeft (b r : Nat) (hr : r ≤ 8) :
    ((b <<< r) &&& 0xFF) <<< 3 = 2 ^ (r + 3) * (b % 2 ^ (8 - r)) := by
  have hmask : (0xFF : Nat) = 2 ^ 8 - 1 := rfl
  have h256 : 2 ^ 8 = 2 ^ (8 - r) * 2 ^ r := by rw [← Nat.pow_add, Nat.sub_add_cancel hr]
  rw [hmask, Nat.and_two_pow_sub_one_eq_mod, Nat.shiftLeft_eq, Nat.shiftLeft_eq, h256,
    Nat.mul_mod_mul_right, Nat.pow_add]
  ring

theorem encodeWord_arith (Q r : Nat) (hr : r < 8) :
    (if r > 5 then
      ((((Q / 65536 % 256) <<< r) &&& 0xFF) <<< (11 - 8) ||| ((Q / 256 % 256) <<< (r - 5)) |||
        ((Q % 256) >>> (8 - (r - 5)))) &&& 0x7FF
    else
      ((((Q / 65536 % 256) <<< r) &&& 0xFF) <<< (11 - 8) ||| ((Q / 256 % 256) >>> ((8 - (11 - 8)) - r))) &&& 0x7FF)
    = Q / 2 ^ (13 - r) % 2048 := by
  have hmask : (0x7FF : Nat) = 2 ^ 11 - 1 := rfl
  have hhigh := shiftLeft_mask_shiftLeft (Q / 65536 % 256) r (by omega)
  have hb2 : Q / 256 % 256 < 2 ^ 8 := Nat.mod_lt _ (by norm_num)
  have hb3 : Q % 256 < 2 ^ 8 := Nat.mod_lt _ (by norm_num)
  simp only [show 11 - 8 = 3 from rfl, hhigh, hmask, Nat.and_two_pow_sub_one_eq_mod]
  split
  · -- the word straddles two byte boundaries: bits of three bytes
    have hlow : (Q % 256) >>> (8 - (r - 5)) < 2 ^ (r - 5) := by
      rw [Nat.shiftRight_eq_div_pow, Nat.div_lt_iff_lt_mul (Nat.two_pow_pos _), ← Nat.pow_add]
      exact lt_of_lt_of_le hb3 (Nat.pow_le_pow_right (by norm_num) (by omega))
    have hmid : (Q / 256 % 256) <<< (r - 5) < 2 ^ (r + 3) := by
      rw [Nat.shiftLeft_eq, show r + 3 = 8 + (r - 5) by omega, Nat.pow_add]
      exact Nat.mul_lt_mul_of_pos_right hb2 (Nat.two_pow_pos _)
    have hsplit : 2 ^ (r + 3) * (Q / 65536 % 256 % 2 ^ (8 - r)) + (Q / 256 % 256) <<< (r - 5) =
        2 ^ (r - 5) * (2 ^ 8 * (Q / 65536 % 256 % 2 ^ (8 - r)) + Q / 256 % 256) := by
      rw [Nat.shiftLeft_eq, show r + 3 = (r - 5) + 8 by omega, Nat.pow_add]
      ring
    rw [← Nat.two_pow_add_eq_or_of_lt hmid, hsplit, ← Nat.two_pow_add_eq_or_of_lt hlow]
    have h6 : r = 6 ∨ r = 7 := by omega
    rcases h6 with rfl | rfl <;> simp only [Nat.shiftRight_eq_div_pow] <;> omega
  · have hlow : (Q / 256 % 256) >>> (8 - 3 - r) < 2 ^ (r + 3) := by
      rw [Nat.shiftRight_eq_div_pow, Nat.div_lt_iff_lt_mul (Nat.two_pow_pos _), ← Nat.pow_add]
      exact lt_of_lt_of_le hb2 (Nat.pow_le_pow_right (by norm_num) (by omega))
    rw [← Nat.two_pow_add_eq_or_of_lt hlow]
    interval_cases r <;> simp only [Nat.shiftRight_eq_div_pow] <;> omega


theorem index_beBytes {k j : Nat} (hj : j < k) (x : Nat) :
    index (beBytes k x) j = .ok (UInt8.ofNat (x / 256 ^ (k - 1 - j))) := by
  simp [index, getElem?_beBytes hj]

theorem div_pow_256_sub (V : Nat) {n s : Nat} (d : Nat) (h : s + 3 ≤ n) (hd : d ≤ 2) :
    V / 256 ^ (n - 1 - (s + d)) = V / 256 ^ (n - 3 - s) / 256 ^ (2 - d) := by
  rw [Nat.div_div_eq_div_mul, ← Nat.pow_add]
  congr 2
  omega

theorem encodeWord_bytes {vIn : Bytes} {i : Nat} (hi : i / 8 + 3 ≤ vIn.length) :
    encodeWord vIn i = .ok (bitField (beValue vIn) (8 * vIn.length) i 11) := by
  have hv : vIn = beBytes vIn.length (beValue vIn) := (beBytes_beValue vIn).symm
  set n := vIn.length
  set V := beValue vIn
  set Q := V / 256 ^ (n - 3 - i / 8)
  have hb1 : V / 256 ^ (n - 1 - i / 8) = Q / 65536 := by
    simpa using div_pow_256_sub V 0 hi (by omega)
  have hb2 : V / 256 ^ (n - 1 - (i / 8 + 1)) = Q / 256 := by
    simpa using div_pow_256_sub V 1 hi (by omega)
  have hb3 : V / 256 ^ (n - 1 - (i / 8 + 2)) = Q := by
    simpa using div_pow_256_sub V 2 hi (by omega)
  have hfield : bitField V (8 * n) i 11 = Q / 2 ^ (13 - i % 8) % 2048 := by
    have he : 8 * n - (i + 11) = 8 * (n - 3 - i / 8) + (13 - i % 8) := by omega
    rw [bitField, he, Nat.pow_add, Nat.pow_mul, ← Nat.div_div_eq_div_mul]
    rfl
  rw [hfield, ← encodeWord_arith Q (i % 8) (Nat.mod_lt _ (by norm_num))]
  conv_lhs => rw [hv]
  simp only [encodeWord, index_beBytes (show i / 8 < n by omega), index_beBytes (show i / 8 + 1 < n by omega),
    index_beBytes (show i / 8 + 2 < n by omega), hb1, hb2, hb3]
  split <;> rfl
theorem encodeWords_bytes {vIn : Bytes} {nBits : Nat} (hbits : nBits + 23 ≤ 8 * vIn.length)
    (i : Nat) :
    encodeWords vIn nBits i = .ok ((List.range ((nBits - i + 10) / 11)).map fun j =>
      bitField (beValue vIn) (8 * vIn.length) (i + 11 * j) 11) := by
  fun_induction encodeWords vIn nBits i with
  | case1 i hi ih =>
    rw [encodeWord_bytes (by omega), ih]
    have hc : (nBits - i + 10) / 11 = (nBits - (i + 11) + 10) / 11 + 1 := by omega
    rw [hc, List.range_succ_eq_map, List.map_cons, List.map_map]
    simp only [Nat.mul_zero, Nat.add_zero, Function.comp_def, Nat.succ_eq_add_one, Nat.mul_add,
      Nat.mul_one, Nat.add_right_comm _ 11]
    rfl
  | case2 i hi =>
    rw [show (nBits - i + 10) / 11 = 0 by omega]
    rfl

/-! ## The loop of `Decode` -/

theorem mod_two_pow_eq_zero_of_le {x a b : Nat} (hx : x % 2 ^ a = 0) (hb : b ≤ a) :
    x % 2 ^ b = 0 :=
  Nat.mod_eq_zero_of_dvd (Nat.dvd_trans (Nat.pow_dvd_pow 2 hb) (Nat.dvd_of_mod_eq_zero hx))

theorem add_mul_256_pow_mod {x c e : Nat} (hx : x % 2 ^ (8 * e) = 0) :
    (x + c * 256 ^ e) % 2 ^ (8 * e) = 0 := by
  rw [Nat.pow_mul, show (2 : Nat) ^ 8 = 256 by norm_num] at hx ⊢
  rw [Nat.add_mul_mod_self_right, hx]

theorem mul_two_pow_div_two_pow (o : Nat) {q k : Nat} (hq : q ≤ k) :
    o * 2 ^ q / 2 ^ k = o / 2 ^ (k - q) := by
  rw [show 2 ^ k = 2 ^ (k - q) * 2 ^ q by rw [← Nat.pow_add, Nat.sub_add_cancel hq],
    Nat.mul_div_mul_right _ _ (Nat.two_pow_pos q)]

/-- The two bytes `Decode` ORs in for a word at bit offset `r ≤ 5` of a byte:
the word shifted up by `5 - r` bits. -/
theorem packWord_two_bytes_arith {o r : Nat} (ho : o < 2048) (hr : r ≤ 5) :
    ((o >>> (r + 3)) &&& 0x7FF) * 256 + ((o <<< (5 - r)) % 256 &&& 0x7FF) = o * 2 ^ (5 - r) := by
  have h8 := mul_two_pow_div_two_pow o (show 5 - r ≤ 8 by omega)
  have hhigh : o / 2 ^ (8 - (5 - r)) ≤ o := Nat.div_le_self _ _
  have hmask : (0x7FF : Nat) = 2 ^ 11 - 1 := rfl
  simp only [hmask, Nat.and_two_pow_sub_one_eq_mod, Nat.shiftRight_eq_div_pow, Nat.shiftLeft_eq]
  rw [show r + 3 = 8 - (5 - r) by omega]
  omega

/-- The three bytes for a word at bit offset 6 or 7: the word shifted up by
`13 - r` bits. -/
theorem packWord_three_bytes_arith {o r : Nat} (ho : o < 2048) (hr : 5 < r ∧ r < 8) :
    ((o >>> (r + 3)) &&& 0x7FF) * 65536 + ((o >>> (r - 5)) % 256 &&& 0x7FF) * 256 +
      ((o <<< (8 - (r - 5))) % 256 &&& 0x7FF) = o * 2 ^ (13 - r) := by
  have h8 := mul_two_pow_div_two_pow o (show 13 - r ≤ 8 by omega)
  have h16 := mul_two_pow_div_two_pow o (show 13 - r ≤ 16 by omega)
  have hhigh : o / 2 ^ (16 - (13 - r)) ≤ o := Nat.div_le_self _ _
  have hmask : (0x7FF : Nat) = 2 ^ 11 - 1 := rfl
  simp only [hmask, Nat.and_two_pow_sub_one_eq_mod, Nat.shiftRight_eq_div_pow, Nat.shiftLeft_eq]
  rw [show r + 3 = 16 - (13 - r) by omega, show r - 5 = 8 - (13 - r) by omega,
    show 8 - (8 - (13 - r)) = 13 - r by omega]
  omega

/-- One word of `Decode`'s loop ORed into a buffer whose bits from `i` on are
still zero adds the word at bit `i`. -/
theorem packWord_beBytes {el i o x : Nat} (hi : i + 11 ≤ 8 * el) (ho : o < 2048)
    (hx : x % 2 ^ (8 * el - i) = 0) :
    packWord el (beBytes el x) i o = beBytes el (x + o * 2 ^ (8 * el - i - 11)) := by
  have hmask : (0x7FF : Nat) = 2 ^ 11 - 1 := rfl
  have hr : i % 8 < 8 := Nat.mod_lt _ (by norm_num)
  have hs1 : i / 8 + 1 < el := by omega
  -- the first byte takes the top `8 - r` bits of the word
  have hc1 : (o >>> (i % 8 + 3)) &&& 0x7FF < 2 ^ (8 - i % 8) := by
    simp only [hmask, Nat.and_two_pow_sub_one_eq_mod, Nat.shiftRight_eq_div_pow]
    interval_cases h : i % 8 <;> omega
  have hlow1 : x % 2 ^ (8 * (el - 1 - i / 8) + (8 - i % 8)) = 0 := by
    rw [show 8 * (el - 1 - i / 8) + (8 - i % 8) = 8 * el - i by omega]
    exact hx
  have hstep1 := modify_or_beBytes (show i / 8 < el by omega) (by omega) hc1 hlow1
  set x1 := x + ((o >>> (i % 8 + 3)) &&& 0x7FF) * 256 ^ (el - 1 - i / 8) with hx1
  have hx1low : x1 % 2 ^ (8 * (el - 1 - i / 8)) = 0 :=
    add_mul_256_pow_mod (mod_two_pow_eq_zero_of_le hx (by omega))
  simp only [packWord]
  rw [hstep1, if_pos hs1]
  split
  · -- a word that reaches into a third byte
    next hr5 =>
    have hs2 : i / 8 + 2 < el := by omega
    have hc2 : (o >>> (i % 8 - 5)) % 256 &&& 0x7FF < 2 ^ 8 := by
      simp only [hmask, Nat.and_two_pow_sub_one_eq_mod]
      omega
    have hlow2 : x1 % 2 ^ (8 * (el - 1 - (i / 8 + 1)) + 8) = 0 := by
      rw [show 8 * (el - 1 - (i / 8 + 1)) + 8 = 8 * (el - 1 - i / 8) by omega]
      exact hx1low
    rw [modify_or_beBytes (show i / 8 + 1 < el by omega) (le_refl 8) hc2 hlow2, if_pos hs2]
    have hc3 : (o <<< (8 - (i % 8 - 5))) % 256 &&& 0x7FF < 2 ^ 8 := by
      simp only [hmask, Nat.and_two_pow_sub_one_eq_mod]
      omega
    have hlow3 : (x1 + ((o >>> (i % 8 - 5)) % 256 &&& 0x7FF) * 256 ^ (el - 1 - (i / 8 + 1))) %
        2 ^ (8 * (el - 1 - (i / 8 + 2)) + 8) = 0 := by
      rw [show 8 * (el - 1 - (i / 8 + 2)) + 8 = 8 * (el - 1 - (i / 8 + 1)) by omega]
      exact add_mul_256_pow_mod (mod_two_pow_eq_zero_of_le hx1low (by omega))
    rw [modify_or_beBytes hs2 (le_refl 8) hc3 hlow3]
    congr 1
    set B := 256 ^ (el - 3 - i / 8)
    have hp0 : 256 ^ (el - 1 - i / 8) = B * 65536 := by
      rw [show el - 1 - i / 8 = el - 3 - i / 8 + 2 by omega, Nat.pow_add]
    have hp1 : 256 ^ (el - 1 - (i / 8 + 1)) = B * 256 := by
      rw [show el - 1 - (i / 8 + 1) = el - 3 - i / 8 + 1 by omega, Nat.pow_succ]
    have hp2 : 256 ^ (el - 1 - (i / 8 + 2)) = B := by
      rw [show el - 1 - (i / 8 + 2) = el - 3 - i / 8 by omega]
    have hP : 2 ^ (8 * el - i - 11) = B * 2 ^ (13 - i % 8) := by
      rw [show 8 * el - i - 11 = 8 * (el - 3 - i / 8) + (13 - i % 8) by omega, Nat.pow_add,
        Nat.pow_mul]
    have key := packWord_three_bytes_arith ho ⟨hr5, hr⟩
    rw [hx1, hp0, hp1, hp2, hP]
    calc _ = x + (((o >>> (i % 8 + 3)) &&& 0x7FF) * 65536 +
          ((o >>> (i % 8 - 5)) % 256 &&& 0x7FF) * 256 + ((o <<< (8 - (i % 8 - 5))) % 256 &&& 0x7FF)) * B := by
          ring
      _ = _ := by rw [key]; ring
  · -- a word within two bytes
    next hr5 =>
    have hc2 : (o <<< (5 - i % 8)) % 256 &&& 0x7FF < 2 ^ 8 := by
      simp only [hmask, Nat.and_two_pow_sub_one_eq_mod]
      omega
    have hlow2 : x1 % 2 ^ (8 * (el - 1 - (i / 8 + 1)) + 8) = 0 := by
      rw [show 8 * (el - 1 - (i / 8 + 1)) + 8 = 8 * (el - 1 - i / 8) by omega]
      exact hx1low
    rw [modify_or_beBytes hs1 (le_refl 8) hc2 hlow2]
    congr 1
    set B := 256 ^ (el - 2 - i / 8)
    have hp0 : 256 ^ (el - 1 - i / 8) = B * 256 := by
      rw [show el - 1 - i / 8 = el - 2 - i / 8 + 1 by omega, Nat.pow_succ]
    have hp1 : 256 ^ (el - 1 - (i / 8 + 1)) = B := by
      rw [show el - 1 - (i / 8 + 1) = el - 2 - i / 8 by omega]
    have hP : 2 ^ (8 * el - i - 11) = B * 2 ^ (5 - i % 8) := by
      rw [show 8 * el - i - 11 = 8 * (el - 2 - i / 8) + (5 - i % 8) by omega, Nat.pow_add,
        Nat.pow_mul]
    have key := packWord_two_bytes_arith ho (Nat.le_of_not_lt hr5)
    rw [hx1, hp0, hp1, hP]
    calc _ = x + (((o >>> (i % 8 + 3)) &&& 0x7FF) * 256 + ((o <<< (5 - i % 8)) % 256 &&& 0x7FF)) * B := by
          ring
      _ = _ := by rw [key]; ring

/-- The loop of `Decode`: the words added one after another, each 11 bits
below the last. -/
theorem packWords_beBytes {el : Nat} (os : List Nat) (hos : ∀ o ∈ os, o < 2048) :
    ∀ i x, i + 11 * os.length ≤ 8 * el → x % 2 ^ (8 * el - i) = 0 →
      packWords el (beBytes el x) i os =
        beBytes el (x + fieldsValue 11 os * 2 ^ (8 * el - i - 11 * os.length)) := by
  induction os with
  | nil =>
    intro i x _ _
    simp [packWords, fieldsValue]
  | cons o os ih =>
    intro i x hi hx
    simp only [List.length_cons] at hi
    have ho := hos o List.mem_cons_self
    have hx' : (x + o * 2 ^ (8 * el - i - 11)) % 2 ^ (8 * el - (i + 11)) = 0 := by
      rw [show 8 * el - (i + 11) = 8 * el - i - 11 by omega, Nat.add_mul_mod_self_right]
      exact mod_two_pow_eq_zero_of_le hx (by omega)
    rw [packWords, packWord_beBytes (by omega) ho hx,
      ih (fun q hq => hos q (List.mem_cons_of_mem o hq)) (i + 11) _ (by omega) hx']
    congr 1
    have hP : 2 ^ (8 * el - i - 11) = 2 ^ (11 * os.length) * 2 ^ (8 * el - i - 11 * (os.length + 1)) := by
      rw [← Nat.pow_add]
      congr 1
      omega
    rw [fieldsValue_cons, List.length_cons, hP,
      show 8 * el - (i + 11) - 11 * os.length = 8 * el - i - 11 * (os.length + 1) by omega]
    ring

/-- From a zeroed buffer, `Decode`'s loop packs the words into the buffer,
padded with zero bits. -/
theorem packWords_replicate {el : Nat} {os : List Nat} (hos : ∀ o ∈ os, o < 2048)
    (hlen : 11 * os.length ≤ 8 * el) :
    packWords el (List.replicate el 0) 0 os = packFields 11 el os := by
  rw [← beBytes_zero, packWords_beBytes os hos 0 0 (by omega) (Nat.zero_mod _), Nat.zero_add,
    Nat.sub_zero, packFields]

/-! ## Encode -/

variable (env : MnemonicEnv)

/-- The word offsets `Encode` cuts from the entropy and the checksum bits after it. -/
def encodeIndices (vEntropy : Bytes) : List Nat :=
  let vIn := vEntropy ++ checksumBytes (env.CSHA256 vEntropy) (vEntropy.length / 4)
  let nBits := vEntropy.length * 8 + vEntropy.length / 4
  (List.range ((nBits + 10) / 11)).map fun j => bitField (beValue vIn) (8 * vIn.length) (11 * j) 11

theorem checksumBytes_length (hash : Blob 32) {nCsSize : Nat} (h : nCsSize ≤ 256) :
    (checksumBytes hash nCsSize).length = 32 := by
  simp only [checksumBytes, List.length_append, List.length_take, hash.length_eq,
    List.length_replicate]
  split <;> omega

theorem encodeIndices_lt (vEntropy : Bytes) : ∀ o ∈ encodeIndices env vEntropy, o < 2048 := by
  intro o ho
  obtain ⟨j, -, rfl⟩ := List.mem_map.mp ho
  exact bitField_lt _ _ _ 11

theorem length_encodeIndices (vEntropy : Bytes) :
    (encodeIndices env vEntropy).length = (vEntropy.length * 8 + vEntropy.length / 4 + 10) / 11 := by
  simp [encodeIndices]

theorem getD_encodeIndices_mem (L : WordList) (vEntropy : Bytes) :
    ∀ w ∈ (encodeIndices env vEntropy).map (L.words.getD · []), w ∈ L.words := by
  intro w hw
  obtain ⟨o, ho, rfl⟩ := List.mem_map.mp hw
  exact L.getD_mem (encodeIndices_lt env vEntropy o ho)

theorem index_getD_encodeIndices (L : WordList) (vEntropy : Bytes) :
    ((encodeIndices env vEntropy).map (L.words.getD · [])).map L.index = encodeIndices env vEntropy := by
  rw [List.map_map]
  conv_rhs => rw [← List.map_id (encodeIndices env vEntropy)]
  apply List.map_congr_left
  intro o ho
  exact L.index_getD (encodeIndices_lt env vEntropy o ho)

variable {env}

/-- The Japanese text replaces each space between the words. -/
theorem replaceStrInPlace_spaced {L : WordList} {ws : List Bytes} (hws : ∀ w ∈ ws, w ∈ L.words) :
    ReplaceStrInPlace ([32].intercalate ws) 32 ideographicSpace = ideographicSpace.intercalate ws := by
  rw [ReplaceStrInPlace, flatMap_intercalate, List.flatMap_singleton, if_pos rfl]
  congr 1
  conv_rhs => rw [← List.map_id ws]
  apply List.map_congr_left
  intro w hw
  calc w.flatMap (fun c => if c = 32 then ideographicSpace else [c])
      = w.flatMap (fun c => [c]) :=
        List.flatMap_congr fun c hc => if_neg (L.byte_ne (hws w hw) hc).2.1
    _ = w := List.flatMap_singleton' w

/-- `Encode` writes the words at the offsets it cuts from the entropy and its
checksum, when the checksum has 1 to 233 bits. -/
theorem encode_eq {nLanguage : Int} {L : WordList} (hL : languageList env nLanguage = some L)
    {e : Bytes} (hcs : 1 ≤ e.length / 4) (hcs' : e.length / 4 ≤ 233) :
    Encode env nLanguage e =
      .ok (mnemonicText nLanguage ((encodeIndices env e).map (L.words.getD · []))) := by
  have hvIn : (e ++ checksumBytes (env.CSHA256 e) (e.length / 4)).length = e.length + 32 := by
    rw [List.length_append, checksumBytes_length _ (by omega)]
  have hwords := encodeWords_bytes
    (show e.length * 8 + e.length / 4 + 23 ≤ 8 * (e ++ checksumBytes (env.CSHA256 e) (e.length / 4)).length
      by rw [hvIn]; omega) 0
  simp only [Nat.sub_zero, Nat.zero_add] at hwords
  have hws := getD_encodeIndices_mem env L e
  have hjoin := joinWords_eq fun w hw => L.ne_nil w (hws w hw)
  simp only [Encode, hL, show ¬(e.length / 4 < 1 ∨ e.length / 4 > 256) by omega, if_false]
  change (do
      let vWord ← defined (encodeWords _ _ 0)
      let words ← getWords nLanguage L.text vWord
      if nLanguage = WLL_JAPANESE then pure (ReplaceStrInPlace (joinWords words) 32 ideographicSpace)
      else pure (joinWords words)) = _
  rw [hwords]
  change (do
      let words ← getWords nLanguage L.text (encodeIndices env e)
      if nLanguage = WLL_JAPANESE then pure (ReplaceStrInPlace (joinWords words) 32 ideographicSpace)
      else pure (joinWords words)) = _
  rw [getWords_text nLanguage L (encodeIndices_lt env e)]
  change (if nLanguage = WLL_JAPANESE then _ else _) = _
  rw [hjoin, mnemonicText]
  split
  · rw [replaceStrInPlace_spaced hws]
    rfl
  · rfl

/-! ## A word list to run the round trips on -/

/-- Word `n` of a list of two-letter words over the ASCII characters 48 to 111. -/
def sampleWord (n : Nat) : Bytes := [UInt8.ofNat (48 + n / 64), UInt8.ofNat (48 + n % 64)]

theorem toNat_sampleWord {n : Nat} (hn : n < 2048) {c : UInt8} (hc : c ∈ sampleWord n) :
    48 ≤ c.toNat ∧ c.toNat < 112 := by
  simp only [sampleWord, List.mem_cons, List.not_mem_nil, or_false] at hc
  rcases hc with rfl | rfl
  · simp only [UInt8.toNat_ofNat']
    omega
  · simp only [UInt8.toNat_ofNat']
    omega

def sampleWords : WordList where
  words := (List.range 2048).map sampleWord
  length_words := by simp
  nodup := by
    refine List.Nodup.map_on (fun x hx y hy h => ?_) List.nodup_range
    rw [List.mem_range] at hx hy
    simp only [sampleWord, List.cons.injEq, and_true] at h
    have h1 := congrArg UInt8.toNat h.1
    have h2 := congrArg UInt8.toNat h.2
    simp only [UInt8.toNat_ofNat'] at h1 h2
    omega
  ne_nil := by simp [sampleWord]
  wordBytes := by
    intro w hw c hc
    obtain ⟨n, hn, rfl⟩ := List.mem_map.mp hw
    have h := toNat_sampleWord (List.mem_range.mp hn) hc
    exact ⟨fun h0 => by rw [h0] at h; simp at h, isSpaceByte_eq_false (by omega)⟩

-- `simp only` and not `rfl`: unifying with the list would unfold `List.range 2048`
theorem mem_sampleWords {w : Bytes} (hw : w ∈ sampleWords.words) :
    w.length = 2 ∧ ∀ c ∈ w, 48 ≤ c.toNat ∧ c.toNat < 112 := by
  simp only [sampleWords] at hw
  obtain ⟨n, hn, rfl⟩ := List.mem_map.mp hw
  exact ⟨rfl, fun c hc => toNat_sampleWord (List.mem_range.mp hn) hc⟩

theorem sampleWord_mem {n : Nat} (hn : n < 2048) : sampleWord n ∈ sampleWords.words := by
  simp only [sampleWords]
  exact List.mem_map_of_mem (List.mem_range.mpr hn)

/-- NFKD on ASCII text with ideographic spaces: U+3000 (E3 80 80) becomes a space. -/
def sampleNormalise : Bytes → Bytes
  | [] => []
  | 0xE3 :: 0x80 :: 0x80 :: rest => 32 :: sampleNormalise rest
  | c :: rest => c :: sampleNormalise rest

theorem sampleNormalise_append {w : Bytes} (hw : ∀ c ∈ w, c.toNat < 128) (t : Bytes) :
    sampleNormalise (w ++ t) = w ++ sampleNormalise t := by
  induction w with
  | nil => rfl
  | cons c w ih =>
    have hc : c.toNat < 128 := hw c List.mem_cons_self
    rw [List.cons_append, sampleNormalise.eq_3, ih fun d hd => hw d (List.mem_cons_of_mem c hd)]
    · rfl
    · rintro _ rfl
      simp at hc

theorem sampleNormalise_ideographicSpace (t : Bytes) :
    sampleNormalise (ideographicSpace ++ t) = 32 :: sampleNormalise t :=
  sampleNormalise.eq_2 t

/-- One language, the two-letter list, with any hash. -/
def sampleEnv (CSHA256 : Bytes → Blob 32) : MnemonicEnv where
  mnLanguages n := if n = 1 then some sampleWords else none
  NormaliseUnicode := sampleNormalise
  CSHA256 := CSHA256

def zeroHash (_ : Bytes) : Blob 32 := Blob.zero 32

theorem languageList_sampleEnv (CSHA256 : Bytes → Blob 32) :
    languageList (sampleEnv CSHA256) 1 = some sampleWords := by
  rw [languageList, if_neg (by decide)]
  show (if (1 : Int) = 1 then some sampleWords else none) = some sampleWords
  exact if_pos rfl

theorem sampleEnv_normalisesWords (CSHA256 : Bytes → Blob 32) :
    (sampleEnv CSHA256).NormalisesWords sampleWords := by
  intro ws hws
  have hascii : ∀ w ∈ ws, ∀ c ∈ w, c.toNat < 128 := by
    intro w hw c hc
    have := (mem_sampleWords (hws w hw)).2 c hc
    omega
  constructor
  · have htext : ∀ c ∈ [32].intercalate ws, c.toNat < 128 := by
      intro c hc
      rcases mem_intercalate_singleton hc with rfl | ⟨w, hw, hcw⟩
      · decide
      · exact hascii w hw c hcw
    have h := sampleNormalise_append htext []
    rw [List.append_nil, sampleNormalise.eq_1, List.append_nil] at h
    exact h
  · show sampleNormalise _ = _
    clear hws
    induction ws with
    | nil => rfl
    | cons w ws ih =>
      have hw := hascii w List.mem_cons_self
      cases ws with
      | nil =>
        have h := sampleNormalise_append hw []
        rw [List.append_nil, sampleNormalise.eq_1, List.append_nil] at h
        rw [List.intercalate_singleton, List.intercalate_singleton]
        exact h
      | cons w' ws =>
        rw [List.intercalate_cons_cons, List.intercalate_cons_cons, List.append_assoc,
          sampleNormalise_append hw, sampleNormalise_ideographicSpace,
          ih fun u hu c hc => hascii u (List.mem_cons_of_mem w hu) c hc, List.append_assoc]
        rfl

theorem length_sampleText {ws : List Bytes} (hws : ∀ w ∈ ws, w ∈ sampleWords.words) :
    ([32].intercalate ws).length ≤ 3 * ws.length :=
  length_intercalate_le 32 fun w hw => le_of_eq (mem_sampleWords (hws w hw)).1

/-! ## Encode, then Decode -/

section RoundTrip

variable {e : Bytes} {m c : Nat}

theorem beValue_checksumBytes (hash : Blob 32) (hc : c = m / 8 + (if m % 8 ≠ 0 then 1 else 0)) :
    beValue (checksumBytes hash m) = beValue (hash.bytes.take c) * 256 ^ (32 - c) := by
  simp only [checksumBytes, ← hc]
  rw [beValue_append, beValue_replicate_zero, List.length_replicate, Nat.add_zero]

/-- What `Decode`'s loop packs from the words of `4 * m` bytes of entropy: the
entropy, then the `m` checksum bits padded with zero bits to `c` bytes. -/
theorem packWords_encodeIndices (he : e.length = 4 * m) (hm : 1 ≤ m ∧ m ≤ 31)
    (hc : c = m / 8 + (if m % 8 ≠ 0 then 1 else 0)) :
    packWords (4 * m + c) (List.replicate (4 * m + c) 0) 0 (encodeIndices env e) =
      e ++ beBytes c (beValue ((env.CSHA256 e).bytes.take c) / 2 ^ (8 * c - m) *
        2 ^ (8 * c - m)) := by
  have hc8 : m ≤ 8 * c ∧ c ≤ 4 := by split at hc <;> omega
  have hm4 : e.length / 4 = m := by omega
  set H := beValue ((env.CSHA256 e).bytes.take c)
  set E := beValue e
  set q := 8 * c - m
  have hHlt : H < 256 ^ c := by
    have h := beValue_lt ((env.CSHA256 e).bytes.take c)
    rwa [List.length_take, (env.CSHA256 e).length_eq, Nat.min_eq_left (by omega)] at h
  have hlen : (e ++ checksumBytes (env.CSHA256 e) m).length = 4 * m + 32 := by
    rw [List.length_append, checksumBytes_length _ (by omega), he]
  -- the bits `Encode` cut: the entropy, the checksum bytes, then zeros
  have hV : beValue (e ++ checksumBytes (env.CSHA256 e) m) = (E * 2 ^ (8 * c) + H) * 2 ^ (8 * (32 - c)) := by
    rw [beValue_append, beValue_checksumBytes (env.CSHA256 e) hc, checksumBytes_length _ (by omega),
      show (256 : Nat) = 2 ^ 8 by norm_num, ← Nat.pow_mul, ← Nat.pow_mul,
      show 8 * 32 = 8 * c + 8 * (32 - c) by omega, Nat.pow_add]
    ring
  have hidx : encodeIndices env e = (List.range (3 * m)).map fun j =>
      bitField (beValue (e ++ checksumBytes (env.CSHA256 e) m)) (8 * (4 * m + 32)) (11 * j) 11 := by
    simp only [encodeIndices, hm4, show (e.length * 8 + m + 10) / 11 = 3 * m by omega]
    rw [hlen]
  have hbound : beValue (e ++ checksumBytes (env.CSHA256 e) m) < 2 ^ (8 * (4 * m + 32)) := by
    have h := beValue_lt (e ++ checksumBytes (env.CSHA256 e) m)
    rwa [hlen, show (256 : Nat) = 2 ^ 8 by norm_num, ← Nat.pow_mul] at h
  -- the top `33 * m` of those bits
  have hfields : fieldsValue 11 (encodeIndices env e) = E * 2 ^ m + H / 2 ^ q := by
    rw [hidx, fieldsValue_bitFields hbound (3 * m) (by omega), hV,
      show 8 * (4 * m + 32) - 11 * (3 * m) = 8 * (32 - c) + q by omega, Nat.pow_add,
      ← Nat.div_div_eq_div_mul, Nat.mul_div_cancel _ (Nat.two_pow_pos _),
      show 8 * c = m + q by omega, Nat.pow_add, ← Nat.mul_assoc, Nat.add_comm,
      Nat.add_mul_div_right _ _ (Nat.two_pow_pos _), Nat.add_comm]
  have hsum : (E * 2 ^ m + H / 2 ^ q) * 2 ^ q = E * 256 ^ c + H / 2 ^ q * 2 ^ q := by
    rw [show (256 : Nat) = 2 ^ 8 by norm_num, ← Nat.pow_mul, show 8 * c = m + q by omega,
      Nat.pow_add]
    ring
  rw [packWords_replicate (encodeIndices_lt env e) (by rw [length_encodeIndices]; omega),
    packFields, hfields, length_encodeIndices, show (e.length * 8 + e.length / 4 + 10) / 11 = 3 * m by omega,
    show 8 * (4 * m + c) - 11 * (3 * m) = q by omega, hsum,
    beBytes_append (lt_of_le_of_lt (Nat.div_mul_le_self H (2 ^ q)) hHlt), ← he, beBytes_beValue]

/-- The mask `((1 << r) - 1) << (8 - r)` keeps the top `r` bits of a byte. -/
theorem checksumMask_eq {r : Nat} (hr : r ≤ 8) : ((1 <<< r) - 1) <<< (8 - r) = 256 - 2 ^ (8 - r) := by
  rw [Nat.one_shiftLeft, Nat.shiftLeft_eq, Nat.sub_mul, Nat.one_mul, ← Nat.pow_add,
    Nat.add_sub_cancel' hr]

/-- `Decode`'s checksum check passes on the packed words of an encoding, and
returns the entropy. -/
theorem checkChecksum_encoded (he : e.length = 4 * m) (hm : 1 ≤ m ∧ m ≤ 31)
    (hc : c = m / 8 + (if m % 8 ≠ 0 then 1 else 0)) :
    checkChecksum env (3 * m * 11)
      (e ++ beBytes c (beValue ((env.CSHA256 e).bytes.take c) / 2 ^ (8 * c - m) *
        2 ^ (8 * c - m))) = .ok e := by
  have hc8 : m ≤ 8 * c ∧ c ≤ 4 ∧ 0 < c ∧ (m % 8 = 0 → 8 * c = m) ∧ (m % 8 ≠ 0 → 8 * c - m = 8 - m % 8) := by
    split at hc <;> omega
  set H := beValue ((env.CSHA256 e).bytes.take c)
  set X := beBytes c (H / 2 ^ (8 * c - m) * 2 ^ (8 * c - m))
  have hwin : window (e ++ X) (4 * m) c = .ok X := by
    rw [window_append_right X (by omega), he, Nat.sub_self,
      window_of_le (by rw [beBytes_length]; omega), List.drop_zero,
      List.take_of_length_le (by rw [beBytes_length])]
  have htake : (e ++ X).take (4 * m) = e := by
    rw [← he, List.take_left]
  have hhash : window (env.CSHA256 e).bytes 0 c = .ok (beBytes c H) := by
    have h := beBytes_beValue ((env.CSHA256 e).bytes.take c)
    rw [List.length_take, (env.CSHA256 e).length_eq, Nat.min_eq_left (by omega)] at h
    rw [window_of_le (by rw [(env.CSHA256 e).length_eq]; omega), List.drop_zero, h]
  -- the test bytes, with the bits past the checksum cleared
  have hmask : (if 0 < m % 8 then
      (beBytes c H).modify (c - 1) (· &&& UInt8.ofNat (((1 <<< (m % 8)) - 1) <<< (8 - m % 8)))
      else beBytes c H) = X := by
    rw [show X = beBytes c (H / 2 ^ (8 * c - m) * 2 ^ (8 * c - m)) from rfl]
    split
    · next hr =>
      rw [checksumMask_eq (by omega), modify_last_and_beBytes (by omega) (by omega),
        hc8.2.2.2.2 (by omega)]
    · next hr =>
      rw [hc8.2.2.2.1 (by omega), Nat.sub_self, Nat.pow_zero, Nat.div_one, Nat.mul_one]
  simp only [checkChecksum, show 3 * m * 11 / 32 = m by omega,
    show (3 * m * 11 - m) / 8 = 4 * m by omega,
    show m / 8 + (if m % 8 = 0 then 0 else 1) = c by split at hc <;> split <;> omega,
    hwin, defined_ok, ok_bind, htake, hhash, hmask]
  rw [if_neg (not_not.mpr rfl)]
  rfl

/-- `Decode` reads the words of an encoding back to the entropy, for `4 * m`
bytes of entropy with `1 ≤ m ≤ 31`. -/
theorem decodeWordInts_encodeIndices (he : e.length = 4 * m) (hm : 1 ≤ m ∧ m ≤ 31) :
    decodeWordInts env (encodeIndices env e) false = .ok e := by
  have hlen : (encodeIndices env e).length = 3 * m := by
    rw [length_encodeIndices]
    omega
  have hbytes : 3 * m * 11 / 8 + (if 3 * m * 11 % 8 = 0 then 0 else 1) =
      4 * m + (m / 8 + (if m % 8 ≠ 0 then 1 else 0)) := by
    split <;> split <;> omega
  simp only [decodeWordInts, hlen, hbytes,
    packWords_encodeIndices he hm rfl]
  simp only [show ¬((!false) = true ∧ 3 * m % 3 ≠ 0) by simp, if_false, Bool.false_eq_true]
  exact checkChecksum_encoded he hm rfl

variable {nLanguage : Int} {L : WordList}

theorem length_spaced_le (nLanguage : Int) (ws : List Bytes) :
    ([32].intercalate ws).length ≤ (mnemonicText nLanguage ws).length := by
  unfold mnemonicText
  split
  · exact length_intercalate_mono (by simp [ideographicSpace]) ws
  · exact le_refl _

/-- `Decode` of the text `Encode` writes goes back to the offsets `Encode` cut. -/
theorem decode_encodedWords (hL : languageList env nLanguage = some L)
    (hnorm : env.NormalisesWords L) (hcs : 1 ≤ e.length / 4)
    (hlen : ([32].intercalate ((encodeIndices env e).map (L.words.getD · []))).length < 2048)
    (fIgnoreChecksum : Bool) :
    Decode env nLanguage (mnemonicText nLanguage ((encodeIndices env e).map (L.words.getD · [])))
        fIgnoreChecksum =
      (decodeWordInts env (encodeIndices env e) fIgnoreChecksum).map (nLanguage, ·) := by
  have hws := getD_encodeIndices_mem env L e
  have hne : (encodeIndices env e).map (L.words.getD · []) ≠ [] := by
    rw [Ne, List.map_eq_nil_iff, ← List.length_eq_zero_iff, length_encodeIndices]
    omega
  rw [decode_spaced hL hws hne (normaliseInput_mnemonicText hnorm hws nLanguage) hlen,
    index_getD_encodeIndices]

theorem decode_encode (hL : languageList env nLanguage = some L) (hnorm : env.NormalisesWords L)
    (he : e.length = 4 * m) (hm : 1 ≤ m ∧ m ≤ 31) :
    ∃ W, Encode env nLanguage e = .ok W ∧
      (W.length < 2048 → Decode env nLanguage W false = .ok (nLanguage, e)) := by
  refine ⟨_, encode_eq hL (by omega) (by omega), fun hW => ?_⟩
  have hlen := lt_of_le_of_lt (length_spaced_le nLanguage _) hW
  rw [decode_encodedWords hL hnorm (by omega) hlen, decodeWordInts_encodeIndices he hm]
  rfl

theorem decode_encode_four_bytes :
    ∃ W, Encode (sampleEnv zeroHash) 1 [0, 0, 0, 0] = .ok W ∧
      (W.length < 2048 → Decode (sampleEnv zeroHash) 1 W false = .ok (1, [0, 0, 0, 0])) :=
  decode_encode (languageList_sampleEnv zeroHash) (sampleEnv_normalisesWords zeroHash)
    (show [0, 0, 0, 0].length = 4 * 1 from rfl) ⟨le_refl 1, by omega⟩

/-- Seventeen bytes of entropy pass `Encode`'s range check and give thirteen
words, which `Decode` refuses. -/
theorem encode_seventeen_bytes_undecodable :
    languageList (sampleEnv zeroHash) 1 = some sampleWords ∧
    (sampleEnv zeroHash).NormalisesWords sampleWords ∧
    ∃ W, Encode (sampleEnv zeroHash) 1 (List.replicate 17 0) = .ok W ∧ W.length < 2048 ∧
      Decode (sampleEnv zeroHash) 1 W false =
        .error (.rv 4 (cstr "No. of words must be divisible by 3")) := by
  have hL := languageList_sampleEnv zeroHash
  have hnorm := sampleEnv_normalisesWords zeroHash
  have hcount : (encodeIndices (sampleEnv zeroHash) (List.replicate 17 0)).length = 13 := by
    rw [length_encodeIndices, List.length_replicate]
  have hlen : ([32].intercalate ((encodeIndices (sampleEnv zeroHash) (List.replicate 17 0)).map
      (sampleWords.words.getD · []))).length ≤ 39 := by
    have h := length_sampleText (getD_encodeIndices_mem (sampleEnv zeroHash) sampleWords
      (List.replicate 17 0))
    rwa [List.length_map, hcount] at h
  refine ⟨hL, hnorm, _, encode_eq hL (by simp) (by simp), ?_, ?_⟩
  · have htext : mnemonicText 1 ((encodeIndices (sampleEnv zeroHash) (List.replicate 17 0)).map
        (sampleWords.words.getD · [])) = [32].intercalate ((encodeIndices (sampleEnv zeroHash)
          (List.replicate 17 0)).map (sampleWords.words.getD · [])) := if_neg (by decide)
    rw [htext]
    omega
  · rw [decode_encodedWords hL hnorm (by simp) (by omega)]
    simp only [decodeWordInts, hcount]
    rfl

end RoundTrip

end Globe
