import Globe.Lib.Positional
import Globe.Lib.BigEndian
import Globe.Key.Mnemonic

/-!
# Base58

`EncodeBase58` and `DecodeBase58` of `base58.cpp` convert between a byte
string, read as one big-endian number after its leading zero bytes, and its
base-58 digits, with each leading zero byte written as a '1'.  Both run the
schoolbook carry loop of `Positional.mulAdd` over a buffer sized
`n * 138 / 100 + 1` (encode) or `n * 733 / 1000 + 1` (decode) and assert
that no carry is left after each pass.  `EncodeBase58Check` appends four
bytes of a hash of the payload, which `DecodeBase58Check` checks and strips.

The results:
* `EncodeBase58_eq`: the encoder never trips its assert, and writes the
  leading zeros as '1's followed by the base-58 digits of the number;
* `DecodeBase58_ne_error`: the decoder never trips its assert, on any string;
* `DecodeBase58_EncodeBase58`: decoding an encoding gives the bytes back
  exactly when they fit `max_ret_len`;
* `EncodeBase58_DecodeBase58`: every string the decoder accepts is the
  encoding of what it returns, up to the white space around it;
* `DecodeBase58Check_EncodeBase58Check`: the same round trip through the
  hash check, for any hash.

The buffers hold digits as numbers below the base; `carry` never exceeds
`57 + 58 * 255`, so the `int` arithmetic of the loops is exact.
-/

namespace Globe

open ByteCodec Positional

/-- How the base58 routines stop other than by returning: the assert that no
carry is left after a pass of the carry loop. -/
inductive Base58Abort where
  | assertFailed
  deriving DecidableEq, Repr

/-- `pszBase58`: all alphanumeric characters except "0", "I", "O" and "l". -/
def pszBase58 : Bytes := cstr "123456789ABCDEFGHJKLMNPQRSTUVWXYZabcdefghijkmnopqrstuvwxyz"

/-- `mapBase58`: the digit of each character, or -1; eight entries a line. -/
def mapBase58 : List Int := [
  (-1 : Int), (-1 : Int), (-1 : Int), (-1 : Int), (-1 : Int), (-1 : Int), (-1 : Int), (-1 : Int),
  (-1 : Int), (-1 : Int), (-1 : Int), (-1 : Int), (-1 : Int), (-1 : Int), (-1 : Int), (-1 : Int),
  (-1 : Int), (-1 : Int), (-1 : Int), (-1 : Int), (-1 : Int), (-1 : Int), (-1 : Int), (-1 : Int),
  (-1 : Int), (-1 : Int), (-1 : Int), (-1 : Int), (-1 : Int), (-1 : Int), (-1 : Int), (-1 : Int),
  (-1 : Int), (-1 : Int), (-1 : Int), (-1 : Int), (-1 : Int), (-1 : Int), (-1 : Int), (-1 : Int),
  (-1 : Int), (-1 : Int), (-1 : Int), (-1 : Int), (-1 : Int), (-1 : Int), (-1 : Int), (-1 : Int),
  (-1 : Int), 0, 1, 2, 3, 4, 5, 6,
  7, 8, (-1 : Int), (-1 : Int), (-1 : Int), (-1 : Int), (-1 : Int), (-1 : Int),
  (-1 : Int), 9, 10, 11, 12, 13, 14, 15,
  16, (-1 : Int), 17, 18, 19, 20, 21, (-1 : Int),
  22, 23, 24, 25, 26, 27, 28, 29,
  30, 31, 32, (-1 : Int), (-1 : Int), (-1 : Int), (-1 : Int), (-1 : Int),
  (-1 : Int), 33, 34, 35, 36, 37, 38, 39,
  40, 41, 42, 43, (-1 : Int), 44, 45, 46,
  47, 48, 49, 50, 51, 52, 53, 54,
  55, 56, 57, (-1 : Int), (-1 : Int), (-1 : Int), (-1 : Int), (-1 : Int),
  (-1 : Int), (-1 : Int), (-1 : Int), (-1 : Int), (-1 : Int), (-1 : Int), (-1 : Int), (-1 : Int),
  (-1 : Int), (-1 : Int), (-1 : Int), (-1 : Int), (-1 : Int), (-1 : Int), (-1 : Int), (-1 : Int),
  (-1 : Int), (-1 : Int), (-1 : Int), (-1 : Int), (-1 : Int), (-1 : Int), (-1 : Int), (-1 : Int),
  (-1 : Int), (-1 : Int), (-1 : Int), (-1 : Int), (-1 : Int), (-1 : Int), (-1 : Int), (-1 : Int),
  (-1 : Int), (-1 : Int), (-1 : Int), (-1 : Int), (-1 : Int), (-1 : Int), (-1 : Int), (-1 : Int),
  (-1 : Int), (-1 : Int), (-1 : Int), (-1 : Int), (-1 : Int), (-1 : Int), (-1 : Int), (-1 : Int),
  (-1 : Int), (-1 : Int), (-1 : Int), (-1 : Int), (-1 : Int), (-1 : Int), (-1 : Int), (-1 : Int),
  (-1 : Int), (-1 : Int), (-1 : Int), (-1 : Int), (-1 : Int), (-1 : Int), (-1 : Int), (-1 : Int),
  (-1 : Int), (-1 : Int), (-1 : Int), (-1 : Int), (-1 : Int), (-1 : Int), (-1 : Int), (-1 : Int),
  (-1 : Int), (-1 : Int), (-1 : Int), (-1 : Int), (-1 : Int), (-1 : Int), (-1 : Int), (-1 : Int),
  (-1 : Int), (-1 : Int), (-1 : Int), (-1 : Int), (-1 : Int), (-1 : Int), (-1 : Int), (-1 : Int),
  (-1 : Int), (-1 : Int), (-1 : Int), (-1 : Int), (-1 : Int), (-1 : Int), (-1 : Int), (-1 : Int),
  (-1 : Int), (-1 : Int), (-1 : Int), (-1 : Int), (-1 : Int), (-1 : Int), (-1 : Int), (-1 : Int),
  (-1 : Int), (-1 : Int), (-1 : Int), (-1 : Int), (-1 : Int), (-1 : Int), (-1 : Int), (-1 : Int),
  (-1 : Int), (-1 : Int), (-1 : Int), (-1 : Int), (-1 : Int), (-1 : Int), (-1 : Int), (-1 : Int),
  (-1 : Int), (-1 : Int), (-1 : Int), (-1 : Int), (-1 : Int), (-1 : Int), (-1 : Int), (-1 : Int)]

/-- The carry loop of both directions.  It runs over the big-endian buffer
from its end (`rbegin`), so it is `mulAdd` over the reversed buffer. -/
def carryLoop (base mult length : Nat) (buf : List Nat) (carry : Nat) : List Nat × Nat × Nat :=
  let r := mulAdd base mult length buf.reverse carry 0
  (r.1.reverse, r.2)

/-- The byte loop of `EncodeBase58`: "b58 = b58 * 256 + ch" for each byte,
then `assert(carry == 0)` and `length = i`. -/
def encodeLoop : Bytes → List Nat → Nat → Except Base58Abort (List Nat × Nat)
  | [], b58, length => .ok (b58, length)
  | ch :: input, b58, length =>
    let r := carryLoop 58 256 length b58 ch.toNat
    if r.2.1 ≠ 0 then .error .assertFailed else encodeLoop input r.1 r.2.2

def EncodeBase58 (input : Bytes) : Except Base58Abort Bytes := do
  let zeroes := (input.takeWhile (· == 0)).length
  let input := input.dropWhile (· == 0)
  -- log(256) / log(58), rounded up
  let size := input.length * 138 / 100 + 1
  let r ← encodeLoop input (List.replicate size 0) 0
  -- skip leading zeroes in the base58 result
  let digits := (r.1.drop (size - r.2)).dropWhile (· == 0)
  return List.replicate zeroes 49 ++ digits.map (pszBase58.getD · 0)

/-- The loop of `DecodeBase58` that skips and counts the leading '1's, and
fails once there are more than `max_ret_len`. -/
def skipOnes (max_ret_len : Int) : Bytes → Nat → Option (Nat × Bytes)
  | [], zeroes => some (zeroes, [])
  | c :: psz, zeroes =>
    if c = 49 then
      if max_ret_len < zeroes + 1 then none else skipOnes max_ret_len psz (zeroes + 1)
    else some (zeroes, c :: psz)

/-- The character loop of `DecodeBase58`, up to the first space: "b256 =
b256 * 58 + digit" for each character, `assert(carry == 0)`, and the check
of `length + zeroes` against `max_ret_len`.  `none` is the code's `return
false`; otherwise the buffer, its length in use and the characters left. -/
def decodeLoop (max_ret_len : Int) (zeroes : Nat) :
    Bytes → List Nat → Nat → Except Base58Abort (Option (List Nat × Nat × Bytes))
  | [], b256, length => .ok (some (b256, length, []))
  | c :: psz, b256, length =>
    if isSpaceByte c then .ok (some (b256, length, c :: psz)) else
    let carry := mapBase58.getD c.toNat (-1)
    if carry = -1 then .ok none else
    let r := carryLoop 256 58 length b256 carry.toNat
    if r.2.1 ≠ 0 then .error .assertFailed
    else if max_ret_len < r.2.2 + zeroes then .ok none
    else decodeLoop max_ret_len zeroes psz r.1 r.2.2

/-- `DecodeBase58` on a C string, given as the characters before its NUL. -/
def decodeBase58CStr (psz : Bytes) (max_ret_len : Int) : Except Base58Abort (Option Bytes) :=
  match skipOnes max_ret_len (psz.dropWhile isSpaceByte) 0 with
  | none => .ok none
  | some (zeroes, psz) =>
    -- log(58) / log(256), rounded up
    let size := psz.length * 733 / 1000 + 1
    match decodeLoop max_ret_len zeroes psz (List.replicate size 0) 0 with
    | .error e => .error e
    | .ok none => .ok none
    | .ok (some (b256, length, psz)) =>
      if psz.dropWhile isSpaceByte ≠ [] then .ok none
      else .ok (some (List.replicate zeroes 0 ++ (b256.drop (size - length)).map UInt8.ofNat))

def ContainsNoNUL (str : Bytes) : Bool := str.all (· != 0)

def DecodeBase58 (str : Bytes) (max_ret_len : Int) : Except Base58Abort (Option Bytes) :=
  if !ContainsNoNUL str then .ok none else decodeBase58CStr str max_ret_len

/-- `EncodeBase58Check`, with `Hash` the double SHA-256 of the payload: its
first four bytes are appended. -/
def EncodeBase58Check (Hash : Bytes → Blob 32) (input : Bytes) : Except Base58Abort Bytes :=
  EncodeBase58 (input ++ (Hash input).bytes.take 4)

/-- `DecodeBase58Check` on a C string.  The limit passed on leaves room for
the four check bytes, and saturates at `INT_MAX`. -/
def decodeBase58CheckCStr (Hash : Bytes → Blob 32) (psz : Bytes) (max_ret_len : Int) :
    Except Base58Abort (Option Bytes) := do
  let limit := if 2 ^ 31 - 1 - 4 < max_ret_len then 2 ^ 31 - 1 else max_ret_len + 4
  match ← decodeBase58CStr psz limit with
  | none => return none
  | some vchRet =>
    if vchRet.length < 4 then return none
    if (Hash (vchRet.take (vchRet.length - 4))).bytes.take 4 ≠ vchRet.drop (vchRet.length - 4) then
      return none
    return some (vchRet.take (vchRet.length - 4))

def DecodeBase58Check (Hash : Bytes → Blob 32) (str : Bytes) (max_ret : Int) :
    Except Base58Abort (Option Bytes) :=
  if !ContainsNoNUL str then .ok none else decodeBase58CheckCStr Hash str max_ret

/-! ## The alphabet -/

/-- The alphabet's bytes, once, so that the facts below are checked on a list. -/
theorem pszBase58_eq : pszBase58 = [
      49, 50, 51, 52, 53, 54, 55, 56, 57, 65, 66, 67, 68, 69, 70, 71,
      72, 74, 75, 76, 77, 78, 80, 81, 82, 83, 84, 85, 86, 87, 88, 89,
      90, 97, 98, 99, 100, 101, 102, 103, 104, 105, 106, 107, 109, 110, 111, 112,
      113, 114, 115, 116, 117, 118, 119, 120, 121, 122] := by
  decide +kernel

/-- Every character of the alphabet maps back to its digit. -/
theorem mapBase58_pszBase58 : ∀ d : Fin 58, mapBase58.getD (pszBase58.getD d 0).toNat (-1) = d := by
  rw [pszBase58_eq]
  decide +kernel

/-- Every character with a digit is the alphabet's character for it. -/
theorem pszBase58_mapBase58 : ∀ n < 256, mapBase58.getD n (-1) = -1 ∨
    (0 ≤ mapBase58.getD n (-1) ∧ mapBase58.getD n (-1) < 58 ∧
      (pszBase58.getD (mapBase58.getD n (-1)).toNat 0).toNat = n) := by
  rw [pszBase58_eq]
  decide +kernel

/-- The characters of the alphabet are printable, and only digit 0 is '1'. -/
theorem pszBase58_printable : ∀ d : Fin 58, 32 < (pszBase58.getD d 0).toNat ∧
    (pszBase58.getD d 0 = 49 ↔ d.val = 0) := by
  rw [pszBase58_eq]
  decide

theorem mapBase58_cases (c : UInt8) : mapBase58.getD c.toNat (-1) = -1 ∨
    ∃ d : Fin 58, mapBase58.getD c.toNat (-1) = d ∧ pszBase58.getD d 0 = c := by
  rcases pszBase58_mapBase58 c.toNat c.toNat_lt with h | ⟨h0, h58, hc⟩
  · exact .inl h
  · exact .inr ⟨⟨(mapBase58.getD c.toNat (-1)).toNat, by omega⟩, (Int.toNat_of_nonneg h0).symm,
      UInt8.toNat.inj hc⟩

/-- A character's digit, when it has one. -/
theorem mapBase58_eq_digit {c : UInt8} {d : Fin 58} (h : pszBase58.getD d 0 = c) :
    mapBase58.getD c.toNat (-1) = d := by
  rw [← h]
  exact mapBase58_pszBase58 d

theorem isSpaceByte_pszBase58 (d : Fin 58) : isSpaceByte (pszBase58.getD d 0) = false :=
  isSpaceByte_eq_false (pszBase58_printable d).1

/-! ## Bytes as one number -/

theorem leValue_eq_ofDigits (bs : Bytes) : leValue bs = Nat.ofDigits 256 (bs.map UInt8.toNat) := by
  induction bs with
  | nil => rfl
  | cons b bs ih => rw [leValue, ih, List.map_cons, Nat.ofDigits_cons]

theorem beValue_eq_ofDigits (bs : Bytes) :
    beValue bs = Nat.ofDigits 256 (bs.map UInt8.toNat).reverse := by
  rw [beValue, leValue_eq_ofDigits, List.map_reverse]

theorem beValue_eq_foldl (bs : Bytes) :
    beValue bs = (bs.map UInt8.toNat).foldl (fun x d => 256 * x + d) 0 := by
  rw [foldl_mul_add, beValue_eq_ofDigits, Nat.mul_zero, Nat.zero_add]

theorem takeWhile_eq_replicate (a : UInt8) (v : Bytes) :
    v.takeWhile (· == a) = List.replicate (v.takeWhile (· == a)).length a :=
  List.eq_replicate_iff.mpr ⟨rfl, fun b hb => by simpa using List.mem_takeWhile_imp hb⟩

theorem head?_dropWhile_ne (a : UInt8) (v : Bytes) : (v.dropWhile (· == a)).head? ≠ some a := by
  intro h
  have := List.head?_dropWhile_not (· == a) v
  rw [h] at this
  simp at this

/-- A run of `a` before something else is exactly what `takeWhile` takes. -/
theorem takeWhile_replicate_append (a : UInt8) {w : Bytes} (hw : w.head? ≠ some a) (k : Nat) :
    (List.replicate k a ++ w).takeWhile (· == a) = List.replicate k a := by
  induction k with
  | zero =>
    cases w with
    | nil => rfl
    | cons b w =>
      have hb : b ≠ a := fun h => hw (by simp [h])
      simp [hb]
  | succ k ih => rw [List.replicate_succ, List.cons_append, List.takeWhile_cons_of_pos (by simp), ih]

/-- Leading zero bytes do not change the number. -/
theorem beValue_dropWhile (v : Bytes) : beValue (v.dropWhile (· == 0)) = beValue v := by
  conv_rhs => rw [← List.takeWhile_append_dropWhile (p := (· == 0)) (l := v)]
  rw [beValue_append, takeWhile_eq_replicate, beValue_replicate_zero, Nat.zero_mul,
    Nat.zero_add]

/-- A byte string with no leading zero is the big-endian digits of its number. -/
theorem digits_beValue {u : Bytes} (hu : u.head? ≠ some 0) :
    (Nat.digits 256 (beValue u)).reverse.map UInt8.ofNat = u := by
  have hdigits : Nat.digits 256 (beValue u) = (u.map UInt8.toNat).reverse := by
    rw [beValue_eq_ofDigits]
    refine Nat.digits_ofDigits 256 (by norm_num) _ (fun d hd => ?_) (fun hne => ?_)
    · obtain ⟨b, -, rfl⟩ := List.mem_map.mp (List.mem_reverse.mp hd)
      exact b.toNat_lt
    · cases u with
      | nil => simp at hne
      | cons b u =>
        have hb : b ≠ 0 := fun h => hu (by simp [h])
        rw [List.getLast_reverse, List.head_map, List.head_cons]
        intro h0
        exact hb (UInt8.toNat.inj (by simpa using h0))
  rw [hdigits, List.reverse_reverse, List.map_map]
  simp [Function.comp_def]

/-- The digits of a number, most significant first, start with a nonzero one. -/
theorem head?_reverse_digits (b x : Nat) : (Nat.digits b x).reverse.head? ≠ some 0 := by
  rw [List.head?_reverse]
  rcases Nat.eq_zero_or_pos x with rfl | hx
  · simp
  · rw [List.getLast?_eq_some_getLast (Nat.digits_ne_nil_iff_ne_zero.mpr hx.ne')]
    exact fun h => Nat.getLast_digit_ne_zero b hx.ne' (Option.some.inj h)

theorem dropWhile_reverse_digits (b x : Nat) :
    (Nat.digits b x).reverse.dropWhile (· == 0) = (Nat.digits b x).reverse := by
  have h := head?_reverse_digits b x
  cases hds : (Nat.digits b x).reverse with
  | nil => rfl
  | cons d ds =>
    rw [hds] at h
    exact List.dropWhile_cons_of_neg (by simpa using h)

/-! ## The carry loop -/

/-- A pass of the carry loop over a buffer holding `x` leaves it holding
`mult * x + c` when that fits. -/
theorem carryLoop_pad {base mult : Nat} (hb : 1 < base) (hm : 0 < mult) {n x c : Nat}
    (hfit : mult * x + c < base ^ n) :
    carryLoop base mult (Nat.digits base x).length (pad base n x).reverse c =
      ((pad base n (mult * x + c)).reverse, 0, (Nat.digits base (mult * x + c)).length) := by
  have hlen := (Nat.digits_length_le_iff hb _).mpr hfit
  simp only [carryLoop, List.reverse_reverse, mulAdd_pad hb hm (Nat.sub_zero _) hlen, Nat.zero_add]

/-- The buffer `EncodeBase58` allocates for `n` bytes holds their number. -/
theorem encode_size (n : Nat) : 256 ^ n ≤ 58 ^ (n * 138 / 100 + 1) :=
  pow_le_pow_div_add_one (by norm_num) (by norm_num) (by norm_num) n

/-- The buffer `DecodeBase58` allocates for `n` characters holds any number
they spell. -/
theorem decode_size (n : Nat) : 58 ^ n ≤ 256 ^ (n * 733 / 1000 + 1) :=
  pow_le_pow_div_add_one (by norm_num) (by norm_num) (by decide +kernel) n

/-! ## Encoding -/

theorem encodeLoop_pad {size : Nat} (input : Bytes) (x : Nat)
    (hfit : (input.map UInt8.toNat).foldl (fun x d => 256 * x + d) x < 58 ^ size) :
    encodeLoop input (pad 58 size x).reverse (Nat.digits 58 x).length =
      .ok ((pad 58 size ((input.map UInt8.toNat).foldl (fun x d => 256 * x + d) x)).reverse,
        (Nat.digits 58 ((input.map UInt8.toNat).foldl (fun x d => 256 * x + d) x)).length) := by
  induction input generalizing x with
  | nil => rfl
  | cons ch input ih =>
    simp only [List.map_cons, List.foldl_cons] at hfit ⊢
    have hstep : 256 * x + ch.toNat < 58 ^ size :=
      lt_of_le_of_lt (le_foldl_mul_add (by norm_num) _ _) hfit
    simp only [encodeLoop, carryLoop_pad (by norm_num) (by norm_num) hstep, ne_eq,
      not_true_eq_false, if_false]
    exact ih _ hfit

/-- `EncodeBase58` never trips its assert: it writes a '1' for each leading
zero byte, then the base-58 digits of the number the bytes denote, most
significant first. -/
theorem EncodeBase58_eq (input : Bytes) :
    EncodeBase58 input = .ok (List.replicate (input.takeWhile (· == 0)).length 49 ++
      (Nat.digits 58 (beValue input)).reverse.map (pszBase58.getD · 0)) := by
  have hfit : beValue (input.dropWhile (· == 0)) <
      58 ^ ((input.dropWhile (· == 0)).length * 138 / 100 + 1) :=
    lt_of_lt_of_le (beValue_lt _) (encode_size _)
  have hloop := encodeLoop_pad _ 0 (by rwa [← beValue_eq_foldl])
  rw [pad_zero, List.reverse_replicate, ← beValue_eq_foldl, beValue_dropWhile] at hloop
  simp only [Nat.digits_zero, List.length_nil] at hloop
  simp only [EncodeBase58, hloop, UB.ok_bind, drop_reverse_pad, dropWhile_reverse_digits]
  rfl

/-! ## Decoding -/

/-- The '1's before a character that is not one are counted, and refused
once more than `max_ret_len`. -/
theorem skipOnes_replicate {max_ret_len : Int} {rest : Bytes} (hrest : rest.head? ≠ some 49) :
    ∀ k z, skipOnes max_ret_len (List.replicate k 49 ++ rest) z =
      if 0 < k ∧ max_ret_len < z + k then none else some (z + k, rest)
  | 0, z => by
    cases rest with
    | nil => simp [skipOnes]
    | cons c rest =>
      have hc : c ≠ 49 := fun h => hrest (by simp [h])
      simp [skipOnes, hc]
  | k + 1, z => by
    rw [List.replicate_succ, List.cons_append, skipOnes, if_pos rfl,
      skipOnes_replicate hrest k (z + 1)]
    by_cases h1 : max_ret_len < (z : Int) + 1
    · rw [if_pos h1, if_pos ⟨Nat.succ_pos k, by push_cast; omega⟩]
    · rw [if_neg h1]
      by_cases h2 : max_ret_len < ((z + 1 : Nat) : Int) + k
      · rw [if_pos ⟨by omega, h2⟩, if_pos ⟨Nat.succ_pos k, by push_cast at h2 ⊢; omega⟩]
      · rw [if_neg (fun h => h2 h.2), if_neg (fun h => h2 (by push_cast at h ⊢; omega)),
          show z + 1 + k = z + (k + 1) by omega]

/-- What one character does to the decoding loop: a space ends it, a
character with no digit refuses the string, and a digit `d` is read into the
buffer when `58 * x + d` fits it, then the length check follows. -/
theorem decodeLoop_cons_cases (max_ret_len : Int) (zeroes size x : Nat) (c : UInt8) (psz : Bytes) :
    (isSpaceByte c = true ∧
      decodeLoop max_ret_len zeroes (c :: psz) (pad 256 size x).reverse (Nat.digits 256 x).length =
        .ok (some ((pad 256 size x).reverse, (Nat.digits 256 x).length, c :: psz))) ∨
    (isSpaceByte c = false ∧ mapBase58.getD c.toNat (-1) = -1 ∧
      decodeLoop max_ret_len zeroes (c :: psz) (pad 256 size x).reverse (Nat.digits 256 x).length =
        .ok none) ∨
    (∃ d : Fin 58, pszBase58.getD d 0 = c ∧ (58 * x + d < 256 ^ size →
      decodeLoop max_ret_len zeroes (c :: psz) (pad 256 size x).reverse (Nat.digits 256 x).length =
        if max_ret_len < (Nat.digits 256 (58 * x + d)).length + zeroes then .ok none
        else decodeLoop max_ret_len zeroes psz (pad 256 size (58 * x + d)).reverse
          (Nat.digits 256 (58 * x + d)).length)) := by
  by_cases hsp : isSpaceByte c = true
  · exact .inl ⟨hsp, by simp only [decodeLoop, hsp, if_true]⟩
  rcases mapBase58_cases c with hnone | ⟨d, hd, hc⟩
  · exact .inr (.inl ⟨by simpa using hsp, hnone,
      by simp only [decodeLoop, hsp, hnone, Bool.false_eq_true, if_false, if_true]⟩)
  · refine .inr (.inr ⟨d, hc, fun hfit => ?_⟩)
    have hne : (d : Int) ≠ -1 := by omega
    simp only [decodeLoop, hsp, hd, hne, Bool.false_eq_true, if_false, Int.toNat_natCast,
      carryLoop_pad (by norm_num) (by norm_num) hfit, ne_eq, not_true_eq_false]

/-- The decoding loop never trips its assert while every number it can read
fits the buffer. -/
theorem decodeLoop_ne_error {max_ret_len : Int} {zeroes size : Nat} :
    ∀ (psz : Bytes) (x k : Nat), x < 58 ^ k → 58 ^ (k + psz.length) ≤ 256 ^ size →
      ∃ r, decodeLoop max_ret_len zeroes psz (pad 256 size x).reverse
        (Nat.digits 256 x).length = .ok r
  | [], _, _, _, _ => ⟨_, rfl⟩
  | c :: psz, x, k, hx, hsize => by
    rcases decodeLoop_cons_cases max_ret_len zeroes size x c psz with
      ⟨-, h⟩ | ⟨-, -, h⟩ | ⟨d, -, h⟩
    · exact ⟨_, h⟩
    · exact ⟨_, h⟩
    · -- the number read so far stays below `58 ^ (k + 1)`
      have hy : 58 * x + d < 58 ^ (k + 1) := by
        have := d.isLt
        rw [Nat.pow_succ]
        omega
      have hsize' : 58 ^ (k + 1 + psz.length) ≤ 256 ^ size := by
        rw [show k + 1 + psz.length = k + (c :: psz).length by simp; omega]
        exact hsize
      have hfit : 58 * x + d < 256 ^ size :=
        lt_of_lt_of_le hy (le_trans (Nat.pow_le_pow_right (by norm_num) (by omega)) hsize')
      rw [h hfit]
      split
      · exact ⟨_, rfl⟩
      · exact decodeLoop_ne_error psz _ (k + 1) hy hsize'

/-- Reading one more digit keeps the number below `58 ^ (k + 1)`, which the
buffer still holds. -/
theorem read_digit_fits {x k size m : Nat} (d : Fin 58) (hx : x < 58 ^ k)
    (hsize : 58 ^ (k + (m + 1)) ≤ 256 ^ size) :
    58 * x + d < 58 ^ (k + 1) ∧ 58 ^ (k + 1 + m) ≤ 256 ^ size ∧ 58 * x + d < 256 ^ size := by
  have hy : 58 * x + d < 58 ^ (k + 1) := by
    have := d.isLt
    rw [Nat.pow_succ]
    omega
  have hsize' : 58 ^ (k + 1 + m) ≤ 256 ^ size := by
    rwa [show k + 1 + m = k + (m + 1) by omega]
  exact ⟨hy, hsize', lt_of_lt_of_le hy (le_trans (Nat.pow_le_pow_right (by norm_num) (by omega)) hsize')⟩

/-- What the decoding loop has read when it returns: digits `ds` up to a
space or the end, and the buffer holds their number. -/
theorem decodeLoop_eq_some {max_ret_len : Int} {zeroes size : Nat} :
    ∀ (psz : Bytes) (x k : Nat), x < 58 ^ k → 58 ^ (k + psz.length) ≤ 256 ^ size →
    ∀ {buf : List Nat} {length : Nat} {rest : Bytes},
      decodeLoop max_ret_len zeroes psz (pad 256 size x).reverse (Nat.digits 256 x).length =
        .ok (some (buf, length, rest)) →
      ∃ ds : List Nat, (∀ d ∈ ds, d < 58) ∧ psz = ds.map (pszBase58.getD · 0) ++ rest ∧
        (∀ c ∈ rest.head?, isSpaceByte c = true) ∧
        buf = (pad 256 size (ds.foldl (fun x d => 58 * x + d) x)).reverse ∧
        length = (Nat.digits 256 (ds.foldl (fun x d => 58 * x + d) x)).length
  | [], x, k, _, _, buf, length, rest, h => by
    simp only [decodeLoop, Except.ok.injEq, Option.some.injEq, Prod.mk.injEq] at h
    obtain ⟨rfl, rfl, rfl⟩ := h
    exact ⟨[], by simp, by simp, by simp, rfl, rfl⟩
  | c :: psz, x, k, hx, hsize, buf, length, rest, h => by
    rcases decodeLoop_cons_cases max_ret_len zeroes size x c psz with
      ⟨hsp, h'⟩ | ⟨-, -, h'⟩ | ⟨d, hc, h'⟩
    · rw [h'] at h
      simp only [Except.ok.injEq, Option.some.injEq, Prod.mk.injEq] at h
      obtain ⟨rfl, rfl, rfl⟩ := h
      exact ⟨[], by simp, by simp, by simpa using hsp, rfl, rfl⟩
    · rw [h'] at h
      cases h
    · obtain ⟨hy, hsize', hfit⟩ := read_digit_fits (m := psz.length) d hx hsize
      rw [h' hfit] at h
      split at h
      · cases h
      · obtain ⟨ds, hds, hpsz, hrest, hbuf, hlen⟩ := decodeLoop_eq_some psz _ (k + 1) hy hsize' h
        refine ⟨d :: ds, ?_, by rw [hpsz, ← hc]; rfl, hrest, hbuf, hlen⟩
        intro e he
        rcases List.mem_cons.mp he with rfl | he
        · exact d.isLt
        · exact hds e he

/-- The decoding loop over the characters of digits `ds` reads their number
into the buffer, and refuses it when its bytes and the zeros exceed
`max_ret_len`. -/
theorem decodeLoop_digits {max_ret_len : Int} {zeroes size : Nat} {rest : Bytes}
    (hrest : ∀ c ∈ rest.head?, isSpaceByte c = true) :
    ∀ (ds : List Nat) (x : Nat), (∀ d ∈ ds, d < 58) →
      ds.foldl (fun x d => 58 * x + d) x < 256 ^ size →
      decodeLoop max_ret_len zeroes (ds.map (pszBase58.getD · 0) ++ rest)
          (pad 256 size x).reverse (Nat.digits 256 x).length =
        if ds ≠ [] ∧
            max_ret_len < (Nat.digits 256 (ds.foldl (fun x d => 58 * x + d) x)).length + zeroes
        then .ok none
        else .ok (some ((pad 256 size (ds.foldl (fun x d => 58 * x + d) x)).reverse,
          (Nat.digits 256 (ds.foldl (fun x d => 58 * x + d) x)).length, rest))
  | [], x, _, _ => by
    rw [if_neg (fun h => h.1 rfl)]
    cases rest with
    | nil => rfl
    | cons c rest =>
      have hsp : isSpaceByte c = true := hrest c (by simp)
      simp only [List.map_nil, List.nil_append, decodeLoop, hsp, if_true, List.foldl_nil]
  | d :: ds, x, hds, hfit => by
    have hd : d < 58 := hds d (by simp)
    simp only [List.foldl_cons] at hfit
    rw [List.map_cons, List.cons_append]
    have hstep : 58 * x + d ≤ ds.foldl (fun x d => 58 * x + d) (58 * x + d) :=
      le_foldl_mul_add (by norm_num) _ _
    rcases decodeLoop_cons_cases max_ret_len zeroes size x (pszBase58.getD d 0)
        (ds.map (pszBase58.getD · 0) ++ rest) with ⟨hsp, -⟩ | ⟨-, hnone, -⟩ | ⟨d', hc, h'⟩
    · exact absurd hsp (by simpa using isSpaceByte_pszBase58 ⟨d, hd⟩)
    · have := mapBase58_eq_digit (c := pszBase58.getD d 0) (d := ⟨d, hd⟩) rfl
      rw [hnone] at this
      omega
    · -- the character read back is the digit `d`
      have hdd : (d' : Nat) = d := by
        have h1 := mapBase58_eq_digit hc
        have h2 := mapBase58_eq_digit (c := pszBase58.getD d 0) (d := ⟨d, hd⟩) rfl
        rw [h1] at h2
        exact_mod_cast h2
      rw [hdd] at h'
      rw [h' (lt_of_le_of_lt hstep hfit)]
      have hmono := Nat.le_length_digits_le 256 _ _ hstep
      by_cases hcheck : max_ret_len < (Nat.digits 256 (58 * x + d)).length + zeroes
      · rw [if_pos hcheck]
        split_ifs with hlast
        · rfl
        · exact absurd ⟨List.cons_ne_nil _ _, by rw [List.foldl_cons]; omega⟩ hlast
      · rw [if_neg hcheck, decodeLoop_digits hrest ds (58 * x + d)
          (fun e he => hds e (by simp [he])) hfit]
        -- the last check is the one that counts: the checks before it pass
        split_ifs with h1 h2 h2
        · rfl
        · exact absurd ⟨List.cons_ne_nil _ _, h1.2⟩ h2
        · exact absurd ⟨by rintro rfl; exact hcheck h2.2, h2.2⟩ h1
        · rfl

/-! ## Decoding what was encoded -/

/-- Printable characters: none is a space or a NUL. -/
theorem dropWhile_printable {l : Bytes} (h : ∀ c ∈ l, 32 < c.toNat) : l.dropWhile isSpaceByte = l := by
  cases l with
  | nil => rfl
  | cons c l => exact List.dropWhile_cons_of_neg (by rw [isSpaceByte_eq_false (h c (by simp))]; simp)

theorem containsNoNUL_printable {l : Bytes} (h : ∀ c ∈ l, 32 < c.toNat) : ContainsNoNUL l = true := by
  simp only [ContainsNoNUL, List.all_eq_true, bne_iff_ne, ne_eq]
  intro c hc hc0
  have := h c hc
  rw [hc0] at this
  simp at this

/-- '1's and digit characters are printable. -/
theorem printable_encoding (z : Nat) {ds : List Nat} (hds : ∀ d ∈ ds, d < 58) :
    ∀ c ∈ List.replicate z 49 ++ ds.map (pszBase58.getD · 0), 32 < c.toNat := by
  intro c hc
  rcases List.mem_append.mp hc with hc | hc
  · rw [List.eq_of_mem_replicate hc]
    decide
  · obtain ⟨d, hd, rfl⟩ := List.mem_map.mp hc
    exact (pszBase58_printable ⟨d, hds d hd⟩).1

/-- A leading digit that is not zero is a character other than '1'. -/
theorem head?_map_pszBase58 {ds : List Nat} (hds : ∀ d ∈ ds, d < 58) (hhead : ds.head? ≠ some 0) :
    (ds.map (pszBase58.getD · 0)).head? ≠ some 49 := by
  rw [List.head?_map]
  intro h
  obtain ⟨d, hd, hd49⟩ := Option.map_eq_some_iff.mp h
  have hd0 : d = 0 := (pszBase58_printable ⟨d, hds d (List.mem_of_mem_head? hd)⟩).2.mp hd49
  exact hhead (by rw [hd, hd0])

/-- `DecodeBase58` of '1's followed by the characters of digits with no
leading zero: as many zero bytes, then the bytes of the digits' number, when
they fit `max_ret_len`. -/
theorem decodeBase58CStr_digits {max_ret_len : Int} (hmax : 0 ≤ max_ret_len) (z : Nat)
    {ds : List Nat} (hds : ∀ d ∈ ds, d < 58) (hhead : ds.head? ≠ some 0) :
    decodeBase58CStr (List.replicate z 49 ++ ds.map (pszBase58.getD · 0)) max_ret_len =
      .ok (if z + (Nat.digits 256 (Nat.ofDigits 58 ds.reverse)).length ≤ max_ret_len then
        some (List.replicate z 0 ++
          (Nat.digits 256 (Nat.ofDigits 58 ds.reverse)).reverse.map UInt8.ofNat)
        else none) := by
  set N := Nat.ofDigits 58 ds.reverse with hN
  set size := (ds.map (pszBase58.getD · 0)).length * 733 / 1000 + 1 with hsize_def
  have hfold : ds.foldl (fun x d => 58 * x + d) 0 = N := by
    rw [foldl_mul_add, Nat.mul_zero, Nat.zero_add]
  have hfit : N < 256 ^ size := by
    have h1 : N < 58 ^ ds.length := by
      have := Nat.ofDigits_lt_base_pow_length (by norm_num) (l := ds.reverse)
        (fun d hd => hds d (List.mem_reverse.mp hd))
      rwa [List.length_reverse] at this
    refine lt_of_lt_of_le h1 ?_
    rw [hsize_def, List.length_map]
    exact decode_size _
  have hloop := @decodeLoop_digits max_ret_len z size [] (by simp) ds 0 hds (by rwa [hfold])
  rw [List.append_nil, hfold, pad_zero, List.reverse_replicate, Nat.digits_zero,
    List.length_nil] at hloop
  rw [decodeBase58CStr, dropWhile_printable (printable_encoding z hds),
    skipOnes_replicate (head?_map_pszBase58 hds hhead)]
  simp only [Nat.cast_zero, zero_add]
  by_cases hfits : z + (Nat.digits 256 N).length ≤ max_ret_len
  · rw [if_neg (by omega), if_pos hfits]
    simp only [← hsize_def, hloop]
    rw [if_neg (by omega)]
    simp [drop_reverse_pad]
  · rw [if_neg hfits]
    by_cases hz : 0 < z ∧ max_ret_len < z
    · rw [if_pos hz]
    · -- no '1' is refused, so the digits' bytes are, and there are some
      have hne : ds ≠ [] := by
        rintro rfl
        simp [hN] at hfits
        omega
      rw [if_neg hz]
      simp only [← hsize_def, hloop]
      rw [if_pos ⟨hne, by omega⟩]

theorem digits_lt_58 (x : Nat) : ∀ d ∈ (Nat.digits 58 x).reverse, d < 58 :=
  fun _ hd => Nat.digits_lt_base (by norm_num) (List.mem_reverse.mp hd)

/-- The C-string decoder gives back what `EncodeBase58` encoded, exactly when
it fits `max_ret_len`. -/
theorem decodeBase58CStr_EncodeBase58 {max_ret_len : Int} (hmax : 0 ≤ max_ret_len) (v : Bytes) :
    decodeBase58CStr (List.replicate (v.takeWhile (· == 0)).length 49 ++
        (Nat.digits 58 (beValue v)).reverse.map (pszBase58.getD · 0)) max_ret_len =
      .ok (if v.length ≤ max_ret_len then some v else none) := by
  rw [decodeBase58CStr_digits hmax _ (digits_lt_58 _) (head?_reverse_digits 58 _),
    List.reverse_reverse, Nat.ofDigits_digits]
  have hu := digits_beValue (head?_dropWhile_ne 0 v)
  rw [beValue_dropWhile] at hu
  have hv : List.replicate (v.takeWhile (· == 0)).length 0 ++ v.dropWhile (· == 0) = v := by
    rw [← takeWhile_eq_replicate, List.takeWhile_append_dropWhile]
  have hlen : (Nat.digits 256 (beValue v)).length = (v.dropWhile (· == 0)).length := by
    rw [← hu, List.length_map, List.length_reverse]
  have hvlen : v.length = (v.takeWhile (· == 0)).length + (v.dropWhile (· == 0)).length := by
    conv_lhs => rw [← hv]
    rw [List.length_append, List.length_replicate]
  rw [hu, hlen, hv, hvlen, Nat.cast_add]

/-- Decoding an encoding gives the bytes back exactly when they fit
`max_ret_len`. -/
theorem DecodeBase58_EncodeBase58 (v : Bytes) {max_ret_len : Int} (hmax : 0 ≤ max_ret_len) :
    (EncodeBase58 v >>= fun str => DecodeBase58 str max_ret_len) =
      .ok (if v.length ≤ max_ret_len then some v else none) := by
  rw [EncodeBase58_eq, UB.ok_bind, DecodeBase58,
    containsNoNUL_printable (printable_encoding _ (digits_lt_58 _))]
  simp only [Bool.not_true, Bool.false_eq_true, if_false]
  exact decodeBase58CStr_EncodeBase58 hmax v

theorem DecodeBase58_EncodeBase58_sample : (0 : Int) ≤ 2 ∧
    (EncodeBase58 [0, 1, 0] >>= fun str => DecodeBase58 str 2) = .ok none :=
  ⟨by decide, by rw [@DecodeBase58_EncodeBase58 [0, 1, 0] 2 (by decide)]; decide⟩

/-- `DecodeBase58` never trips its assert: the buffer it allocates holds every
number its characters can spell. -/
theorem DecodeBase58_ne_error (str : Bytes) (max_ret_len : Int) :
    ∃ r, DecodeBase58 str max_ret_len = .ok r := by
  unfold DecodeBase58 decodeBase58CStr
  split
  · exact ⟨_, rfl⟩
  split
  · exact ⟨_, rfl⟩
  rename_i zeroes psz _
  obtain ⟨r, hr⟩ := @decodeLoop_ne_error max_ret_len zeroes (psz.length * 733 / 1000 + 1) psz 0 0
    (by norm_num) (by rw [Nat.zero_add]; exact decode_size _)
  rw [pad_zero, List.reverse_replicate, Nat.digits_zero, List.length_nil] at hr
  simp only [hr]
  rcases r with _ | ⟨b256, length, rest⟩
  · exact ⟨_, rfl⟩
  · simp only
    split <;> exact ⟨_, rfl⟩

theorem beValue_digits (N : Nat) : beValue ((Nat.digits 256 N).reverse.map UInt8.ofNat) = N := by
  have hmap : ((Nat.digits 256 N).reverse.map UInt8.ofNat).map UInt8.toNat = (Nat.digits 256 N).reverse := by
    rw [List.map_map]
    conv_rhs => rw [← List.map_id (Nat.digits 256 N).reverse]
    refine List.map_congr_left (fun d hd => ?_)
    have := Nat.digits_lt_base (by norm_num) (List.mem_reverse.mp hd)
    simp [Nat.mod_eq_of_lt this]
  rw [beValue_eq_ofDigits, hmap, List.reverse_reverse, Nat.ofDigits_digits]

theorem head?_digits_bytes (N : Nat) : ((Nat.digits 256 N).reverse.map UInt8.ofNat).head? ≠ some 0 := by
  rw [List.head?_map]
  intro h
  obtain ⟨d, hd, hd0⟩ := Option.map_eq_some_iff.mp h
  have hlt := Nat.digits_lt_base (by norm_num) (List.mem_reverse.mp (List.mem_of_mem_head? hd))
  have : d = 0 := by
    have := congrArg UInt8.toNat hd0
    simpa [Nat.mod_eq_of_lt hlt] using this
  exact head?_reverse_digits 256 N (by rw [hd, this])

/-- Dropping the spaces after printable characters, from the end. -/
theorem reverse_dropWhile_reverse {A S : Bytes} (hA : ∀ c ∈ A, 32 < c.toNat)
    (hS : ∀ c ∈ S, isSpaceByte c = true) :
    ((A ++ S).reverse.dropWhile isSpaceByte).reverse = A := by
  have hnil : S.reverse.dropWhile isSpaceByte = [] :=
    List.dropWhile_eq_nil_iff.mpr (fun c hc => hS c (List.mem_reverse.mp hc))
  rw [List.reverse_append, List.dropWhile_append, hnil, if_pos List.isEmpty_nil,
    dropWhile_printable (fun c hc => hA c (List.mem_reverse.mp hc)), List.reverse_reverse]

/-- Every string `DecodeBase58` accepts is the encoding of the bytes it
returns, once the white space around it is removed. -/
theorem EncodeBase58_DecodeBase58 {str : Bytes} {max_ret_len : Int} {v : Bytes}
    (h : DecodeBase58 str max_ret_len = .ok (some v)) :
    EncodeBase58 v = .ok ((str.dropWhile isSpaceByte).reverse.dropWhile isSpaceByte).reverse := by
  have hdec : decodeBase58CStr str max_ret_len = .ok (some v) := by
    unfold DecodeBase58 at h
    split at h
    · cases h
    · exact h
  -- the string is '1's, then characters other than '1'
  obtain ⟨s1, hs1_def⟩ : ∃ s1, str.dropWhile isSpaceByte = s1 := ⟨_, rfl⟩
  obtain ⟨k, r1, hs1, hr1head⟩ : ∃ k r1, s1 = List.replicate k 49 ++ r1 ∧ r1.head? ≠ some 49 :=
    ⟨_, _, by rw [← takeWhile_eq_replicate, List.takeWhile_append_dropWhile],
      head?_dropWhile_ne 49 s1⟩
  unfold decodeBase58CStr at hdec
  rw [hs1_def, hs1, skipOnes_replicate hr1head] at hdec
  simp only [Nat.cast_zero, zero_add] at hdec
  split_ifs at hdec with hz
  · simp at hdec
  obtain ⟨r, hr⟩ := @decodeLoop_ne_error max_ret_len k (r1.length * 733 / 1000 + 1) r1 0 0
    (by norm_num) (by rw [Nat.zero_add]; exact decode_size _)
  have hr' := hr
  rw [pad_zero, List.reverse_replicate, Nat.digits_zero, List.length_nil] at hr'
  simp only [hr'] at hdec
  rcases r with _ | ⟨b256, length, rest⟩
  · cases hdec
  -- what the loop read: digits `ds`, then spaces
  obtain ⟨ds, hds, hr1, hrest, hbuf, hlen⟩ := @decodeLoop_eq_some max_ret_len k
    (r1.length * 733 / 1000 + 1) r1 0 0 (by norm_num) (by rw [Nat.zero_add]; exact decode_size _)
    b256 length rest hr
  simp only at hdec
  split_ifs at hdec with hsp
  · simp at hdec
  simp only [Except.ok.injEq, Option.some.injEq] at hdec
  have hspaces : ∀ c ∈ rest, isSpaceByte c = true := List.dropWhile_eq_nil_iff.mp (by simpa using hsp)
  set N := ds.foldl (fun x d => 58 * x + d) 0 with hN
  rw [hbuf, hlen, drop_reverse_pad] at hdec
  -- the digits have no leading zero, so they are those of their number
  have hhead : ds.head? ≠ some 0 := by
    intro h0
    apply hr1head
    rw [hr1]
    cases ds with
    | nil => simp at h0
    | cons d ds =>
      simp only [List.head?_cons, Option.some.injEq] at h0
      subst h0
      simp only [List.map_cons, List.cons_append, List.head?_cons]
      exact congrArg some ((pszBase58_printable ⟨0, by norm_num⟩).2.mpr rfl)
  have hdigits : (Nat.digits 58 N).reverse = ds := by
    rw [hN, foldl_mul_add, Nat.mul_zero, Nat.zero_add,
      Nat.digits_ofDigits 58 (by norm_num) _ (fun d hd => hds d (List.mem_reverse.mp hd)) ?_,
      List.reverse_reverse]
    intro hne
    rw [List.getLast_reverse]
    intro h0
    cases ds with
    | nil => simp at hne
    | cons d ds => exact hhead (by simp [← h0])
  rw [← hdec, EncodeBase58_eq, takeWhile_replicate_append 0 (head?_digits_bytes N), beValue_append,
    beValue_replicate_zero, Nat.zero_mul, Nat.zero_add, beValue_digits, hdigits, List.length_replicate,
    hs1_def, hs1, hr1, ← List.append_assoc,
    reverse_dropWhile_reverse (printable_encoding k hds) hspaces]

theorem EncodeBase58_DecodeBase58_sample : DecodeBase58 (cstr " 12z ") 3 = .ok (some [0, 115]) ∧
    EncodeBase58 [0, 115] =
      .ok (((cstr " 12z ").dropWhile isSpaceByte).reverse.dropWhile isSpaceByte).reverse :=
  ⟨by decide +kernel, @EncodeBase58_DecodeBase58 _ 3 _ (by decide +kernel)⟩

/-! ## The checked encoding -/

/-- Decoding a checked encoding gives the payload back, for any hash, exactly
when it fits `max_ret` and, with its four check bytes, an `int`. -/
theorem DecodeBase58Check_EncodeBase58Check (Hash : Bytes → Blob 32) (v : Bytes) {max_ret : Int}
    (hmax : 0 ≤ max_ret) :
    (EncodeBase58Check Hash v >>= fun str => DecodeBase58Check Hash str max_ret) =
      .ok (if v.length ≤ max_ret ∧ v.length + 4 ≤ 2 ^ 31 - 1 then some v else none) := by
  obtain ⟨w, hw⟩ : ∃ w, v ++ (Hash v).bytes.take 4 = w := ⟨_, rfl⟩
  have hlen4 : ((Hash v).bytes.take 4).length = 4 := by
    rw [List.length_take, (Hash v).length_eq]
    rfl
  have hwlen : w.length = v.length + 4 := by rw [← hw, List.length_append, hlen4]
  have htake : w.take v.length = v := by rw [← hw, List.take_left' rfl]
  have hdrop : w.drop v.length = (Hash v).bytes.take 4 := by rw [← hw, List.drop_left' rfl]
  rw [EncodeBase58Check, hw, EncodeBase58_eq, UB.ok_bind, DecodeBase58Check,
    containsNoNUL_printable (printable_encoding _ (digits_lt_58 _))]
  simp only [Bool.not_true, Bool.false_eq_true, if_false, decodeBase58CheckCStr]
  -- the limit passed on leaves room for the check bytes
  obtain ⟨limit, hlimit⟩ : ∃ limit : Int,
      (if 2 ^ 31 - 1 - 4 < max_ret then 2 ^ 31 - 1 else max_ret + 4) = limit := ⟨_, rfl⟩
  have hlim0 : 0 ≤ limit := by
    rw [← hlimit]
    split <;> omega
  have hiff : (w.length : Int) ≤ limit ↔ v.length ≤ max_ret ∧ v.length + 4 ≤ 2 ^ 31 - 1 := by
    rw [← hlimit, hwlen]
    split <;> omega
  rw [hlimit, decodeBase58CStr_EncodeBase58 hlim0 w, UB.ok_bind]
  by_cases hfits : (w.length : Int) ≤ limit
  · rw [if_pos hfits, if_pos (hiff.mp hfits)]
    simp [hwlen, htake, hdrop]
    rfl
  · rw [if_neg hfits, if_neg (fun h => hfits (hiff.mpr h))]
    rfl

theorem DecodeBase58Check_EncodeBase58Check_sample : (0 : Int) ≤ 20 ∧
    (EncodeBase58Check (fun _ => Blob.zero 32) [7, 0] >>= fun str =>
      DecodeBase58Check (fun _ => Blob.zero 32) str 20) = .ok (some [7, 0]) :=
  ⟨by decide, by rw [@DecodeBase58Check_EncodeBase58Check _ [7, 0] 20 (by decide)]; decide⟩

end Globe
