import Globe.Lib.Undefined
import Globe.Lib.Bytes
import Globe.Primitives.Transaction

/-!
# Range proof parameters

`blind.cpp`: `SelectRangeProofParameters`, which picks the exponent and the
mantissa width of the range proof of a blinded output of value `nValueIn`, and
the helpers it calls: `CountTrailingZeros`, which counts the zero bits above
the highest set bit, `CountLeadingZeros`, which counts those below the lowest,
and `ipow`, exponentiation by squaring in `int64_t`.

`GetRand<int>(n)` is a parameter: `GetRand k n` is the result of the `k`-th
call, made with bound `n`.  The counters, the exponent and the width are `int`
or `size_t` in the source and stay within `[0, 64]`, so they are `Nat` here.
`minValue` is passed by reference and never written, so it is left out, as are
the first `nBitsReq` and both `nLeadingZeros`, which nothing reads.

`ipow` squares its base once more after the last bit of the exponent, so
`ipow(10, e)` overflows `int64_t` as soon as `e` has five bits: from an
exponent of 16 on, which the selector picks for values with 17 or more decimal
zeros.
-/

namespace Globe

open UB ByteCodec

/-! ## Bit counts -/

/-- The loop of `CountLeadingZeros`, with `i` steps left: the zero bits below
the lowest set bit. -/
def countLeadingZerosLoop : Nat → UInt64 → Nat → Nat
  | 0, _, nZeros => nZeros
  | i + 1, nValueIn, nZeros =>
    if nValueIn &&& 1 ≠ 0 then nZeros
    else countLeadingZerosLoop i (nValueIn >>> 1) (nZeros + 1)

def CountLeadingZeros (nValueIn : UInt64) : Nat := countLeadingZerosLoop 64 nValueIn 0

/-- The loop of `CountTrailingZeros`, with `i` steps left: the zero bits above
the highest set bit. -/
def countTrailingZerosLoop : Nat → UInt64 → Nat → Nat
  | 0, _, nZeros => nZeros
  | i + 1, nValueIn, nZeros =>
    if nValueIn &&& ((1 : UInt64) <<< 63) ≠ 0 then nZeros
    else countTrailingZerosLoop i (nValueIn <<< 1) (nZeros + 1)

def CountTrailingZeros (nValueIn : UInt64) : Nat := countTrailingZerosLoop 64 nValueIn 0

/-! ## `ipow` -/

/-- The loop of `ipow`: multiply `result` by `base` when the low bit of `exp`
is set, halve `exp`, square `base`.  The exponents the selector passes are not
negative. -/
def ipowLoop (base result : Int) (exp : Nat) : Defined Int :=
  if h : exp = 0 then .ok result
  else do
    let result ← (if exp % 2 = 1 then mulInt64 result base else pure result)
    let base ← mulInt64 base base
    ipowLoop base result (exp / 2)
termination_by exp
decreasing_by omega

def ipow (base : Int) (exp : Nat) : Defined Int := ipowLoop base 1 exp

/-! ## The selector -/

/-- The loop counting the decimal zeros of `nTest` into `nDiv10`.  The source
loops forever on 0; the selector only runs it on a value that is not 0, and a
multiple of ten that is not 0 divided by ten is not 0 either. -/
def decimalZeros (nTest : UInt64) (nDiv10 : Nat) : Nat :=
  if h : nTest ≠ 0 ∧ nTest % 10 = 0 then decimalZeros (nTest / 10) (nDiv10 + 1) else nDiv10
termination_by nTest.toNat
decreasing_by
  have hpos : 0 < nTest.toNat := by
    have := h.1
    rw [ne_eq, ← UInt64.toNat_inj, UInt64.toNat_zero] at this
    omega
  simp only [UInt64.toNat_div, UInt64.reduceToNat]
  omega

/-- `while (nBits < 63 && nBits % 4 != 0) nBits++;` -/
def roundUpBits (nBits : Nat) : Nat :=
  if h : nBits < 63 ∧ nBits % 4 ≠ 0 then roundUpBits (nBits + 1) else nBits
termination_by 63 - nBits
decreasing_by omega

/-- The exponent for `nDiv10` decimal zeros: at least half of them, and a
random number of the others. -/
def selectExponent (GetRand : Nat → Nat → Nat) (nDiv10 : Nat) : Nat :=
  let eMin := nDiv10 / 2
  if nDiv10 - eMin > 0 then eMin + GetRand 0 (nDiv10 - eMin) else eMin

/-- The width for the scaled value `nTest`: its bit length, at least 32, made a
multiple of 4 below 63. -/
def selectBits (nTest : UInt64) : Nat :=
  let nBitsReq := 64 - CountTrailingZeros nTest
  roundUpBits (if nBitsReq > 32 then nBitsReq else 32)

/-- `SelectRangeProofParameters(nValueIn, minValue, exponent, nBits)`: the value
it returns, `exponent` and `nBits`. -/
def SelectRangeProofParameters (GetRand : Nat → Nat → Nat) (nValueIn : UInt64) :
    Defined (Int × Nat × Nat) :=
  if nValueIn = 0 then
    let exponent := GetRand 0 5
    -- sometimes raise the width
    let nBits := if GetRand 1 10 = 0 then 32 + GetRand 2 5 else 32
    .ok (0, exponent, nBits)
  else do
    let exponent := selectExponent GetRand (decimalZeros nValueIn 0)
    let scale ← ipow 10 exponent
    -- `nValueIn / ipow(...)` converts the `int64_t` divisor to `uint64_t`
    let nTest := nValueIn / UInt64.ofInt scale
    pure (0, exponent, selectBits nTest)

/-! ## What the bit counts count -/

theorem and_one_eq_zero_iff (v : UInt64) : v &&& 1 = 0 ↔ v.toNat % 2 = 0 := by
  rw [← UInt64.toNat_inj, UInt64.toNat_and, UInt64.toNat_one, Nat.and_one_is_mod, UInt64.toNat_zero]

/-- The loop of `CountLeadingZeros` on `x` shifted down by the `z` zeros it has
counted stops at the lowest set bit of `x`. -/
theorem countLeadingZerosLoop_spec {x : Nat} (hx : 0 < x) (hlt : x < 2 ^ 64) :
    ∀ (i : Nat) (v : UInt64) (z : Nat), v.toNat = x / 2 ^ z → 2 ^ z ∣ x → i + z = 64 →
      2 ^ countLeadingZerosLoop i v z ∣ x ∧ ¬2 ^ (countLeadingZerosLoop i v z + 1) ∣ x := by
  intro i
  induction i with
  | zero =>
    intro v z hv hdvd hz
    obtain rfl : z = 64 := by omega
    have := Nat.le_of_dvd hx hdvd
    omega
  | succ i ih =>
    intro v z hv hdvd hz
    have hsplit : x = 2 ^ z * (x / 2 ^ z) := (Nat.mul_div_cancel' hdvd).symm
    rw [countLeadingZerosLoop]
    split
    · -- the low bit is set: `x` has exactly `z` zero bits below it
      next hbit =>
      have hodd : (x / 2 ^ z) % 2 = 1 := by
        have := mt (and_one_eq_zero_iff v).mpr hbit
        omega
      refine ⟨hdvd, fun h2 => ?_⟩
      rw [hsplit, Nat.pow_succ] at h2
      have := Nat.dvd_of_mul_dvd_mul_left (Nat.two_pow_pos z) h2
      omega
    · -- the low bit is clear: one more zero, and the shifted value is `x / 2 ^ (z + 1)`
      next hbit =>
      have heven : (x / 2 ^ z) % 2 = 0 := by
        have := (and_one_eq_zero_iff v).mp (not_not.mp hbit)
        omega
      apply ih (v >>> 1) (z + 1) _ _ (by omega)
      · rw [UInt64.toNat_shiftRight, show (1 : UInt64).toNat % 64 = 1 from rfl, Nat.shiftRight_eq_div_pow,
          Nat.pow_one, hv, Nat.div_div_eq_div_mul, ← Nat.pow_succ]
      · rw [hsplit, Nat.pow_succ]
        exact Nat.mul_dvd_mul_left _ (Nat.dvd_of_mod_eq_zero heven)

theorem toNat_ne_zero {x : UInt64} (hx : x ≠ 0) : x.toNat ≠ 0 := by
  rwa [ne_eq, ← UInt64.toNat_inj, UInt64.toNat_zero] at hx

/-- `CountLeadingZeros` counts the zero bits below the lowest set bit. -/
theorem countLeadingZeros_spec {x : UInt64} (hx : x ≠ 0) :
    2 ^ CountLeadingZeros x ∣ x.toNat ∧ ¬2 ^ (CountLeadingZeros x + 1) ∣ x.toNat := by
  exact countLeadingZerosLoop_spec (Nat.pos_of_ne_zero (toNat_ne_zero hx)) x.toNat_lt 64 x 0
    (by rw [Nat.pow_zero, Nat.div_one]) (Nat.one_dvd _) rfl

theorem countLeadingZeros_eight :
    2 ^ CountLeadingZeros 8 ∣ (8 : UInt64).toNat ∧ ¬2 ^ (CountLeadingZeros 8 + 1) ∣ (8 : UInt64).toNat :=
  countLeadingZeros_spec (by decide)

theorem and_top_bit_eq_zero_iff (v : UInt64) :
    v &&& ((1 : UInt64) <<< 63) = 0 ↔ v.toNat < 2 ^ 63 := by
  rw [← UInt64.toNat_inj, UInt64.toNat_and, show ((1 : UInt64) <<< 63).toNat = 2 ^ 63 from rfl,
    UInt64.toNat_zero]
  exact and_two_pow_eq_zero_iff v.toNat_lt

/-- The loop of `CountTrailingZeros` on `x` shifted up by the `z` zeros it has
counted: `x` fits below the bits it did not count. -/
theorem lt_countTrailingZerosLoop {x : Nat} :
    ∀ (i : Nat) (v : UInt64) (z : Nat), v.toNat = x * 2 ^ z → i + z = 64 →
      x < 2 ^ (64 - countTrailingZerosLoop i v z) := by
  intro i
  induction i with
  | zero =>
    intro v z hv hz
    obtain rfl : z = 64 := by omega
    have hlt : x * 2 ^ 64 < 1 * 2 ^ 64 := by
      rw [Nat.one_mul, ← hv]
      exact v.toNat_lt
    rw [countTrailingZerosLoop]
    exact Nat.lt_of_mul_lt_mul_right hlt
  | succ i ih =>
    intro v z hv hz
    have hfit : x * 2 ^ z < 2 ^ (64 - z) * 2 ^ z := by
      rw [← Nat.pow_add, show 64 - z + z = 64 by omega, ← hv]
      exact v.toNat_lt
    rw [countTrailingZerosLoop]
    split
    · -- the top bit is set: `x` has the `64 - z` bits below it
      exact Nat.lt_of_mul_lt_mul_right hfit
    · -- no top bit: shifting up one place loses nothing
      next htop =>
      have hlow : v.toNat < 2 ^ 63 := (and_top_bit_eq_zero_iff v).mp (not_not.mp htop)
      apply ih (v <<< 1) (z + 1) _ (by omega)
      rw [UInt64.toNat_shiftLeft, show (1 : UInt64).toNat % 64 = 1 from rfl, Nat.shiftLeft_eq,
        Nat.pow_one, Nat.mod_eq_of_lt (by omega), hv, Nat.pow_succ, Nat.mul_assoc]

theorem lt_two_pow_countTrailingZeros (x : UInt64) : x.toNat < 2 ^ (64 - CountTrailingZeros x) :=
  lt_countTrailingZerosLoop 64 x 0 (by rw [Nat.pow_zero, Nat.mul_one]) rfl

/-! ## `ipow` on powers of ten -/

theorem pow_ten_lt {n : Nat} (h : n ≤ 18) : (10 : Int) ^ n < 2 ^ 63 := by
  have hle : 10 ^ n ≤ 10 ^ 18 := Nat.pow_le_pow_right (by decide) h
  have hcast : ((10 ^ n : Nat) : Int) = 10 ^ n := Int.natCast_pow 10 n
  omega

theorem le_pow_ten {n : Nat} (h : 19 ≤ n) : (2 : Int) ^ 63 ≤ 10 ^ n := by
  have hle : 10 ^ 19 ≤ 10 ^ n := Nat.pow_le_pow_right (by decide) h
  have hcast : ((10 ^ n : Nat) : Int) = 10 ^ n := Int.natCast_pow 10 n
  omega

theorem mulInt64_pow_ten (a b : Nat) :
    mulInt64 (10 ^ a) (10 ^ b) = if a + b ≤ 18 then .ok (10 ^ (a + b)) else .error .signedOverflow := by
  have hmul : (10 : Int) ^ a * 10 ^ b = 10 ^ (a + b) := (Int.pow_add 10 a b).symm
  split
  · next h =>
    have hpos : (0 : Int) ≤ 10 ^ (a + b) := Int.pow_nonneg (by decide)
    rw [mulInt64_of_fits (by omega) (by rw [hmul]; exact pow_ten_lt h), hmul]
  · next h => exact mulInt64_of_le (by rw [hmul]; exact le_pow_ten (by omega))

theorem ipowLoop_zero (base result : Int) : ipowLoop base result 0 = .ok result := by
  rw [ipowLoop, dif_pos rfl]

theorem ipowLoop_of_ne_zero {exp : Nat} (h : exp ≠ 0) (base result : Int) :
    ipowLoop base result exp = (do
      let result ← (if exp % 2 = 1 then mulInt64 result base else pure result)
      let base ← mulInt64 base base
      ipowLoop base result (exp / 2)) := by
  rw [ipowLoop, dif_neg h]

/-- Squaring `10 ^ 2 ^ j` fits while `j < 4`. -/
theorem mulInt64_square_ten {j : Nat} (hj : j < 4) :
    mulInt64 (10 ^ 2 ^ j) (10 ^ 2 ^ j) = .ok (10 ^ 2 ^ (j + 1)) := by
  have hle : 2 ^ j ≤ 2 ^ 3 := Nat.pow_le_pow_right (by decide) (by omega)
  rw [mulInt64_pow_ten, if_pos (by omega), Nat.pow_succ, Nat.mul_two]

theorem two_pow_four_sub {j : Nat} (hj : j < 4) : 2 ^ (4 - j) = 2 ^ (4 - (j + 1)) * 2 := by
  rw [← Nat.pow_succ]
  congr 1
  omega

/-- The loop of `ipow(10, exp)` from the state `base = 10 ^ 2 ^ j`,
`result = 10 ^ s` is exact while the last square stays at or below `10 ^ 16`. -/
theorem ipowLoop_ten {exp : Nat} : ∀ {j s : Nat}, exp < 2 ^ (4 - j) → s + exp * 2 ^ j ≤ 18 →
    ipowLoop (10 ^ 2 ^ j) (10 ^ s) exp = .ok (10 ^ (s + exp * 2 ^ j)) := by
  induction exp using Nat.strongRecOn with
  | ind exp ih =>
  intro j s hexp hs
  by_cases h0 : exp = 0
  · subst h0
    rw [ipowLoop_zero, Nat.zero_mul, Nat.add_zero]
  -- a bit is left, so `base` can still be squared
  have hj : j < 4 := by
    by_contra hj
    rw [show 4 - j = 0 by omega] at hexp
    omega
  have hbit : 2 ^ j ≤ exp * 2 ^ j := Nat.le_mul_of_pos_left _ (by omega)
  have hres : (if exp % 2 = 1 then mulInt64 (10 ^ s) (10 ^ 2 ^ j) else pure (10 ^ s)) =
      .ok (10 ^ (s + exp % 2 * 2 ^ j)) := by
    split
    · next hodd => rw [mulInt64_pow_ten, if_pos (by omega), hodd, Nat.one_mul]
    · next heven => rw [show exp % 2 = 0 by omega, Nat.zero_mul, Nat.add_zero]; rfl
  have hsplit := mod_add_div_mul exp 2 (2 ^ j)
  rw [ipowLoop_of_ne_zero h0, hres, ok_bind, mulInt64_square_ten hj, ok_bind,
    ih (exp / 2) (by omega) (by rw [two_pow_four_sub hj] at hexp; omega)
      (by rw [Nat.pow_succ]; omega),
    Nat.pow_succ, Nat.add_assoc, hsplit]

/-- From `base = 10 ^ 2 ^ j`, an exponent of `5 - j` bits or more squares `base`
past `int64_t`, whatever `result` is. -/
theorem ipowLoop_ten_overflow {exp : Nat} : ∀ {j : Nat} (result : Int), j ≤ 4 → 2 ^ (4 - j) ≤ exp →
    ipowLoop (10 ^ 2 ^ j) result exp = .error .signedOverflow := by
  induction exp using Nat.strongRecOn with
  | ind exp ih =>
  intro j result hj hexp
  have h0 : exp ≠ 0 := by have := Nat.two_pow_pos (4 - j); omega
  -- what follows the product with `result`, whatever it gave
  have hrest : ∀ r, (mulInt64 (10 ^ 2 ^ j) (10 ^ 2 ^ j) >>= fun base => ipowLoop base r (exp / 2)) =
      .error .signedOverflow := by
    intro r
    by_cases h4 : j = 4
    · subst h4
      rw [mulInt64_pow_ten, if_neg (by decide)]
      rfl
    · rw [mulInt64_square_ten (by omega), ok_bind]
      exact ih (exp / 2) (by omega) r (by omega)
        (by rw [two_pow_four_sub (by omega)] at hexp; omega)
  rw [ipowLoop_of_ne_zero h0]
  split
  · exact mulInt64_bind_of_error _ _ hrest
  · rw [pure_bind]
    exact hrest result

theorem ipow_ten_of_lt {e : Nat} (h : e < 16) : ipow 10 e = .ok (10 ^ e) := by
  have hloop := @ipowLoop_ten e 0 0 h (by omega)
  simp only [Nat.pow_zero, Nat.mul_one, Nat.zero_add] at hloop
  exact hloop

theorem ipow_ten_of_le {e : Nat} (h : 16 ≤ e) : ipow 10 e = .error .signedOverflow := by
  exact @ipowLoop_ten_overflow e 0 1 (by omega) h

/-! ## What the selector picks -/

theorem toNat_ofInt_pow_ten {e : Nat} (h : e ≤ 18) : (UInt64.ofInt (10 ^ e)).toNat = 10 ^ e := by
  have hle : 10 ^ e ≤ 10 ^ 18 := Nat.pow_le_pow_right (by decide) h
  have hcast : ((10 ^ e : Nat) : Int) = 10 ^ e := Int.natCast_pow 10 e
  have hfit : ((10 ^ e : Nat) : Int) < 2 ^ 64 := by omega
  rw [UInt64.ofInt, ← hcast, Int.emod_eq_of_lt (Int.natCast_nonneg _) hfit,
    Int.toNat_natCast, UInt64.toNat_ofNat', Nat.mod_eq_of_lt (by omega)]

/-- The decimal-zero loop adds the number of decimal zeros of `x` to its count. -/
theorem decimalZeros_spec (x : UInt64) (z : Nat) (hx : x ≠ 0) :
    ∃ d, decimalZeros x z = z + d ∧ 10 ^ d ∣ x.toNat ∧ ¬10 ^ (d + 1) ∣ x.toNat := by
  induction x, z using decimalZeros.induct with
  | case1 x z h ih =>
    -- `x` is a multiple of ten: one zero here and the others in `x / 10`
    have hmod : x.toNat % 10 = 0 := by
      have := congrArg UInt64.toNat h.2
      rwa [UInt64.toNat_mod, UInt64.toNat_zero] at this
    have hdiv : (x / 10).toNat = x.toNat / 10 := UInt64.toNat_div x 10
    have hx10 : x.toNat = 10 * (x.toNat / 10) := (Nat.mul_div_cancel' (Nat.dvd_of_mod_eq_zero hmod)).symm
    have hne : x / 10 ≠ 0 := by
      have := toNat_ne_zero hx
      rw [ne_eq, ← UInt64.toNat_inj, hdiv, UInt64.toNat_zero]
      omega
    obtain ⟨d, hd, hdvd, hndvd⟩ := ih hne
    refine ⟨d + 1, ?_, ?_, ?_⟩
    · rw [decimalZeros, dif_pos h, hd]
      omega
    · rw [hx10, Nat.pow_succ']
      exact Nat.mul_dvd_mul_left 10 (hdiv ▸ hdvd)
    · rw [hx10, show 10 ^ (d + 1 + 1) = 10 * 10 ^ (d + 1) from Nat.pow_succ']
      exact fun h10 => hndvd (hdiv ▸ Nat.dvd_of_mul_dvd_mul_left (by decide) h10)
  | case2 x z h =>
    -- the last digit is not 0
    have hmod : x.toNat % 10 ≠ 0 := by
      intro hmod
      apply h ⟨hx, _⟩
      rw [← UInt64.toNat_inj, UInt64.toNat_mod, UInt64.toNat_zero]
      exact hmod
    refine ⟨0, ?_, Nat.one_dvd _, ?_⟩
    · rw [decimalZeros, dif_neg h, Nat.add_zero]
    · rw [Nat.zero_add, Nat.pow_one]
      exact fun h10 => hmod (Nat.mod_eq_zero_of_dvd h10)

theorem decimalZeros_eq_of_dvd {x : UInt64} (hx : x ≠ 0) {d : Nat} (hd : 10 ^ d ∣ x.toNat)
    (hd' : ¬10 ^ (d + 1) ∣ x.toNat) (z : Nat) : decimalZeros x z = z + d := by
  obtain ⟨e, he, hde, hde'⟩ := decimalZeros_spec x z hx
  -- the number of decimal zeros is unique
  have hed : e = d := by
    rcases Nat.lt_trichotomy e d with hlt | heq | hgt
    · exact absurd (Nat.dvd_trans (Nat.pow_dvd_pow 10 hlt) hd) hde'
    · exact heq
    · exact absurd (Nat.dvd_trans (Nat.pow_dvd_pow 10 hgt) hde) hd'
  rw [he, hed]

/-- A value that is not 0 and below `10 ^ (b + 1)` has at most `b` decimal
zeros. -/
theorem le_of_pow_ten_dvd {x : UInt64} (hx : x ≠ 0) {b d : Nat} (hb : x.toNat < 10 ^ (b + 1))
    (hd : 10 ^ d ∣ x.toNat) : d ≤ b := by
  have hle := Nat.le_of_dvd (Nat.pos_of_ne_zero (toNat_ne_zero hx)) hd
  by_contra h
  have : 10 ^ (b + 1) ≤ 10 ^ d := Nat.pow_le_pow_right (by decide) (by omega)
  omega

theorem le_nineteen_of_dvd {x : UInt64} (hx : x ≠ 0) {d : Nat} (hd : 10 ^ d ∣ x.toNat) : d ≤ 19 :=
  le_of_pow_ten_dvd hx (Nat.lt_trans x.toNat_lt (by decide)) hd

theorem roundUpBits_spec {n : Nat} (hn : n ≤ 64) :
    n ≤ roundUpBits n ∧ roundUpBits n ≤ 64 ∧ (roundUpBits n % 4 = 0 ∨ roundUpBits n = 63) := by
  induction n using roundUpBits.induct with
  | case1 n h ih =>
    rw [roundUpBits, dif_pos h]
    obtain ⟨hle, hhi, hmul⟩ := ih (by omega)
    exact ⟨by omega, hhi, hmul⟩
  | case2 n h =>
    rw [roundUpBits, dif_neg h]
    omega

theorem selectBits_spec (nTest : UInt64) :
    32 ≤ selectBits nTest ∧ selectBits nTest ≤ 64 ∧ (selectBits nTest % 4 = 0 ∨ selectBits nTest = 63) ∧
      nTest.toNat < 2 ^ selectBits nTest := by
  have hfit := lt_two_pow_countTrailingZeros nTest
  dsimp only [selectBits]
  -- the width before rounding: at least 32 and at least the bit length
  have hstart : 32 ≤ (if 64 - CountTrailingZeros nTest > 32 then 64 - CountTrailingZeros nTest else 32) ∧
      (if 64 - CountTrailingZeros nTest > 32 then 64 - CountTrailingZeros nTest else 32) ≤ 64 ∧
      64 - CountTrailingZeros nTest ≤
        (if 64 - CountTrailingZeros nTest > 32 then 64 - CountTrailingZeros nTest else 32) := by
    split <;> omega
  obtain ⟨hlo, hhi, hlen⟩ := hstart
  obtain ⟨hup, hle, hmul⟩ := roundUpBits_spec hhi
  refine ⟨by omega, hle, hmul, ?_⟩
  exact Nat.lt_of_lt_of_le hfit (Nat.pow_le_pow_right (by decide) (by omega))

section Selector

variable (GetRand : Nat → Nat → Nat) (hrand : ∀ k n, 0 < n → GetRand k n < n)

include hrand in
theorem selectExponent_bounds (d : Nat) :
    d / 2 ≤ selectExponent GetRand d ∧ selectExponent GetRand d ≤ d - 1 := by
  dsimp only [selectExponent]
  split
  · next h =>
    have := hrand 0 (d - d / 2) h
    omega
  · omega

/-- With an exponent below 16, `ipow` is exact and its result converts to
`uint64_t` unchanged, so the selector returns 0 with a width that holds the
scaled value. -/
theorem selectRangeProofParameters_of_exponent_lt {nValueIn : UInt64} (h0 : nValueIn ≠ 0) {d : Nat}
    (hdz : decimalZeros nValueIn 0 = d) (hlt : selectExponent GetRand d < 16) :
    ∃ nBits, SelectRangeProofParameters GetRand nValueIn = .ok (0, selectExponent GetRand d, nBits) ∧
      32 ≤ nBits ∧ nBits ≤ 64 ∧ (nBits % 4 = 0 ∨ nBits = 63) ∧
      nValueIn.toNat / 10 ^ selectExponent GetRand d < 2 ^ nBits := by
  obtain ⟨h32, h64, hmul, hfit⟩ :=
    selectBits_spec (nValueIn / UInt64.ofInt (10 ^ selectExponent GetRand d))
  rw [UInt64.toNat_div, toNat_ofInt_pow_ten (by omega)] at hfit
  refine ⟨_, ?_, h32, h64, hmul, hfit⟩
  simp only [SelectRangeProofParameters, if_neg h0, hdz, ipow_ten_of_lt hlt]
  rfl

include hrand in
/-- For a value that is not 0, with `d` decimal zeros, the selector takes an
exponent from half of them to all but one of them.  Below 16 it returns 0 with
a width in `[32, 64]`, a multiple of 4 unless it is 63, that holds the value
divided by `10 ^ exponent`; from 16 on, `ipow` overflows. -/
theorem selectRangeProofParameters_spec {nValueIn : UInt64} (h0 : nValueIn ≠ 0) {d : Nat}
    (hd : 10 ^ d ∣ nValueIn.toNat) (hd' : ¬10 ^ (d + 1) ∣ nValueIn.toNat) :
    ∃ exponent, d / 2 ≤ exponent ∧ exponent ≤ d - 1 ∧ exponent ≤ 18 ∧
      10 ^ exponent ∣ nValueIn.toNat ∧
      (exponent < 16 → ∃ nBits,
        SelectRangeProofParameters GetRand nValueIn = .ok (0, exponent, nBits) ∧
        32 ≤ nBits ∧ nBits ≤ 64 ∧ (nBits % 4 = 0 ∨ nBits = 63) ∧
        nValueIn.toNat / 10 ^ exponent < 2 ^ nBits) ∧
      (16 ≤ exponent → SelectRangeProofParameters GetRand nValueIn = .error .signedOverflow) := by
  have hdz := decimalZeros_eq_of_dvd h0 hd hd' 0
  rw [Nat.zero_add] at hdz
  obtain ⟨hlo, hhi⟩ := selectExponent_bounds GetRand hrand d
  have h19 := le_nineteen_of_dvd h0 hd
  refine ⟨selectExponent GetRand d, hlo, hhi, by omega,
    Nat.dvd_trans (Nat.pow_dvd_pow 10 (by omega)) hd, fun hlt => ?_, fun hle => ?_⟩
  · exact selectRangeProofParameters_of_exponent_lt GetRand h0 hdz hlt
  · simp only [SelectRangeProofParameters, if_neg h0, hdz, ipow_ten_of_le hle]
    rfl

/-- A value in the money range has at most 15 decimal zeros. -/
theorem decimalZeros_le_of_moneyRange {x : UInt64} (hx : x ≠ 0)
    (hmoney : MoneyRange (x.toNat : Int) = true) {d : Nat} (hd : 10 ^ d ∣ x.toNat) : d ≤ 15 := by
  -- `MAX_MONEY` is `21 * 10 ^ 14`, below `10 ^ 16`
  have hmax : (x.toNat : Int) ≤ 21000000 * 100000000 := ((moneyRange_iff _).mp hmoney).2
  exact le_of_pow_ten_dvd hx (by omega) hd

include hrand in
/-- For every value from 1 to `MAX_MONEY`, with `d` decimal zeros, the selector
returns 0 with an exponent from half of them to all but one of them, and a
width in `[32, 64]`, a multiple of 4 unless it is 63, that holds the value
divided by `10 ^ exponent`. -/
theorem selectRangeProofParameters_moneyRange {nValueIn : UInt64} (h0 : nValueIn ≠ 0)
    (hmoney : MoneyRange (nValueIn.toNat : Int) = true) {d : Nat}
    (hd : 10 ^ d ∣ nValueIn.toNat) (hd' : ¬10 ^ (d + 1) ∣ nValueIn.toNat) :
    ∃ exponent nBits, SelectRangeProofParameters GetRand nValueIn = .ok (0, exponent, nBits) ∧
      d / 2 ≤ exponent ∧ exponent ≤ d - 1 ∧ exponent ≤ 18 ∧ 10 ^ exponent ∣ nValueIn.toNat ∧
      32 ≤ nBits ∧ nBits ≤ 64 ∧ (nBits % 4 = 0 ∨ nBits = 63) ∧
      nValueIn.toNat / 10 ^ exponent < 2 ^ nBits := by
  have hdz := decimalZeros_eq_of_dvd h0 hd hd' 0
  rw [Nat.zero_add] at hdz
  obtain ⟨hlo, hhi⟩ := selectExponent_bounds GetRand hrand d
  -- at most 15 zeros leave the exponent at 14 or below, where `ipow` is exact
  have h15 := decimalZeros_le_of_moneyRange h0 hmoney hd
  obtain ⟨nBits, hrun, h32, h64, hmul, hfit⟩ :=
    selectRangeProofParameters_of_exponent_lt GetRand h0 hdz (by omega)
  exact ⟨_, nBits, hrun, hlo, hhi, by omega, Nat.dvd_trans (Nat.pow_dvd_pow 10 (by omega)) hd,
    h32, h64, hmul, hfit⟩

end Selector

theorem selectRangeProofParameters_spec_hundred :
    ∃ exponent nBits, SelectRangeProofParameters (fun _ _ => 0) 100 = .ok (0, exponent, nBits) ∧
      100 / 10 ^ exponent < 2 ^ nBits := by
  obtain ⟨exponent, _, hhi, _, _, hok, _⟩ := @selectRangeProofParameters_spec (fun _ _ => 0)
    (fun _ _ hn => hn) 100 (by decide) 2 (by decide) (by decide)
  obtain ⟨nBits, hrun, _, _, _, hfit⟩ := hok (by omega)
  exact ⟨exponent, nBits, hrun, hfit⟩

theorem selectRangeProofParameters_moneyRange_hundred :
    ∃ exponent nBits, SelectRangeProofParameters (fun _ _ => 0) 100 = .ok (0, exponent, nBits) ∧
      100 / 10 ^ exponent < 2 ^ nBits := by
  obtain ⟨exponent, nBits, hrun, -, -, -, -, -, -, -, hfit⟩ :=
    @selectRangeProofParameters_moneyRange (fun _ _ => 0) (fun _ _ hn => hn) 100 (by decide)
      (by decide) 2 (by decide) (by decide)
  exact ⟨exponent, nBits, hrun, hfit⟩

/-- A value of `10 ^ 17`, with the largest exponent `GetRand` can give: `ipow(10, 16)`
squares `10 ^ 16` after its last bit. -/
theorem selectRangeProofParameters_overflows :
    SelectRangeProofParameters (fun _ n => n - 1) 100000000000000000 = .error .signedOverflow := by
  have hd : decimalZeros 100000000000000000 0 = 0 + 17 :=
    decimalZeros_eq_of_dvd (by decide) (by decide) (by decide) 0
  have he : selectExponent (fun _ n => n - 1) (0 + 17) = 16 := rfl
  simp only [SelectRangeProofParameters, if_neg (by decide : (100000000000000000 : UInt64) ≠ 0), hd,
    he, ipow_ten_of_le (Nat.le_refl 16)]
  rfl


end Globe
