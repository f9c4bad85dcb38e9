import Mathlib

/-!
# 256-bit targets

`arith_uint256.h` and `arith_uint256.cpp`: the 256-bit unsigned integer in which
proof-of-work and proof-of-stake targets are computed, and its "compact"
32-bit encoding.

`base_uint` keeps eight 32-bit limbs and its `+`, `*`, `/` and shifts are the
schoolbook loops over them, which compute the operations modulo `2 ^ 256`; the
model is `BitVec 256`, whose operations are those.  What matters to the
callers is which overload a call site picks: `operator*=(uint32_t)` reduces
its argument modulo `2 ^ 32` before multiplying, and a `uint64_t` or an
`int64_t` becomes a `base_uint` through `base_uint(uint64_t)`.

`bits` scans from the top as the source does, so that `GetCompact` computes by
`decide` on concrete targets.
-/

namespace Globe

/-- `arith_uint256`. -/
abbrev arith_uint256 := BitVec 256

/-- `base_uint(uint64_t)`. -/
def arith_uint256.ofUInt64 (b : UInt64) : arith_uint256 := BitVec.ofNat 256 b.toNat

/-- `operator*=(uint32_t)`: the product modulo `2 ^ 256`. -/
def arith_uint256.mulUInt32 (a : arith_uint256) (b32 : UInt32) : arith_uint256 :=
  a * BitVec.ofNat 256 b32.toNat

/-- The implicit conversion of an `int64_t` to a `uint32_t` argument. -/
def int64ToUInt32 (x : Int) : UInt32 := UInt32.ofNat (x % 2 ^ 32).toNat

/-- The implicit conversion of an `int64_t` to a `uint64_t`. -/
def int64ToUInt64 (x : Int) : UInt64 := UInt64.ofNat (x % 2 ^ 64).toNat

/-- The highest set bit below `k`, plus one; zero when there is none. -/
def bitsBelow (a : arith_uint256) : Nat → Nat
  | 0 => 0
  | k + 1 => if a.getLsbD k then k + 1 else bitsBelow a k

/-- `bits()`: the position of the highest bit set plus one, or zero. -/
def bits (a : arith_uint256) : Nat := bitsBelow a 256

/-- `GetLow64()`. -/
def GetLow64 (a : arith_uint256) : UInt64 := UInt64.ofNat a.toNat

/-- `SetCompact(nCompact, pfNegative, pfOverflow)`: the value, then the
negative and overflow flags.  A size of three bytes or less shifts the
mantissa down; a larger size shifts it up, and past 256 bits it is lost. -/
def SetCompact (nCompact : UInt32) : arith_uint256 × Bool × Bool :=
  let nSize := (nCompact >>> 24).toNat
  let nWord := nCompact &&& 0x007fffff
  -- the flags below see the mantissa after the shift of the small case
  let nWord := if nSize ≤ 3 then nWord >>> (8 * (3 - nSize)).toUInt32 else nWord
  let value : arith_uint256 :=
    if nSize ≤ 3 then BitVec.ofNat 256 nWord.toNat
    else BitVec.ofNat 256 nWord.toNat <<< (8 * (nSize - 3))
  let fNegative := nWord != 0 && nCompact &&& 0x00800000 != 0
  let fOverflow := nWord != 0 &&
    (decide (34 < nSize) || (decide (0xff < nWord) && decide (33 < nSize)) ||
      (decide (0xffff < nWord) && decide (32 < nSize)))
  (value, fNegative, fOverflow)

/-- `GetCompact(fNegative)`: the size in bytes and the top three bytes, moved
up a byte when the top one would read as the sign. -/
def GetCompact (a : arith_uint256) (fNegative : Bool) : UInt32 :=
  let nSize := (bits a + 7) / 8
  let nCompact : UInt32 :=
    if nSize ≤ 3 then (GetLow64 a <<< (8 * (3 - nSize)).toUInt64).toUInt32
    else (GetLow64 (a >>> (8 * (nSize - 3)))).toUInt32
  let (nCompact, nSize) :=
    if nCompact &&& 0x00800000 != 0 then (nCompact >>> 8, nSize + 1) else (nCompact, nSize)
  let nCompact := nCompact ||| (nSize.toUInt32 <<< 24)
  nCompact ||| (if fNegative && nCompact &&& 0x007fffff != 0 then 0x00800000 else 0)

/-! ## The arithmetic the callers rely on -/

theorem toNat_mulUInt32 (a : arith_uint256) (b32 : UInt32) :
    (a.mulUInt32 b32).toNat = a.toNat * b32.toNat % 2 ^ 256 := by
  have hb : b32.toNat < 2 ^ 256 := lt_trans b32.toNat_lt (Nat.pow_lt_pow_right (by decide) (by decide))
  rw [arith_uint256.mulUInt32, BitVec.toNat_mul, BitVec.toNat_ofNat, Nat.mod_eq_of_lt hb]

theorem toNat_ofUInt64 (b : UInt64) : (arith_uint256.ofUInt64 b).toNat = b.toNat := by
  have hb : b.toNat < 2 ^ 256 := lt_trans b.toNat_lt (Nat.pow_lt_pow_right (by decide) (by decide))
  rw [arith_uint256.ofUInt64, BitVec.toNat_ofNat, Nat.mod_eq_of_lt hb]

/-- A non-negative `int64_t` below `2 ^ 32` passes to a `uint32_t` unchanged. -/
theorem toNat_int64ToUInt32 {x : Int} (h0 : 0 ≤ x) (h : x < 2 ^ 32) :
    (int64ToUInt32 x).toNat = x.toNat := by
  have hx : x % 2 ^ 32 = x := Int.emod_eq_of_lt h0 h
  have hlt : x.toNat < 2 ^ 32 := by omega
  rw [int64ToUInt32, hx, UInt32.toNat_ofNat', Nat.mod_eq_of_lt hlt]

/-- A non-negative `int64_t` passes to a `uint64_t` unchanged. -/
theorem toNat_int64ToUInt64 {x : Int} (h0 : 0 ≤ x) (h : x < 2 ^ 64) :
    (int64ToUInt64 x).toNat = x.toNat := by
  have hx : x % 2 ^ 64 = x := Int.emod_eq_of_lt h0 h
  have hlt : x.toNat < 2 ^ 64 := by omega
  rw [int64ToUInt64, hx, UInt64.toNat_ofNat', Nat.mod_eq_of_lt hlt]

end Globe
