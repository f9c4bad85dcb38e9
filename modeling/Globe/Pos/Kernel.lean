import Globe.Chain.Params

/-!
# The stake kernel

`CheckStakeKernelHash` (`pos/kernel.cpp`): the kernel hash of a staked output
must not exceed the target weighted by the staked amount.  The hash is the
double SHA-256 of the stake modifier, the output's time, the outpoint and the
block time; it is a parameter `Hash` here.

The weighted target `bnTarget *= bnWeight` is `base_uint`'s product, which
keeps the low 256 bits.  `checkStakeKernelHash_iff_of_no_wrap` is the rule where
the product fits; `checkStakeKernelHash_wraps` is a mainnet target and an
amount below `MAX_MONEY` whose product is `2 ^ 256` times a whole number.
-/

namespace Globe

open ByteCodec

variable (Hash : Bytes → uint256)

/-- The stream `CheckStakeKernelHash` hashes. -/
def kernelPreimage (pindexPrev : CBlockIndex) (nBlockFromTime : UInt32) (prevout : COutPoint)
    (nTime : UInt32) : Bytes :=
  pindexPrev.bnStakeModifier.bytes ++ ser_writedata32 nBlockFromTime ++ prevout.hash.bytes ++
    ser_writedata32 prevout.n ++ ser_writedata32 nTime

/-- `CheckStakeKernelHash(pindexPrev, nBits, nBlockFromTime, prevOutAmount,
prevout, nTime, ...)`. -/
def CheckStakeKernelHash (pindexPrev : CBlockIndex) (nBits nBlockFromTime : UInt32)
    (prevOutAmount : Int64) (prevout : COutPoint) (nTime : UInt32) : Bool :=
  if nTime < nBlockFromTime then false
  else
    let (bnTarget, fNegative, fOverflow) := SetCompact nBits
    if fNegative || fOverflow || bnTarget == 0 then false
    else
      -- `arith_uint256(nValueIn)` converts the `int64_t` through `uint64_t`
      let bnWeight := arith_uint256.ofUInt64 prevOutAmount.toUInt64
      let bnTarget := bnTarget * bnWeight
      let hashProofOfStake := Hash (kernelPreimage pindexPrev nBlockFromTime prevout nTime)
      !(bnTarget < UintToArith256 hashProofOfStake)

variable {Hash} {pindexPrev : CBlockIndex} {nBits nBlockFromTime nTime : UInt32}
  {prevOutAmount : Int64} {prevout : COutPoint}

/-- With the time order and a valid target, the kernel passes when its hash is
at most the wrapped product. -/
theorem checkStakeKernelHash_eq (htime : nBlockFromTime ≤ nTime)
    (hneg : (SetCompact nBits).2.1 = false) (hover : (SetCompact nBits).2.2 = false)
    (hzero : (SetCompact nBits).1 ≠ 0) :
    CheckStakeKernelHash Hash pindexPrev nBits nBlockFromTime prevOutAmount prevout nTime =
      decide ((UintToArith256 (Hash (kernelPreimage pindexPrev nBlockFromTime prevout nTime))).toNat ≤
        (SetCompact nBits).1.toNat * prevOutAmount.toUInt64.toNat % 2 ^ 256) := by
  have hnlt : ¬ nTime < nBlockFromTime := UInt32.not_lt.mpr htime
  rcases hs : SetCompact nBits with ⟨T, fN, fO⟩
  rw [hs] at hneg hover hzero
  simp only at hneg hover hzero
  subst hneg hover
  have hprod : (T * arith_uint256.ofUInt64 prevOutAmount.toUInt64).toNat =
      T.toNat * prevOutAmount.toUInt64.toNat % 2 ^ 256 := by
    rw [BitVec.toNat_mul, toNat_ofUInt64]
  have hT : (T == 0) = false := beq_eq_false_iff_ne.mpr hzero
  simp only [CheckStakeKernelHash, hnlt, if_false, hs, Bool.or_false, hT, Bool.false_eq_true]
  simp only [BitVec.lt_def, hprod, ← decide_not, Nat.not_lt]

/-- Where the weighted target fits 256 bits, the kernel passes exactly when its
hash is at most the target times the amount. -/
theorem checkStakeKernelHash_iff_of_no_wrap (htime : nBlockFromTime ≤ nTime)
    (hneg : (SetCompact nBits).2.1 = false) (hover : (SetCompact nBits).2.2 = false)
    (hzero : (SetCompact nBits).1 ≠ 0) (hv : 0 ≤ prevOutAmount.toInt)
    (hfit : (SetCompact nBits).1.toNat * prevOutAmount.toInt.toNat < 2 ^ 256) :
    CheckStakeKernelHash Hash pindexPrev nBits nBlockFromTime prevOutAmount prevout nTime = true ↔
      (UintToArith256 (Hash (kernelPreimage pindexPrev nBlockFromTime prevout nTime))).toNat ≤
        (SetCompact nBits).1.toNat * prevOutAmount.toInt.toNat := by
  have hamount : prevOutAmount.toUInt64.toNat = prevOutAmount.toInt.toNat := by
    have hx : 0 ≤ prevOutAmount := Int64.le_iff_toInt_le.mpr (by simpa using hv)
    rw [Int64.toNat_toUInt64_of_le hx]
    rfl
  rw [checkStakeKernelHash_eq htime hneg hover hzero, hamount, Nat.mod_eq_of_lt hfit]
  simp

/-- A stake of 100 units at the target `0x1f7fffff`, with every kernel hashing to
zero. -/
theorem checkStakeKernelHash_iff_of_no_wrap_hundred :
    CheckStakeKernelHash (fun _ => ByteCodec.Blob.zero 32)
        ⟨0, 0, 0x1f7fffff, ByteCodec.Blob.zero 32, none⟩ 0x1f7fffff 0 100
        ⟨ByteCodec.Blob.zero 32, 0⟩ 0 = true ↔
      (UintToArith256 (ByteCodec.Blob.zero 32)).toNat ≤
        (SetCompact 0x1f7fffff).1.toNat * (100 : Int64).toInt.toNat :=
  checkStakeKernelHash_iff_of_no_wrap (UInt32.le_refl 0) (by decide) (by decide) (by decide)
    (by decide) (by decide)

/-! ## A mainnet target whose weighted product wraps -/

/-- `0x1f7fffff` encodes `2 ^ 224 * (2 ^ 23 - 1)`, below `powLimit`, and a
stake of `2 ^ 32` units, below `MAX_MONEY`, weights it to a multiple of
`2 ^ 256`: the wrapped target is zero and only a kernel hashing to zero passes,
where the integer product `T * v`, above every hash, passes all of them.  One
unit less and the wrapped target is `2 ^ 256 - 2 ^ 247 + 2 ^ 224`, so a larger
stake passes fewer kernels. -/
theorem checkStakeKernelHash_wraps (pindexPrev : CBlockIndex) (prevout : COutPoint)
    (nTime : UInt32) :
    (SetCompact 0x1f7fffff).1.toNat ≤ mainParams.powLimit.toNat ∧
    (4294967296 : Int) ≤ MAX_MONEY ∧
    2 ^ 256 ≤ (SetCompact 0x1f7fffff).1.toNat * 4294967296 ∧
    CheckStakeKernelHash Hash pindexPrev 0x1f7fffff 0 4294967296 prevout nTime =
      decide ((UintToArith256 (Hash (kernelPreimage pindexPrev 0 prevout nTime))).toNat = 0) ∧
    CheckStakeKernelHash Hash pindexPrev 0x1f7fffff 0 4294967295 prevout nTime =
      decide ((UintToArith256 (Hash (kernelPreimage pindexPrev 0 prevout nTime))).toNat ≤
        2 ^ 256 - 2 ^ 247 + 2 ^ 224) := by
  have htime : (0 : UInt32) ≤ nTime := UInt32.zero_le
  have hneg : (SetCompact 0x1f7fffff).2.1 = false := by decide
  have hover : (SetCompact 0x1f7fffff).2.2 = false := by decide
  have hzero : (SetCompact 0x1f7fffff).1 ≠ 0 := by decide
  -- the two wrapped products, evaluated
  have hbig : (SetCompact 0x1f7fffff).1.toNat * (4294967296 : Int64).toUInt64.toNat % 2 ^ 256 = 0 := by
    decide
  have hsmall : (SetCompact 0x1f7fffff).1.toNat * (4294967295 : Int64).toUInt64.toNat % 2 ^ 256 =
      2 ^ 256 - 2 ^ 247 + 2 ^ 224 := by
    decide
  refine ⟨by decide, by decide, by decide, ?_, ?_⟩
  · rw [checkStakeKernelHash_eq htime hneg hover hzero, hbig]
    simp
  · rw [checkStakeKernelHash_eq htime hneg hover hzero, hsmall]

end Globe
