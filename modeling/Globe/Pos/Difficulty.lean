import Globe.Chain.Params

/-!
# The proof-of-stake target

`GetNextTargetRequired` (`validation.cpp`): during the import phase the limit
falls linearly from a high target to `powLimit`; afterwards it is `powLimit`.
From the third block on, the target of the last block is moved towards the
target spacing by the spacing of the last two blocks, capped at ten spacings:

  `bnNew = T * ((N - 1) * S + 2 * a) / ((N + 1) * S)`.

The factor is an `int64_t`, and `bnNew *= factor` resolves to
`operator*=(uint32_t)`: the factor is taken modulo `2 ^ 32` and the product
modulo `2 ^ 256`.  `getNextTargetRequired_of_no_wrap` says that where neither reduction
happens the result is the formula read over the integers;
`getNextTargetRequired_wraps` is a mainnet block where the product wraps.
-/

namespace Globe

/-- The upper end of the import-phase limits. -/
def nMaxProofOfWorkLimit : arith_uint256 :=
  0x000000000008ffffffffffffffffffffffffffffffffffffffffffffffffffff

/-- The target of the first block of an import phase. -/
def genesisImportLimit : arith_uint256 :=
  0x00ffffffffffffffffffffffffffffffffffffffffffffffffffffffffffffff

/-- The limit at height `nHeight` of the import phase: `nStep * nHeight` below
the upper end, where `nStep * nHeight` is `operator*(base_uint, uint32_t)`. -/
def importPhaseLimit (params : ChainParams) (nHeight : Int) : arith_uint256 :=
  let nStep := (nMaxProofOfWorkLimit - params.powLimit) /
    arith_uint256.ofUInt64 (int64ToUInt64 params.nLastImportHeight.toNat)
  nMaxProofOfWorkLimit - nStep.mulUInt32 (int64ToUInt32 nHeight)

/-- `(nInterval - 1) * nTargetSpacing + nActualSpacing + nActualSpacing`, with
the actual spacing of the last two blocks capped at ten target spacings. -/
def retargetFactor (params : ChainParams) (pindexPrev pindexPrevPrev : CBlockIndex) : Int :=
  let nTargetSpacing : Int := params.nTargetSpacing.toNat
  let nTargetTimespan : Int := params.nTargetTimespan.toNat
  let nActualSpacing :=
    min (pindexPrev.GetBlockTime - pindexPrevPrev.GetBlockTime) (nTargetSpacing * 10)
  let nInterval := nTargetTimespan / nTargetSpacing
  (nInterval - 1) * nTargetSpacing + nActualSpacing + nActualSpacing

/-- `(nInterval + 1) * nTargetSpacing`. -/
def retargetDivisor (params : ChainParams) : Int :=
  let nTargetSpacing : Int := params.nTargetSpacing.toNat
  let nInterval := (params.nTargetTimespan.toNat : Int) / nTargetSpacing
  (nInterval + 1) * nTargetSpacing

/-- The retarget from the third block on, clamped to the limit. -/
def retarget (params : ChainParams) (bnProofOfWorkLimit : arith_uint256)
    (pindexPrev pindexPrevPrev : CBlockIndex) : UInt32 :=
  let bnNew := (SetCompact pindexPrev.nBits).1
  let bnNew := bnNew.mulUInt32 (int64ToUInt32 (retargetFactor params pindexPrev pindexPrevPrev))
  let bnNew := bnNew / arith_uint256.ofUInt64 (int64ToUInt64 (retargetDivisor params))
  if bnNew ≤ 0 ∨ bnProofOfWorkLimit < bnNew then GetCompact bnProofOfWorkLimit false
  else GetCompact bnNew false

/-- `GetNextTargetRequired(pindexLast, consensus)`. -/
def GetNextTargetRequired (params : ChainParams) (pindexLast : Option CBlockIndex) : UInt32 :=
  let nHeight : Int := match pindexLast with
    | some p => p.nHeight + 1
    | none => 0
  let inImport := decide (nHeight < (params.nLastImportHeight.toNat : Int))
  if inImport ∧ nHeight = 0 then GetCompact genesisImportLimit false
  else
    let bnProofOfWorkLimit :=
      if inImport then importPhaseLimit params nHeight else params.powLimit
    let nProofOfWorkLimit := GetCompact bnProofOfWorkLimit false
    match pindexLast with
    | none => nProofOfWorkLimit
    | some pindexPrev =>
      match pindexPrev.pprev with
      | none => nProofOfWorkLimit
      | some pindexPrevPrev =>
        match pindexPrevPrev.pprev with
        | none => nProofOfWorkLimit
        | some _ => retarget params bnProofOfWorkLimit pindexPrev pindexPrevPrev

/-! ## The retarget where nothing wraps -/

/-- After the import phase and with two ancestors, the target is the retarget
against `powLimit`. -/
theorem getNextTargetRequired_eq_retarget (params : ChainParams) {pindexLast p pp : CBlockIndex}
    (hheight : (params.nLastImportHeight.toNat : Int) ≤ pindexLast.nHeight)
    (hp : pindexLast.pprev = some p) (hpp : p.pprev = some pp) :
    GetNextTargetRequired params (some pindexLast) = retarget params params.powLimit pindexLast p := by
  have hnot : ¬ pindexLast.nHeight + 1 < (params.nLastImportHeight.toNat : Int) := by omega
  simp only [GetNextTargetRequired, hnot, decide_false, Bool.false_eq_true, false_and,
    if_false, hp, hpp]

/-- The divisor is positive and below `2 ^ 64`: `nInterval * S` is at most the
timespan. -/
theorem retargetDivisor_bounds (params : ChainParams) :
    0 < retargetDivisor params ∧ retargetDivisor params < 2 ^ 64 := by
  have hS := params.nTargetSpacing_pos
  have hSlt := params.nTargetSpacing.toNat_lt
  have hTlt := params.nTargetTimespan.toNat_lt
  have hmul : (params.nTargetTimespan.toNat : Int) / params.nTargetSpacing.toNat *
      params.nTargetSpacing.toNat ≤ params.nTargetTimespan.toNat :=
    Int.ediv_mul_le _ (by omega)
  have hnonneg : 0 ≤ (params.nTargetTimespan.toNat : Int) / params.nTargetSpacing.toNat :=
    Int.ediv_nonneg (by omega) (by omega)
  unfold retargetDivisor
  constructor
  · exact Int.mul_pos (by omega) (by omega)
  · rw [Int.add_mul, Int.one_mul]
    omega

variable (params : ChainParams) (lim : arith_uint256) (p pp : CBlockIndex)

/-- Where the factor is a `uint32_t` and the product fits 256 bits, the
retarget is the integer formula, clamped. -/
theorem retarget_of_no_wrap (h0 : 0 ≤ retargetFactor params p pp)
    (h32 : retargetFactor params p pp < 2 ^ 32)
    (h256 : (SetCompact p.nBits).1.toNat * (retargetFactor params p pp).toNat < 2 ^ 256) :
    retarget params lim p pp =
      let v := (SetCompact p.nBits).1.toNat * (retargetFactor params p pp).toNat /
        (retargetDivisor params).toNat
      if v = 0 ∨ lim.toNat < v then GetCompact lim false
      else GetCompact (BitVec.ofNat 256 v) false := by
  obtain ⟨hd0, hd64⟩ := retargetDivisor_bounds params
  -- the wrapped quotient is the integer quotient
  have hquot : ((SetCompact p.nBits).1.mulUInt32 (int64ToUInt32 (retargetFactor params p pp)) /
      arith_uint256.ofUInt64 (int64ToUInt64 (retargetDivisor params))).toNat =
      (SetCompact p.nBits).1.toNat * (retargetFactor params p pp).toNat /
        (retargetDivisor params).toNat := by
    rw [BitVec.toNat_udiv, toNat_mulUInt32, toNat_int64ToUInt32 h0 h32, Nat.mod_eq_of_lt h256,
      toNat_ofUInt64, toNat_int64ToUInt64 (by omega) hd64]
  set q := (SetCompact p.nBits).1.mulUInt32 (int64ToUInt32 (retargetFactor params p pp)) /
      arith_uint256.ofUInt64 (int64ToUInt64 (retargetDivisor params)) with hq
  have hqv : q = BitVec.ofNat 256 q.toNat := by
    apply BitVec.eq_of_toNat_eq
    rw [BitVec.toNat_ofNat, Nat.mod_eq_of_lt q.isLt]
  have hzero : q ≤ 0 ↔ q.toNat = 0 := by
    rw [BitVec.le_def]
    simp
  have habove : lim < q ↔ lim.toNat < q.toNat := BitVec.lt_def
  simp only [retarget]
  rw [← hq, ← hquot]
  by_cases hz : q.toNat = 0
  · rw [if_pos (Or.inl (hzero.mpr hz)), if_pos (Or.inl hz)]
  · by_cases hl : lim.toNat < q.toNat
    · rw [if_pos (Or.inr (habove.mpr hl)), if_pos (Or.inr hl)]
    · rw [if_neg (by rw [hzero, habove]; omega), if_neg (by omega), ← hqv]

/-- After the import phase and with two ancestors, where the factor is a
`uint32_t` and the weighted target fits 256 bits, the next target is the integer
formula `T * factor / divisor`, clamped to `powLimit`. -/
theorem getNextTargetRequired_of_no_wrap {pindexLast prev prevPrev : CBlockIndex}
    (hheight : (params.nLastImportHeight.toNat : Int) ≤ pindexLast.nHeight)
    (hprev : pindexLast.pprev = some prev) (hprevPrev : prev.pprev = some prevPrev)
    (h0 : 0 ≤ retargetFactor params pindexLast prev)
    (h32 : retargetFactor params pindexLast prev < 2 ^ 32)
    (h256 : (SetCompact pindexLast.nBits).1.toNat * (retargetFactor params pindexLast prev).toNat <
      2 ^ 256) :
    GetNextTargetRequired params (some pindexLast) =
      let v := (SetCompact pindexLast.nBits).1.toNat * (retargetFactor params pindexLast prev).toNat /
        (retargetDivisor params).toNat
      if v = 0 ∨ params.powLimit.toNat < v then GetCompact params.powLimit false
      else GetCompact (BitVec.ofNat 256 v) false := by
  rw [getNextTargetRequired_eq_retarget params hheight hprev hprevPrev]
  exact retarget_of_no_wrap params params.powLimit pindexLast prev h0 h32 h256

/-- Three blocks past the import phase at `0x1e0fffff`, one target spacing
apart. -/
def steadyTipPrev : CBlockIndex where
  nHeight := 99
  nTime := 120
  nBits := 0x1e0fffff
  bnStakeModifier := ByteCodec.Blob.zero 32
  pprev := some
    { nHeight := 98, nTime := 0, nBits := 0x1e0fffff,
      bnStakeModifier := ByteCodec.Blob.zero 32, pprev := none }

def steadyTip : CBlockIndex where
  nHeight := 100
  nTime := 240
  nBits := 0x1e0fffff
  bnStakeModifier := ByteCodec.Blob.zero 32
  pprev := some steadyTipPrev

theorem getNextTargetRequired_of_no_wrap_steady :
    GetNextTargetRequired mainParams (some steadyTip) =
      let v := (SetCompact steadyTip.nBits).1.toNat *
        (retargetFactor mainParams steadyTip steadyTipPrev).toNat / (retargetDivisor mainParams).toNat
      if v = 0 ∨ mainParams.powLimit.toNat < v then GetCompact mainParams.powLimit false
      else GetCompact (BitVec.ofNat 256 v) false :=
  getNextTargetRequired_of_no_wrap mainParams (by decide) rfl rfl (by decide) (by decide) (by decide)

/-! ## A mainnet block where the product wraps -/

/-- Three blocks past the import phase, all at `0x1f7fffff`, which is
`powLimit` rounded to the compact form; the last two are ten target spacings
apart. -/
def wrapTipPrev : CBlockIndex where
  nHeight := 99
  nTime := 1200
  nBits := 0x1f7fffff
  bnStakeModifier := ByteCodec.Blob.zero 32
  pprev := some
    { nHeight := 98, nTime := 0, nBits := 0x1f7fffff,
      bnStakeModifier := ByteCodec.Blob.zero 32, pprev := none }

def wrapTip : CBlockIndex where
  nHeight := 100
  nTime := 2400
  nBits := 0x1f7fffff
  bnStakeModifier := ByteCodec.Blob.zero 32
  pprev := some wrapTipPrev

/-- At `wrapTip` the factor is `11 * 120 + 2 * 1200 = 3720`, and over the
integers the new target `T * 3720 / 1560` is above `powLimit`, so the target
should be `powLimit`'s compact form `0x1f7fffff`.  The product wraps modulo
`2 ^ 256` and the code returns `0x1f0b28b0`, about a tenth of the limit. -/
theorem getNextTargetRequired_wraps :
    retargetFactor mainParams wrapTip wrapTipPrev = 3720 ∧
    retargetDivisor mainParams = 1560 ∧
    mainParams.powLimit.toNat < (SetCompact wrapTip.nBits).1.toNat * 3720 / 1560 ∧
    GetCompact mainParams.powLimit false = 0x1f7fffff ∧
    GetNextTargetRequired mainParams (some wrapTip) = 0x1f0b28b0 := by
  refine ⟨by decide, by decide, by decide, by decide, by decide⟩

end Globe
