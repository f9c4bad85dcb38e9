import Globe.Chain.Params

/-!
# Secure-message difficulty

Free secure messages carry a proof of work against a difficulty that stakers
vote on: each coinstake states a compact difficulty, and `ConnectBlock` keeps
it between 1 and `smsg_min_difficulty` and within `smsg_difficulty_max_delta`
of the previous block's.

`GetSmsgDifficulty(chainman, time, verify)` (`validation.cpp`) reads the
difficulty of the latest of the last 180 blocks at or before `time`.  The
sender mines against it lowered by the delta and the verifier checks against it
raised by the delta, both on the raw 32-bit compact value, so that the margin
covers a tip that moves between sending and checking.

Adding to the compact value can carry into its sign bit `0x00800000`, which
`SetCompact` drops from the mantissa: the raised value can then decode to a
much smaller target than the lowered one.  `smsgDifficulty_verify_below_send`
is a chain that `ConnectBlock` accepts where this happens.

The coinstake of a block, and the difficulty it states, are found through the
coinstake cache; `smsgDifficultyOf` stands for that lookup and
`GetSmsgDifficulty` of the coinstake, `none` when either fails.
-/

namespace Globe

variable (params : ChainParams) (smsgDifficultyOf : CBlockIndex → Option UInt32)

/-- The loop of `GetSmsgDifficulty` with `k` of its 180 steps left, at
`pindex`. -/
def smsgDifficultyFrom (time : UInt64) (verify : Bool) : Nat → Option CBlockIndex → UInt32
  | k + 1, some pindex =>
    match (if pindex.nTime.toNat ≤ time.toNat then smsgDifficultyOf pindex else none) with
    | some smsg_difficulty =>
      if verify && smsg_difficulty != params.smsg_min_difficulty then
        smsg_difficulty + params.smsg_difficulty_max_delta
      else smsg_difficulty - params.smsg_difficulty_max_delta
    | none => smsgDifficultyFrom time verify k pindex.pprev
  | _, _ => params.smsg_min_difficulty - params.smsg_difficulty_max_delta

/-- `globe::GetSmsgDifficulty(chainman, time, verify)` from the tip of the
active chain. -/
def GetSmsgDifficulty (tip : Option CBlockIndex) (time : UInt64) (verify : Bool) : UInt32 :=
  smsgDifficultyFrom params smsgDifficultyOf time verify 180 tip

/-- `int(x)` of a `uint32_t`. -/
def uint32ToInt (x : UInt32) : Int := x.toInt32.toInt

/-- The difficulty rules `ConnectBlock` checks for block `pindex` over its
predecessor `pprev`. -/
def connectBlockSmsgDifficultyOk (pindex pprev : CBlockIndex) : Bool :=
  if pindex.nTime < params.smsg_difficulty_time then true
  else
    let smsg_difficulty_prev :=
      if 0 < pprev.nHeight ∧ params.smsg_difficulty_time ≤ pprev.nTime then smsgDifficultyOf pprev
      else some params.smsg_min_difficulty
    match smsg_difficulty_prev, smsgDifficultyOf pindex with
    | some dPrev, some dNew =>
      1 ≤ dNew && dNew ≤ params.smsg_min_difficulty &&
        decide (|uint32ToInt dPrev - uint32ToInt dNew| ≤ uint32ToInt params.smsg_difficulty_max_delta)
    | _, _ => false

/-- Every block of the chain ending at `pindex` passed the difficulty rules. -/
def smsgDifficultyRulesHold : CBlockIndex → Bool
  | ⟨_, _, _, _, none⟩ => true
  | pindex@⟨_, _, _, _, some pprev⟩ =>
    connectBlockSmsgDifficultyOk params smsgDifficultyOf pindex pprev &&
      smsgDifficultyRulesHold pprev

/-! ## A chain whose verification target is below its sending target -/

/-- A chain after the activation time whose coinstakes lower the difficulty by
the full delta at every block, from the minimum. -/
def stepDownChain : Nat → CBlockIndex
  | 0 => ⟨0, mainParams.smsg_difficulty_time, 0, ByteCodec.Blob.zero 32, none⟩
  | k + 1 =>
    ⟨k + 1, mainParams.smsg_difficulty_time + (k + 1 : Nat).toUInt32, 0, ByteCodec.Blob.zero 32,
      some (stepDownChain k)⟩

/-- The difficulty the coinstake of each block of `stepDownChain` states. -/
def stepDownDifficulty (pindex : CBlockIndex) : Option UInt32 :=
  if pindex.nHeight = 0 then none
  else some (mainParams.smsg_min_difficulty -
    pindex.nHeight.toNat.toUInt32 * mainParams.smsg_difficulty_max_delta)

/-- After 129 steps down the tip states `0x1e7f0080`.  The verifier raises it to
`0x1e80007f`, whose mantissa is `0x7f` once the sign bit is dropped; the sender
lowers it to `0x1e7e0081`.  Every message mined against a hash between the two
targets passes the sender's check and fails the verifier's. -/
theorem smsgDifficulty_verify_below_send :
    smsgDifficultyRulesHold mainParams stepDownDifficulty (stepDownChain 129) = true ∧
    GetSmsgDifficulty mainParams stepDownDifficulty (some (stepDownChain 129))
      (stepDownChain 129).nTime.toUInt64 false = 0x1e7e0081 ∧
    GetSmsgDifficulty mainParams stepDownDifficulty (some (stepDownChain 129))
      (stepDownChain 129).nTime.toUInt64 true = 0x1e80007f ∧
    (SetCompact 0x1e80007f).1.toNat = 0x7f * 2 ^ 216 ∧
    (SetCompact 0x1e7e0081).1.toNat = 0x7e0081 * 2 ^ 216 := by
  refine ⟨by decide +kernel, by decide +kernel, by decide +kernel, by decide, by decide⟩

end Globe
