import Globe.Consensus.TxVerify

/-!
# Input checks against the coins view

`consensus/tx_verify.cpp`: `Consensus::CheckTxInputs`, which checks a
transaction against the coins it spends, computes its fee and records its
balances, and `anon.cpp`: `CheckAnonInputMempoolConflicts`, which the mempool
runs on each anon input before it.

`CheckTxInputs` can fail in four ways: it returns false with a reject reason,
it lets the exception of `GetPlainValueOut` or `GetValueOut` escape, it aborts
on the assert that the coin it reads is unspent, or it reaches undefined
behaviour.  `TxInputsFailure` has one constructor for each.  On success it
returns the fee and what it writes to the state.  Both callers give each
transaction a fresh `TxValidationState`, so the balances start at zero and
`m_funds_smsg` false.

The anon and blinded output tables, the node's arguments, the virtual size and
the Pedersen commitment functions of libsecp256k1 are parameters
(`TxInputsEnv`).  The function is cut where the source's comments cut it: the
input loop, the checks on the mix of inputs, the fee tally, the frozen-output
checks, the balances, and the commitment sum.
-/

namespace Globe

open ByteCodec UB

def COINBASE_MATURITY : Int := 100

def MIN_RINGSIZE : Nat := 1
def MAX_RINGSIZE : Nat := 32
def MAX_ANON_INPUTS : Nat := 32

def DEFAULT_ACCEPT_ANON_TX : Bool := false
def DEFAULT_ACCEPT_BLIND_TX : Bool := false

/-! ## Coins, parameters and state -/

/-- A coin of the UTXO set: the value of its `CTxOut`, whether it comes from a
coinbase or coinstake, its height, its output type and, for a CT output, its
commitment. -/
structure Coin where
  nValue : Int64
  fCoinBase : Bool
  nHeight : Nat
  nType : UInt8
  commitment : Blob 33
  deriving DecidableEq

/-- A coins view: the unspent coin at an outpoint, if there is one.
`AccessCoin` of a missing outpoint returns a spent coin. -/
abbrev CCoinsView := COutPoint → Option Coin

/-- `CCoinsViewCache::HaveInputs`: a coinbase passes, and otherwise every
non-anon input has a coin. -/
def HaveInputs (inputs : CCoinsView) (tx : CTransaction) : Bool :=
  tx.IsCoinBase || tx.vin.all fun txin => txin.IsAnonInput || (inputs txin.prevout).isSome

/-- The fields of `Consensus::Params` that `CheckTxInputs` reads. -/
structure ConsensusParams where
  m_frozen_anon_index : Int
  m_frozen_blinded_height : Int
  m_max_tainted_value_out : Int
  m_min_ringsize_post_hf2 : Nat
  m_min_ringsize : Nat
  m_max_ringsize : Nat
  m_max_anon_inputs : Nat
  smsg_fee_funding_tx_per_k : Int

/-- The fields of `TxValidationState` that `CheckTxInputs` reads. -/
structure TxInputsState where
  m_time : Int
  fEnforceSmsgFees : Bool
  m_clamp_tx_version : Bool
  m_exploit_fix_1 : Bool
  m_exploit_fix_2 : Bool
  m_consensus_params : ConsensusParams

/-- What `CheckTxInputs` reads from the node: the anon index tables (the
whitelist takes the time, against `exploit_fix_3_time`), the tainted blinded
outputs, the arguments `-acceptanontxn` and `-acceptblindtxn` when given, the
virtual size, and the commitment and tally functions, with a blinding factor
of 32 bytes. -/
structure TxInputsEnv where
  IsWhitelistedAnonOutput : Int → Int → Bool
  IsBlacklistedAnonOutput : Int → Bool
  IsFrozenBlindOutput : uint256 → Bool
  acceptanontxn : Option Bool
  acceptblindtxn : Option Bool
  GetVirtualTransactionSize : CTransaction → Nat
  pedersenCommit : Bytes → UInt64 → Option (Blob 33)
  pedersenVerifyTally : List (Blob 33) → List (Blob 33) → Bool

/-- `tx_balances`, indexed by `BAL_IND_PLAIN_ADDED` to `BAL_IND_ANON_REMOVED`. -/
structure TxBalances where
  PLAIN_ADDED : Int := 0
  PLAIN_REMOVED : Int := 0
  BLIND_ADDED : Int := 0
  BLIND_REMOVED : Int := 0
  ANON_ADDED : Int := 0
  ANON_REMOVED : Int := 0
  deriving DecidableEq

/-- The three deltas `ConnectBlock` adds to the block's balances, summed. -/
def TxBalances.sum (b : TxBalances) : Int :=
  (b.PLAIN_ADDED - b.PLAIN_REMOVED) + (b.BLIND_ADDED - b.BLIND_REMOVED) +
    (b.ANON_ADDED - b.ANON_REMOVED)

/-- What a successful `CheckTxInputs` leaves: the fee, and what it writes to
the state. -/
structure TxInputsResult where
  txfee : Int
  tx_balances : TxBalances
  m_has_anon_input : Bool
  m_has_anon_output : Bool
  m_spends_frozen_blinded : Bool
  m_funds_smsg : Bool
  m_setHaveKI : List Bytes

/-- How `CheckTxInputs` fails to return true. -/
inductive TxInputsFailure where
  | invalid (reason : String)
  | thrown (what : String)
  | assertFailed
  | undefined (u : Undefined)
  deriving DecidableEq

/-- A read that may be undefined, inside `CheckTxInputs`. -/
def liftDefined {α : Type} (x : Defined α) : Except TxInputsFailure α :=
  x.mapError .undefined

/-- A call that may throw, inside `CheckTxInputs`. -/
def liftThrown {α : Type} (x : Except String α) : Except TxInputsFailure α :=
  x.mapError .thrown

@[simp] theorem liftDefined_ok {α : Type} (a : α) : liftDefined (.ok a : Defined α) = .ok a := rfl
@[simp] theorem liftThrown_ok {α : Type} (a : α) : liftThrown (.ok a : Except String α) = .ok a := rfl

/-- `CFeeRate`. -/
structure CFeeRate where
  nSatoshisPerK : Int

/-- `CFeeRate::GetFee(num_bytes)`: the rate times the size over 1000, rounded
up, and one unit of the rate's sign when that rounds to zero.  The product is
an `int64_t`; the source divides it by 1000.0 in double, which is exact below
`2 ^ 53`, and the model divides exactly. -/
def CFeeRate.GetFee (r : CFeeRate) (num_bytes : UInt32) : Defined Int := do
  let nSize : Int := num_bytes.toNat
  let p ← mulInt64 r.nSatoshisPerK nSize
  let nFee := -(-p / 1000)
  if nFee = 0 ∧ nSize ≠ 0 then
    pure (if 0 < r.nSatoshisPerK then 1 else if r.nSatoshisPerK < 0 then -1 else 0)
  else pure nFee

/-! ## The input loop -/

/-- The variables the input loop of `CheckTxInputs` updates. -/
structure InputTally where
  nStandard : Nat := 0
  nCt : Nat := 0
  nRingCTInputs : Nat := 0
  nRCTPrevouts : Nat := 0
  nValueIn : Int := 0
  vpCommitsIn : List (Blob 33) := []
  min_ring_size_count : Nat
  max_ring_size_count : Nat
  m_has_anon_input : Bool := false
  m_spends_frozen_blinded : Bool := false
  spends_tainted_blinded : Bool := false
  spends_post_fork_blinded : Bool := false
  m_setHaveKI : List Bytes := []

/-- The tally before the first input: the ring-size bounds start crossed. -/
def InputTally.init (params : ConsensusParams) : InputTally :=
  { min_ring_size_count := params.m_max_ringsize, max_ring_size_count := params.m_min_ringsize }

section Inputs

variable (env : TxInputsEnv) (state : TxInputsState)

/-- One ring member of an anon input: its index is the varint of `vMI` at
`ofs`, and `nB`, the length `GetVarInt` reports, carries over from the
member before. -/
def ringMember (vMI : Bytes) (ofs nB : Nat) (t : InputTally) :
    Except TxInputsFailure (Nat × Nat × InputTally) := do
  let t := { t with nRCTPrevouts := t.nRCTPrevouts + 1 }
  let (rv, i, nB) ← liftDefined (part.GetVarInt vMI ofs 0 nB)
  if rv ≠ 0 then throw (.invalid "bad-anonin-extract-i")
  let nIndex := i.toInt64.toInt
  if nIndex ≤ state.m_consensus_params.m_frozen_anon_index then
    let t := { t with
      m_spends_frozen_blinded := true
      spends_tainted_blinded :=
        t.spends_tainted_blinded || !env.IsWhitelistedAnonOutput nIndex state.m_time }
    if state.m_exploit_fix_2 && env.IsBlacklistedAnonOutput nIndex then
      throw (.invalid "bad-txns-frozen-blinded-blacklisted")
    pure (ofs + nB, nB, t)
  else pure (ofs + nB, nB, { t with spends_post_fork_blinded := true })

/-- The `n` remaining members of a ring. -/
def ringMembers (vMI : Bytes) : Nat → Nat → Nat → InputTally →
    Except TxInputsFailure (Nat × Nat × InputTally)
  | 0, ofs, nB, t => pure (ofs, nB, t)
  | n + 1, ofs, nB, t => do
    let (ofs, nB, t) ← ringMember env state vMI ofs nB t
    ringMembers vMI n ofs nB t

/-- The `n` remaining key images of an anon input, from the `k`-th: each is
the 33 bytes at `33 * k`, must be new to the transaction, and is followed by
its ring. -/
def anonKeyImages (vKeyImages vMI : Bytes) (nRingSize : Nat) : Nat → Nat → Nat → Nat →
    InputTally → Except TxInputsFailure InputTally
  | 0, _, _, _, t => pure t
  | n + 1, k, ofs, nB, t => do
    let ki ← liftDefined (window vKeyImages (k * 33) 33)
    if ki ∈ t.m_setHaveKI then throw (.invalid "bad-anonin-dup-ki")
    let (ofs, nB, t) ← ringMembers env state vMI nRingSize ofs nB
      { t with m_setHaveKI := ki :: t.m_setHaveKI }
    anonKeyImages vKeyImages vMI nRingSize n (k + 1) ofs nB t

/-- An anon input.  The key images and the ring indices are the first
elements of its two stacks, which the source takes before any check. -/
def checkAnonInput (txin : CTxIn) (t : InputTally) : Except TxInputsFailure InputTally := do
  let t := { t with m_has_anon_input := true, nRingCTInputs := t.nRingCTInputs + 1 }
  let vKeyImages ← liftDefined (index txin.scriptData.stack 0)
  let vMI ← liftDefined (index txin.scriptWitness.stack 0)
  let nInputs := txin.GetAnonInfo.1.toNat
  let nRingSize := txin.GetAnonInfo.2.toNat
  let params := state.m_consensus_params
  if nInputs < 1 || params.m_max_anon_inputs < nInputs then
    throw (.invalid "bad-anon-num-inputs")
  if nRingSize < params.m_min_ringsize || params.m_max_ringsize < nRingSize then
    throw (.invalid "bad-anon-ringsize")
  let t := { t with
    min_ring_size_count := min t.min_ring_size_count nRingSize
    max_ring_size_count := max t.max_ring_size_count nRingSize }
  anonKeyImages env state vKeyImages vMI nRingSize nInputs 0 0 0 t

/-- The value a plain coin adds to `nValueIn`, in both transaction families. -/
def addValueIn (t : InputTally) (coin : Coin) : Except TxInputsFailure Int := do
  let nValueIn ← liftDefined (addInt64 t.nValueIn coin.nValue.toInt)
  if !MoneyRange coin.nValue.toInt || !MoneyRange nValueIn then
    throw (.invalid "bad-txns-inputvalues-outofrange")
  pure nValueIn

/-- A coinbase or coinstake coin must have matured, and a Globe transaction
scales the required depth in at the start of the chain. -/
def checkMaturity (is_globe_tx : Bool) (nSpendHeight : Nat) (coin : Coin) :
    Except TxInputsFailure Unit :=
  if coin.fCoinBase && (nSpendHeight : Int) - coin.nHeight < COINBASE_MATURITY then
    if is_globe_tx then
      let nRequiredDepth : Int := min COINBASE_MATURITY (coin.nHeight / 2 : Nat)
      if (nSpendHeight : Int) - coin.nHeight < nRequiredDepth then
        .error (.invalid "bad-txns-premature-spend-of-coinbase")
      else .ok ()
    else .error (.invalid "bad-txns-premature-spend-of-coinbase")
  else .ok ()

/-- A non-anon input and the coin it spends.  A Globe transaction spends
standard and CT coins only. -/
def checkCoinInput (is_globe_tx : Bool) (nSpendHeight : Nat) (prevout : COutPoint) (coin : Coin)
    (t : InputTally) : Except TxInputsFailure InputTally := do
  checkMaturity is_globe_tx nSpendHeight coin
  if is_globe_tx then
    if coin.nType = OUTPUT_STANDARD then
      let nValueIn ← addValueIn t coin
      pure { t with nValueIn := nValueIn, nStandard := t.nStandard + 1 }
    else if coin.nType = OUTPUT_CT then
      let t := { t with vpCommitsIn := t.vpCommitsIn ++ [coin.commitment], nCt := t.nCt + 1 }
      if (coin.nHeight : Int) ≤ state.m_consensus_params.m_frozen_blinded_height then
        pure { t with
          m_spends_frozen_blinded := true
          spends_tainted_blinded := t.spends_tainted_blinded || env.IsFrozenBlindOutput prevout.hash }
      else pure { t with spends_post_fork_blinded := true }
    else throw (.invalid "bad-txns-input-type")
  else
    let nValueIn ← addValueIn t coin
    pure { t with nValueIn := nValueIn }

/-- One pass of the input loop.  `AccessCoin` of an outpoint without a coin
gives a spent coin, and the assert after it fails. -/
def checkTxInput (is_globe_tx : Bool) (inputs : CCoinsView) (nSpendHeight : Nat) (t : InputTally)
    (txin : CTxIn) : Except TxInputsFailure InputTally :=
  if txin.IsAnonInput then checkAnonInput env state txin t
  else
    match inputs txin.prevout with
    | none => .error .assertFailed
    | some coin => checkCoinInput env state is_globe_tx nSpendHeight txin.prevout coin t

end Inputs

/-! ## After the loop -/

section Rest

variable (env : TxInputsEnv) (state : TxInputsState)

/-- The checks on what the loop found: frozen and post-fork blinded inputs do
not mix, frozen anon inputs have rings of one, post-fork rings are large
enough, and the inputs are of one kind. -/
def checkInputMix (t : InputTally) : Except TxInputsFailure Unit := do
  if state.m_exploit_fix_2 then
    if t.m_spends_frozen_blinded && t.spends_post_fork_blinded then
      throw (.invalid "mixed-frozen-blinded")
    if t.m_spends_frozen_blinded && 1 < t.max_ring_size_count then
      throw (.invalid "bad-frozen-ringsize")
  if t.spends_post_fork_blinded &&
      t.min_ring_size_count < state.m_consensus_params.m_min_ringsize_post_hf2 then
    throw (.invalid "bad-anon-ringsize")
  if 1 < (if 0 < t.nStandard then 1 else 0) + (if 0 < t.nCt then 1 else 0) +
      (if 0 < t.nRingCTInputs then 1 else 0) then
    throw (.invalid "mixed-input-types")

/-- The fee of a Globe transaction that is not a coinstake: stated in the fee
output when anything is blinded, the plain difference otherwise. -/
def statedFee (tx : CTransaction) (nValueIn nPlainValueOut : Int) (nCt nRingCT : Nat) :
    Except TxInputsFailure Int :=
  if 0 < nCt || 0 < nRingCT then do
    match ← liftDefined tx.GetCTFee with
    | none => throw (.invalid "bad-fee-output")
    | some nFee => pure nFee.toInt
  else if nValueIn < nPlainValueOut then .error (.invalid "bad-txns-in-belowout")
  else .ok (nValueIn - nPlainValueOut)

/-- The fee tally of a Globe transaction that is not a coinstake.  Funding
messages raises the fee it must pay. -/
def tallyGlobeFee (tx : CTransaction) (nValueIn nPlainValueOut : Int) (nCt nRingCT : Nat) :
    Except TxInputsFailure (Int × Bool) := do
  let txfee ← statedFee tx nValueIn nPlainValueOut nCt nRingCT
  if txfee < 0 then throw (.invalid "bad-txns-fee-negative")
  -- `nFees` is 0 before it adds the fee
  if !MoneyRange txfee then throw (.invalid "bad-txns-fee-outofrange")
  let nTotalMsgFees := tx.GetTotalSMSGFees
  if 0 < nTotalMsgFees then
    let nTxBytes := env.GetVirtualTransactionSize tx
    let fundingTxnFeeRate : CFeeRate := ⟨state.m_consensus_params.smsg_fee_funding_tx_per_k⟩
    let nFee ← liftDefined (fundingTxnFeeRate.GetFee (UInt32.ofNat nTxBytes))
    if txfee < nTotalMsgFees + nFee && state.fEnforceSmsgFees then
      throw (.invalid "bad-txns-fee-smsg")
    pure (txfee, true)
  else pure (txfee, false)

/-- The fee and whether the transaction funds messages.  A coinstake returns
its reward, and a Bitcoin transaction the difference to `GetValueOut`.
`nRingCT` counts RingCT inputs and outputs together. -/
def tallyFee (tx : CTransaction) (nValueIn nPlainValueOut : Int) (nCt nRingCT : Nat) :
    Except TxInputsFailure (Int × Bool) :=
  if tx.IsGlobeVersion then
    if !tx.IsCoinStake then tallyGlobeFee env state tx nValueIn nPlainValueOut nCt nRingCT
    else if 0 < nCt || 0 < nRingCT then .error (.invalid "bad-coinstake-output")
    else .ok (nPlainValueOut - nValueIn, false)
  else do
    let nValueOut ← liftThrown tx.GetValueOut
    if nValueIn < nValueOut then throw (.invalid "bad-txns-in-belowout")
    let txfee := nValueIn - nValueOut
    if !MoneyRange txfee then throw (.invalid "bad-txns-fee-outofrange")
    pure (txfee, false)

/-- A transaction that spends frozen blinded outputs creates no blinded
outputs, and a tainted one stays under the limit. -/
def checkFrozenOutputs (t : InputTally) (nPlainValueOut txfee : Int) (nCTOutputs nRingCTOutputs : Nat) :
    Except TxInputsFailure Unit := do
  if state.m_exploit_fix_2 && t.m_spends_frozen_blinded then
    if 0 < nRingCTOutputs || 0 < nCTOutputs then throw (.invalid "bad-txns-frozen-blinded-out")
    if t.spends_tainted_blinded &&
        state.m_consensus_params.m_max_tainted_value_out < nPlainValueOut + txfee then
      throw (.invalid "bad-txns-frozen-blinded-too-large")

/-- The balances recorded for the block: the plain value in and out, what
blinded inputs remove (unless they are frozen), and what a plain input puts
into blinded outputs. -/
def recordBalances (t : InputTally) (nCTOutputs nRingCTOutputs : Nat) (nPlainValueOut txfee : Int) :
    TxBalances :=
  let b : TxBalances := { PLAIN_ADDED := nPlainValueOut, PLAIN_REMOVED := t.nValueIn }
  let b :=
    if !state.m_exploit_fix_2 || !t.m_spends_frozen_blinded then
      if 0 < t.nRingCTInputs then { b with ANON_REMOVED := nPlainValueOut + txfee }
      else if 0 < t.nCt then { b with BLIND_REMOVED := nPlainValueOut + txfee }
      else b
    else b
  let b :=
    if 0 < nRingCTOutputs && 0 < t.nValueIn then
      { b with ANON_ADDED := t.nValueIn - (nPlainValueOut + txfee) }
    else b
  if 0 < nCTOutputs && 0 < t.nValueIn then
    { b with BLIND_ADDED := t.nValueIn - (nPlainValueOut + txfee) }
  else b

/-- The blinding factor of the plain output of a frozen spend: the 32 bytes
after `DO_MASK` in the fee output, which follows the fee's varint. -/
def frozenBlindingFactor (tx : CTransaction) : Except TxInputsFailure Bytes := do
  let o ← liftDefined (index tx.vpout 0)
  -- `GetPData` of an output without data is a null pointer
  let some vData := o.GetPData | throw (.undefined .outOfBounds)
  let (rv, _, nb) ← liftDefined (part.GetVarInt vData 1 0 0)
  if rv ≠ 0 || vData.length < 1 + nb + 33 then throw (.invalid "bad-txns-frozen-bf")
  if (← liftDefined (index vData (1 + nb))) ≠ DO_MASK then throw (.invalid "bad-txns-frozen-bf")
  liftDefined (window vData (1 + nb + 1) 32)

/-- The commitment sum of a transaction that spends plain or CT inputs and
creates blinded outputs: the plain values in and out, as commitments, make
the input and output commitments balance. -/
def checkCommitments (tx : CTransaction) (t : InputTally) (nPlainValueOut txfee : Int)
    (nCt nRingCTOutputs : Nat) : Except TxInputsFailure Unit := do
  if (0 < nCt || 0 < nRingCTOutputs) && t.nRingCTInputs = 0 then
    let default_accept_anon := if state.m_exploit_fix_2 then true else DEFAULT_ACCEPT_ANON_TX
    let default_accept_blind := if state.m_exploit_fix_2 then true else DEFAULT_ACCEPT_BLIND_TX
    if state.m_exploit_fix_1 && 0 < nRingCTOutputs && !env.acceptanontxn.getD default_accept_anon then
      throw (.invalid "bad-txns-anon-disabled")
    if state.m_exploit_fix_1 && 0 < nCt && !env.acceptblindtxn.getD default_accept_blind then
      throw (.invalid "bad-txns-blind-disabled")
    -- the source returns true here, to match the bugged path of early blocks
    if !state.m_exploit_fix_1 && nCt = 0 then return
    let nPlainValueOut := nPlainValueOut + txfee
    if !MoneyRange nPlainValueOut then throw (.invalid "bad-txns-out-outofrange")
    if !MoneyRange t.nValueIn then throw (.invalid "bad-txns-inputvalues-outofrange")
    let blindZero : Bytes := List.replicate 32 0
    let vpCommitsIn ← if 0 < t.nValueIn then do
        let some c := env.pedersenCommit blindZero (UInt64.ofInt t.nValueIn)
          | throw (.invalid "commit-failed")
        pure (t.vpCommitsIn ++ [c])
      else pure t.vpCommitsIn
    let plainOut ← if 0 < nPlainValueOut then do
        let blindPlain ← if state.m_exploit_fix_2 && t.m_spends_frozen_blinded then
            frozenBlindingFactor tx
          else pure blindZero
        let some c := env.pedersenCommit blindPlain (UInt64.ofInt nPlainValueOut)
          | throw (.invalid "commit-failed")
        pure [c]
      else pure []
    let vpCommitsOut := plainOut ++ tx.vpout.filterMap CTxOutBase.GetPCommitment
    if !env.pedersenVerifyTally vpCommitsIn vpCommitsOut then
      throw (.invalid "bad-commitment-sum")

end Rest

/-- `Consensus::CheckTxInputs(tx, state, inputs, nSpendHeight, txfee)`. -/
def CheckTxInputs (env : TxInputsEnv) (state : TxInputsState) (tx : CTransaction)
    (inputs : CCoinsView) (nSpendHeight : Nat) : Except TxInputsFailure TxInputsResult := do
  let is_globe_tx := tx.IsGlobeVersion
  if is_globe_tx && tx.vin.isEmpty then throw (.invalid "bad-txn-no-inputs")
  if !HaveInputs inputs tx then throw (.invalid "bad-txns-inputs-missingorspent")
  let t ← tx.vin.foldlM (checkTxInput env state is_globe_tx inputs nSpendHeight)
    (InputTally.init state.m_consensus_params)
  checkInputMix state t
  let (nPlainValueOut, _, nCTOutputs, nRingCTOutputs) ← liftThrown (tx.GetPlainValueOut t.nStandard 0 0)
  let nCt := t.nCt + nCTOutputs
  let (txfee, m_funds_smsg) ←
    tallyFee env state tx t.nValueIn nPlainValueOut nCt (t.nRingCTInputs + nRingCTOutputs)
  checkFrozenOutputs state t nPlainValueOut txfee nCTOutputs nRingCTOutputs
  let tx_balances := recordBalances state t nCTOutputs nRingCTOutputs nPlainValueOut txfee
  if state.m_clamp_tx_version && 0 < t.nValueIn && 0 < nRingCTOutputs && 0 < nCTOutputs then
    throw (.invalid "bad-txns-plain-in-mixed-out")
  checkCommitments env state tx t nPlainValueOut txfee nCt nRingCTOutputs
  pure {
    txfee, tx_balances, m_funds_smsg
    m_has_anon_input := t.m_has_anon_input
    m_has_anon_output := 0 < nRingCTOutputs
    m_spends_frozen_blinded := t.m_spends_frozen_blinded
    m_setHaveKI := t.m_setHaveKI }

/-! ## What each check establishes

One lemma per check says what its success gives; the theorems about whole
runs use these and never unfold the checks again. -/

@[simp] theorem liftDefined_eq_ok {α : Type} {x : Defined α} {a : α} :
    liftDefined x = .ok a ↔ x = .ok a :=
  mapError_eq_ok

@[simp] theorem liftThrown_eq_ok {α : Type} {x : Except String α} {a : α} :
    liftThrown x = .ok a ↔ x = .ok a :=
  mapError_eq_ok

/-- The plain value and the input counts of a tally, which the fee and the
balances are computed from. -/
def InputTally.counts (t : InputTally) : Int × Nat × Nat × Nat :=
  (t.nValueIn, t.nStandard, t.nCt, t.nRingCTInputs)

section Steps

variable {env : TxInputsEnv} {state : TxInputsState}

theorem ringMember_counts {vMI : Bytes} {ofs nB : Nat} {t : InputTally}
    {r : Nat × Nat × InputTally} (h : ringMember env state vMI ofs nB t = .ok r) :
    r.2.2.counts = t.counts := by
  unfold ringMember at h
  obtain ⟨⟨rv, i, nB'⟩, -, hrest⟩ := bind_eq_ok h
  dsimp only at hrest
  split at hrest
  · cases hrest
  · split at hrest
    · split at hrest
      · cases hrest
      · cases hrest
        rfl
    · cases hrest
      rfl

theorem ringMembers_counts {vMI : Bytes} :
    ∀ {n ofs nB : Nat} {t : InputTally} {r : Nat × Nat × InputTally},
      ringMembers env state vMI n ofs nB t = .ok r → r.2.2.counts = t.counts
  | 0, _, _, _, _, h => by
    cases h
    rfl
  | n + 1, ofs, nB, t, r, h => by
    obtain ⟨⟨ofs', nB', t'⟩, hmember, hrest⟩ := bind_eq_ok h
    rw [ringMembers_counts hrest, ringMember_counts hmember]

theorem anonKeyImages_counts {vKeyImages vMI : Bytes} {nRingSize : Nat} :
    ∀ {n k ofs nB : Nat} {t r : InputTally},
      anonKeyImages env state vKeyImages vMI nRingSize n k ofs nB t = .ok r → r.counts = t.counts
  | 0, _, _, _, _, _, h => by
    cases h
    rfl
  | n + 1, k, ofs, nB, t, r, h => by
    obtain ⟨ki, -, hrest⟩ := bind_eq_ok h
    dsimp only at hrest
    split at hrest
    · cases hrest
    · obtain ⟨⟨ofs', nB', t'⟩, hring, hnext⟩ := bind_eq_ok hrest
      rw [anonKeyImages_counts hnext, ringMembers_counts hring]
      rfl

/-- An anon input is counted, and adds no plain value. -/
theorem checkAnonInput_counts {txin : CTxIn} {t r : InputTally}
    (h : checkAnonInput env state txin t = .ok r) :
    r.counts = (t.nValueIn, t.nStandard, t.nCt, t.nRingCTInputs + 1) := by
  unfold checkAnonInput at h
  obtain ⟨vKeyImages, -, h⟩ := bind_eq_ok h
  obtain ⟨vMI, -, h⟩ := bind_eq_ok h
  dsimp only at h
  split at h
  · cases h
  · split at h
    · cases h
    · rw [anonKeyImages_counts h]
      rfl

theorem addValueIn_eq_ok {t : InputTally} {coin : Coin} {v : Int} (h : addValueIn t coin = .ok v) :
    v = t.nValueIn + coin.nValue.toInt ∧ MoneyRange v = true := by
  unfold addValueIn at h
  obtain ⟨s, hs, hrest⟩ := bind_eq_ok h
  dsimp only at hrest
  split at hrest
  · cases hrest
  · next hrange =>
    cases hrest
    simp only [Bool.or_eq_true, Bool.not_eq_true', not_or, Bool.not_eq_false] at hrange
    exact ⟨eq_of_int64Result_eq_ok (liftDefined_eq_ok.mp hs), hrange.2⟩

/-- A Globe transaction's non-anon input spends a standard coin, whose value
joins `nValueIn` within the money range, or a CT coin. -/
theorem checkCoinInput_globe {nSpendHeight : Nat} {prevout : COutPoint} {coin : Coin}
    {t r : InputTally} (h : checkCoinInput env state true nSpendHeight prevout coin t = .ok r) :
    (coin.nType = OUTPUT_STANDARD ∧
      r.counts = (t.nValueIn + coin.nValue.toInt, t.nStandard + 1, t.nCt, t.nRingCTInputs) ∧
      MoneyRange r.nValueIn = true) ∨
    (coin.nType = OUTPUT_CT ∧ r.counts = (t.nValueIn, t.nStandard, t.nCt + 1, t.nRingCTInputs)) := by
  unfold checkCoinInput at h
  obtain ⟨-, -, h⟩ := bind_eq_ok h
  simp only [if_true] at h
  split at h
  · next hstd =>
    obtain ⟨v, hv, hr⟩ := bind_eq_ok h
    cases hr
    obtain ⟨rfl, hrange⟩ := addValueIn_eq_ok hv
    exact .inl ⟨hstd, rfl, hrange⟩
  · split at h
    · next hct =>
      refine .inr ⟨hct, ?_⟩
      -- frozen or not, only the flags change
      split at h <;> (cases h; rfl)
    · cases h

/-- The inputs are of one kind: an anon input rules out the others, and a CT
input rules out standard ones. -/
theorem checkInputMix_eq_ok {t : InputTally} (h : checkInputMix state t = .ok ()) :
    (0 < t.nRingCTInputs → t.nStandard = 0 ∧ t.nCt = 0) ∧ (0 < t.nCt → t.nStandard = 0) := by
  unfold checkInputMix at h
  dsimp only at h
  have hkinds : ¬1 < (if 0 < t.nStandard then 1 else 0) + (if 0 < t.nCt then 1 else 0) +
      (if 0 < t.nRingCTInputs then 1 else 0) := by
    intro hmixed
    repeat' split at h
    all_goals cases h
  constructor
  · intro hanon
    constructor <;> (by_contra hne; apply hkinds; split_ifs <;> omega)
  · intro hct
    by_contra hne
    apply hkinds
    split_ifs <;> omega

/-- With nothing blinded, the fee is the plain difference. -/
theorem statedFee_of_plain {tx : CTransaction} {nValueIn nPlainValueOut txfee : Int}
    (h : statedFee tx nValueIn nPlainValueOut 0 0 = .ok txfee) :
    txfee = nValueIn - nPlainValueOut := by
  unfold statedFee at h
  simp only [Nat.lt_irrefl, decide_false, Bool.or_false, Bool.false_eq_true, if_false] at h
  split at h
  · cases h
  · exact (Except.ok.inj h).symm

/-- The fee of a Globe transaction that is not a coinstake is in the money
range, is the plain difference when nothing is blinded, and, where message
fees are enforced, covers the funded messages and the funding transaction's
own fee. -/
theorem tallyGlobeFee_eq_ok {tx : CTransaction} {nValueIn nPlainValueOut : Int} {nCt nRingCT : Nat}
    {txfee : Int} {m_funds_smsg : Bool}
    (h : tallyGlobeFee env state tx nValueIn nPlainValueOut nCt nRingCT = .ok (txfee, m_funds_smsg)) :
    0 ≤ txfee ∧ txfee ≤ MAX_MONEY ∧
      (nCt = 0 → nRingCT = 0 → txfee = nValueIn - nPlainValueOut) ∧
      (state.fEnforceSmsgFees = true → 0 < tx.GetTotalSMSGFees →
        ∃ nFee, CFeeRate.GetFee ⟨state.m_consensus_params.smsg_fee_funding_tx_per_k⟩
            (UInt32.ofNat (env.GetVirtualTransactionSize tx)) = .ok nFee ∧
          tx.GetTotalSMSGFees + nFee ≤ txfee) := by
  unfold tallyGlobeFee at h
  obtain ⟨fee, hfee, h⟩ := bind_eq_ok h
  dsimp only at h
  split at h
  · cases h
  · next hneg =>
    split at h
    · cases h
    · next hrange =>
      have hmoney : 0 ≤ fee ∧ fee ≤ MAX_MONEY := by
        simpa only [Bool.not_eq_true', Bool.not_eq_false, moneyRange_iff] using hrange
      split at h
      · next hmsg =>
        obtain ⟨nFee, hnFee, h⟩ := bind_eq_ok h
        split at h
        · cases h
        · next hcover =>
          cases h
          refine ⟨hmoney.1, hmoney.2, fun hct hrct => statedFee_of_plain (hct ▸ hrct ▸ hfee),
            fun henforce _ => ⟨nFee, liftDefined_eq_ok.mp hnFee, ?_⟩⟩
          simp only [henforce, Bool.and_true, decide_eq_true_eq] at hcover
          omega
      · next hmsg =>
        cases h
        exact ⟨hmoney.1, hmoney.2, fun hct hrct => statedFee_of_plain (hct ▸ hrct ▸ hfee),
          fun _ hpos => absurd hpos hmsg⟩

theorem tallyFee_of_not_coinStake {tx : CTransaction} (hglobe : tx.IsGlobeVersion = true)
    (hcs : tx.IsCoinStake = false) (nValueIn nPlainValueOut : Int) (nCt nRingCT : Nat) :
    tallyFee env state tx nValueIn nPlainValueOut nCt nRingCT =
      tallyGlobeFee env state tx nValueIn nPlainValueOut nCt nRingCT := by
  simp [tallyFee, hglobe, hcs]

/-- A coinstake returns its reward, and has nothing blinded. -/
theorem tallyFee_coinStake {tx : CTransaction} (hglobe : tx.IsGlobeVersion = true)
    (hcs : tx.IsCoinStake = true) {nValueIn nPlainValueOut : Int} {nCt nRingCT : Nat}
    {txfee : Int} {m_funds_smsg : Bool}
    (h : tallyFee env state tx nValueIn nPlainValueOut nCt nRingCT = .ok (txfee, m_funds_smsg)) :
    txfee = nPlainValueOut - nValueIn ∧ nCt = 0 ∧ nRingCT = 0 := by
  simp only [tallyFee, hglobe, hcs, if_true, Bool.not_true, Bool.false_eq_true, if_false] at h
  split at h
  · cases h
  · next hblind =>
    simp only [Bool.or_eq_true, decide_eq_true_eq, not_or, Nat.not_lt, Nat.le_zero] at hblind
    cases h
    exact ⟨rfl, hblind⟩

end Steps

/-! ## The balances -/

section Balances

variable (state : TxInputsState) (t : InputTally) (nCTOutputs nRingCTOutputs : Nat)
  (nPlainValueOut txfee : Int)

/-- The sum of the recorded deltas, when the inputs are not frozen: the plain
difference, less what blinded inputs remove, plus what a plain input puts into
each kind of blinded output. -/
theorem recordBalances_sum (hfrozen : state.m_exploit_fix_2 = false ∨ t.m_spends_frozen_blinded = false) :
    (recordBalances state t nCTOutputs nRingCTOutputs nPlainValueOut txfee).sum =
      nPlainValueOut - t.nValueIn -
        (if 0 < t.nRingCTInputs ∨ 0 < t.nCt then nPlainValueOut + txfee else 0) +
        (if 0 < nRingCTOutputs ∧ 0 < t.nValueIn then t.nValueIn - (nPlainValueOut + txfee) else 0) +
        (if 0 < nCTOutputs ∧ 0 < t.nValueIn then t.nValueIn - (nPlainValueOut + txfee) else 0) := by
  have hunfrozen : (!state.m_exploit_fix_2 || !t.m_spends_frozen_blinded) = true := by
    rcases hfrozen with h | h <;> simp [h]
  simp only [recordBalances, hunfrozen, if_true, Bool.and_eq_true, decide_eq_true_eq]
  split_ifs <;> simp only [TxBalances.sum] <;> omega

/-- Without CT inputs or outputs the blind deltas stay zero. -/
theorem recordBalances_blind (hin : t.nCt = 0) (hout : nCTOutputs = 0) :
    (recordBalances state t nCTOutputs nRingCTOutputs nPlainValueOut txfee).BLIND_ADDED = 0 ∧
      (recordBalances state t nCTOutputs nRingCTOutputs nPlainValueOut txfee).BLIND_REMOVED = 0 := by
  simp only [recordBalances, hin, hout, Nat.lt_irrefl, decide_false, Bool.false_and,
    Bool.false_eq_true, if_false]
  split_ifs <;> simp

/-- Without anon inputs or RingCT outputs the anon deltas stay zero. -/
theorem recordBalances_anon (hin : t.nRingCTInputs = 0) (hout : nRingCTOutputs = 0) :
    (recordBalances state t nCTOutputs nRingCTOutputs nPlainValueOut txfee).ANON_ADDED = 0 ∧
      (recordBalances state t nCTOutputs nRingCTOutputs nPlainValueOut txfee).ANON_REMOVED = 0 := by
  simp only [recordBalances, hin, hout, Nat.lt_irrefl, decide_false, Bool.false_and,
    Bool.false_eq_true, if_false]
  split_ifs <;> simp

end Balances

/-! ## A successful run -/

/-- What a successful `CheckTxInputs` went through: the input loop, each check
after it, and the result it assembles. -/
theorem checkTxInputs_eq_ok {env : TxInputsEnv} {state : TxInputsState} {tx : CTransaction}
    {inputs : CCoinsView} {nSpendHeight : Nat} {r : TxInputsResult}
    (h : CheckTxInputs env state tx inputs nSpendHeight = .ok r) :
    ∃ t nPlainValueOut nStandard nCTOutputs nRingCTOutputs txfee m_funds_smsg,
      tx.vin.foldlM (checkTxInput env state tx.IsGlobeVersion inputs nSpendHeight)
        (InputTally.init state.m_consensus_params) = .ok t ∧
      checkInputMix state t = .ok () ∧
      tx.GetPlainValueOut t.nStandard 0 0 = .ok (nPlainValueOut, nStandard, nCTOutputs, nRingCTOutputs) ∧
      tallyFee env state tx t.nValueIn nPlainValueOut (t.nCt + nCTOutputs)
        (t.nRingCTInputs + nRingCTOutputs) = .ok (txfee, m_funds_smsg) ∧
      checkFrozenOutputs state t nPlainValueOut txfee nCTOutputs nRingCTOutputs = .ok () ∧
      ¬(state.m_clamp_tx_version = true ∧ 0 < t.nValueIn ∧ 0 < nRingCTOutputs ∧ 0 < nCTOutputs) ∧
      checkCommitments env state tx t nPlainValueOut txfee (t.nCt + nCTOutputs) nRingCTOutputs = .ok () ∧
      r = { txfee, m_funds_smsg
            tx_balances := recordBalances state t nCTOutputs nRingCTOutputs nPlainValueOut txfee
            m_has_anon_input := t.m_has_anon_input
            m_has_anon_output := 0 < nRingCTOutputs
            m_spends_frozen_blinded := t.m_spends_frozen_blinded
            m_setHaveKI := t.m_setHaveKI } := by
  unfold CheckTxInputs at h
  dsimp only at h
  split at h
  · cases h
  · split at h
    · cases h
    · obtain ⟨t, hloop, h⟩ := bind_eq_ok h
      obtain ⟨⟨⟩, hmix, h⟩ := bind_eq_ok h
      obtain ⟨⟨nPlainValueOut, nStandard, nCTOutputs, nRingCTOutputs⟩, hout, h⟩ := bind_eq_ok h
      obtain ⟨⟨txfee, m_funds_smsg⟩, hfee, h⟩ := bind_eq_ok h
      obtain ⟨⟨⟩, hfrozen, h⟩ := bind_eq_ok h
      dsimp only at h
      split at h
      · cases h
      · next hclamp =>
        obtain ⟨⟨⟩, hcommit, h⟩ := bind_eq_ok h
        cases h
        simp only [Bool.and_eq_true, decide_eq_true_eq] at hclamp
        exact ⟨t, nPlainValueOut, nStandard, nCTOutputs, nRingCTOutputs, txfee, m_funds_smsg,
          hloop, hmix, liftThrown_eq_ok.mp hout, hfee, hfrozen, fun hc => hclamp ⟨⟨⟨hc.1, hc.2.1⟩,
            hc.2.2.1⟩, hc.2.2.2⟩, hcommit, rfl⟩

/-- `CheckAnonInputMempoolConflicts(txin, txhash, pmempool, state)`, with the
mempool's key-image index as `HaveKeyImage`: the transaction that spends a key
image, if any. -/
def CheckAnonInputMempoolConflicts (HaveKeyImage : Bytes → Option uint256) (txin : CTxIn)
    (txhash : uint256) : Except TxInputsFailure Unit := do
  let nInputs := txin.GetAnonInfo.1.toNat
  let nRingSize := txin.GetAnonInfo.2.toNat
  if nInputs < 1 || MAX_ANON_INPUTS < nInputs then throw (.invalid "bad-anon-num-inputs")
  if nRingSize < MIN_RINGSIZE || MAX_RINGSIZE < nRingSize then throw (.invalid "bad-anon-ringsize")
  if txin.scriptData.stack.length ≠ 1 then throw (.invalid "bad-anonin-dstack-size")
  let vKeyImages ← liftDefined (index txin.scriptData.stack 0)
  if vKeyImages.length ≠ nInputs * 33 then throw (.invalid "bad-anonin-keyimages-size")
  (List.range nInputs).forM fun k => do
    let ki ← liftDefined (window vKeyImages (k * 33) 33)
    if (HaveKeyImage ki).any (· != txhash) then throw (.invalid "bad-anonin-dup-ki")

/-! ## The first reads of an anon input

The anon branch takes the first element of each stack before it looks at
anything else, and nothing before `CheckTxInputs` on the block path checks the
stacks: `CheckTransaction` skips anon inputs.  The mempool's check of an anon
input looks at `scriptData` and not at `scriptWitness`. -/

/-- An anon input with one key image and a ring of one, and the given stacks. -/
def anonInput (scriptData scriptWitness : List Bytes) : CTxIn :=
  ⟨⟨⟨[1, 0, 0, 0, 1, 0, 0, 0] ++ List.replicate 24 0, rfl⟩, COutPoint.ANON_MARKER⟩, [], 0,
    ⟨scriptData⟩, ⟨scriptWitness⟩⟩

/-- A Globe transaction spending one input into one standard output of 0. -/
def anonSpendTx (txin : CTxIn) : CTransaction :=
  ⟨[txin], [], [.standard ⟨0, []⟩], 0xA0, 0⟩

theorem checkTxInputs_reads_empty_stacks :
    CheckTransaction sampleCheckTxEnv sampleTxState (anonSpendTx (anonInput [] [])) = .ok () ∧
      CheckGlobeOutputs sampleCheckTxEnv sampleTxState (anonSpendTx (anonInput [] [])) = .ok () ∧
      (∀ env state inputs nSpendHeight, CheckTxInputs env state (anonSpendTx (anonInput [] []))
        inputs nSpendHeight = .error (.undefined .outOfBounds)) ∧
      (∀ txhash, CheckAnonInputMempoolConflicts (fun _ => none)
        (anonInput [List.replicate 33 0] []) txhash = .ok ()) ∧
      CheckTransaction sampleCheckTxEnv sampleTxState
        (anonSpendTx (anonInput [List.replicate 33 0] [])) = .ok () ∧
      (∀ env state inputs nSpendHeight, CheckTxInputs env state
        (anonSpendTx (anonInput [List.replicate 33 0] [])) inputs nSpendHeight =
          .error (.undefined .outOfBounds)) :=
  ⟨by decide, by decide, fun _ _ _ _ => rfl, fun _ => rfl, by decide, fun _ _ _ _ => rfl⟩

end Globe
