import Globe.Primitives.TransactionCodec
import Globe.Script.ColdStake

/-!
# Context-free transaction checks

`consensus/tx_verify.cpp`: `CheckTransaction` and the output checks it calls.
A check returns the reject reason it gives `state.Invalid` as an error.

The size test at the top of `CheckTransaction` has no statement of its own:
the `if (tx.IsGlobeVersion()) {...} else {...}` after it is its body.  The
output checks of both transaction families therefore run only for a
transaction over a size limit, and the input checks run for every transaction.
-/

namespace Globe

open ByteCodec

def MAX_DATA_OUTPUT_SIZE : Nat := 512
def WITNESS_SCALE_FACTOR_PART : Nat := 2

/-- The fields of `TxValidationState` and of its consensus parameters that the
checks read. -/
structure TxValidationState where
  m_clamp_tx_version : Bool
  m_globe_mode : Bool
  rct_active : Bool
  m_skip_rangeproof : Bool
  fBulletproofsActive : Bool
  OpIsCoinstakeTime : Int
  fAllowOpIsCoinstakeWithP2PKH : Bool

/-- What the checks read besides the transaction and the state.
`MAX_TRANSACTION_BASE_SIZE` is defined nowhere in the source.  The range-proof
verifier of libsecp256k1 takes the bulletproof flag, and the contract test is
the node build's `HasOpCall || HasOpCreate || HasOpSender` followed by a
`NONSTANDARD` solution. -/
structure CheckTxEnv where
  MAX_TRANSACTION_BASE_SIZE : Nat
  WITNESS_SCALE_FACTOR : Nat
  dgpMaxBlockWeight : Nat
  adjustedTime : Int
  rangeproofVerify : Bool → Blob 33 → Bytes → Bool
  contractNonstandard : CScript → Bool

section Checks

variable (env : CheckTxEnv) (state : TxValidationState)

/-! ## Outputs -/

/-- `CheckStandardOutput`: the value and the running sum `nValueOut` after it,
and the coinstake-script rules. -/
def CheckStandardOutput (p : CTxOutStandard) (nValueOut : Int) : Except String Int :=
  if p.nValue.toInt < 0 then .error "bad-txns-vout-negative"
  else if MAX_MONEY < p.nValue.toInt then .error "bad-txns-vout-toolarge"
  else if HasIsCoinstakeOp p.scriptPubKey then
    if env.adjustedTime < state.OpIsCoinstakeTime then .error "bad-txns-vout-opiscoinstake"
    else if !state.fAllowOpIsCoinstakeWithP2PKH && IsSpendScriptP2PKH p.scriptPubKey then
      .error "bad-txns-vout-opiscoinstake-spend-p2pkh"
    else .ok (nValueOut + p.nValue.toInt)
  else .ok (nValueOut + p.nValue.toInt)

/-- The checks `CheckBlindOutput` and `CheckAnonOutput` share, with each
one's reject reasons: the sizes of the ephemeral data and of the range proof,
and the range proof itself unless the state skips it. -/
def checkCommittedOutput (ephemSize rangeproofSize rangeproofVerify : String) (vData : Bytes)
    (commitment : Blob 33) (vRangeproof : Bytes) : Except String Unit :=
  if vData.length < 33 || 33 + 5 + 33 < vData.length then .error ephemSize
  else if vRangeproof.length < 500 || 5134 < vRangeproof.length then .error rangeproofSize
  else if state.m_skip_rangeproof then .ok ()
  else if env.rangeproofVerify state.fBulletproofsActive commitment vRangeproof then .ok ()
  else .error rangeproofVerify

def CheckBlindOutput (p : CTxOutCT) : Except String Unit :=
  checkCommittedOutput env state "bad-ctout-ephem-size" "bad-ctout-rangeproof-size"
    "bad-ctout-rangeproof-verify" p.vData p.commitment p.vRangeproof

/-- `CheckAnonOutput` first requires RingCT to be active. -/
def CheckAnonOutput (p : CTxOutRingCT) : Except String Unit :=
  if !state.rct_active then .error "rctout-before-active"
  else checkCommittedOutput env state "bad-rctout-ephem-size" "bad-rctout-rangeproof-size"
    "bad-rctout-rangeproof-verify" p.vData p.commitment p.vRangeproof

def CheckDataOutput (p : CTxOutData) : Except String Unit :=
  if p.vData.length < 1 then .error "bad-output-data-size"
  else if MAX_DATA_OUTPUT_SIZE < p.vData.length then .error "bad-output-data-size"
  else .ok ()

/-- The counters of the Globe output loop. -/
structure OutputTally where
  nStandardOutputs : Nat
  nDataOutputs : Nat
  nBlindOutputs : Nat
  nAnonOutputs : Nat
  nValueOut : Int

/-- One pass of the Globe output loop: the output's own check, its counter,
and the money range of the running sum.  The source's `default` case, an
unknown `nVersion`, cannot arise: the byte is the constructor's. -/
def checkGlobeOutput (t : OutputTally) : CTxOutBase → Except String OutputTally
  | .standard p => do
    let nValueOut ← CheckStandardOutput env state p t.nValueOut
    checkTotal { t with nStandardOutputs := t.nStandardOutputs + 1, nValueOut := nValueOut }
  | .ct p => do
    CheckBlindOutput env state p
    checkTotal { t with nBlindOutputs := t.nBlindOutputs + 1 }
  | .ringct p => do
    CheckAnonOutput env state p
    checkTotal { t with nAnonOutputs := t.nAnonOutputs + 1 }
  | .data p => do
    CheckDataOutput p
    checkTotal { t with nDataOutputs := t.nDataOutputs + 1 }
where
  checkTotal (t : OutputTally) : Except String OutputTally :=
    if !MoneyRange t.nValueOut then .error "bad-txns-txouttotal-toolarge" else .ok t

/-- The Globe branch of the output checks. -/
def CheckGlobeOutputs (tx : CTransaction) : Except String Unit := do
  if state.m_clamp_tx_version && tx.GetGlobeVersion != GLOBE_TXN_VERSION then
    throw "bad-txn-version"
  if tx.vpout.isEmpty then throw "bad-txns-vpout-empty"
  if !tx.vout.isEmpty then throw "bad-txns-vout-not-empty"
  let t ← tx.vpout.foldlM (checkGlobeOutput env state) ⟨0, 0, 0, 0, 0⟩
  -- an extra data output for the CT fee
  let max_data_outputs := 1 + t.nStandardOutputs +
    if state.m_clamp_tx_version then t.nBlindOutputs + t.nAnonOutputs else 0
  if max_data_outputs < t.nDataOutputs then throw "too-many-data-outputs"

/-- One pass of the Bitcoin output loop. -/
def checkBitcoinOutput (nValueOut : Int) (txout : CTxOut) : Except String Int :=
  if txout.nValue.toInt < 0 then .error "bad-txns-vout-negative"
  else if MAX_MONEY < txout.nValue.toInt then .error "bad-txns-vout-toolarge"
  else if !MoneyRange (nValueOut + txout.nValue.toInt) then .error "bad-txns-txouttotal-toolarge"
  else if env.contractNonstandard txout.scriptPubKey then .error "bad-txns-contract-nonstandard"
  else .ok (nValueOut + txout.nValue.toInt)

/-- The Bitcoin branch of the output checks. -/
def CheckBitcoinOutputs (tx : CTransaction) : Except String Unit := do
  if state.m_globe_mode then throw "bad-txn-version"
  if tx.vout.isEmpty then throw "bad-txns-vout-empty"
  discard (tx.vout.foldlM (checkBitcoinOutput env) 0)

end Checks

/-! ## Inputs -/

/-- The duplicate-input loop: `vInOutPoints` holds the outpoints of the
non-anon inputs seen so far. -/
def checkDuplicateInputs (vInOutPoints : List COutPoint) : List CTxIn → Except String Unit
  | [] => .ok ()
  | txin :: vin =>
    if !txin.IsAnonInput then
      if txin.prevout ∈ vInOutPoints then .error "bad-txns-inputs-duplicate"
      else checkDuplicateInputs (txin.prevout :: vInOutPoints) vin
    else checkDuplicateInputs vInOutPoints vin

/-- The coinbase test: the length of the first input's script, or no null
outpoint among the non-anon inputs.  `vin` is not empty here. -/
def checkCoinbase (tx : CTransaction) : Except String Unit :=
  if tx.IsCoinBase then
    let n := ((tx.vin.headD ⟨⟨Blob.zero 32, 0⟩, [], 0, ⟨[]⟩, ⟨[]⟩⟩).scriptSig).length
    if n < 2 || 100 < n then .error "bad-cb-length" else .ok ()
  else if tx.vin.any (fun txin => !txin.IsAnonInput && txin.prevout.IsNull) then
    .error "bad-txns-prevout-null"
  else .ok ()

/-- `GetSerializeSize(tx, PROTOCOL_VERSION | SERIALIZE_TRANSACTION_NO_WITNESS)`. -/
def baseSize (tx : CTransaction) : Nat := (SerializeTransaction false tx).length

/-- `CheckTransaction`. -/
def CheckTransaction (env : CheckTxEnv) (state : TxValidationState) (tx : CTransaction) :
    Except String Unit := do
  if tx.vin.isEmpty then throw "bad-txns-vin-empty"
  -- the output checks are the body of the size test
  if env.MAX_TRANSACTION_BASE_SIZE < baseSize tx ||
      env.dgpMaxBlockWeight < baseSize tx * env.WITNESS_SCALE_FACTOR then
    if tx.IsGlobeVersion then CheckGlobeOutputs env state tx else CheckBitcoinOutputs env state tx
  checkDuplicateInputs [] tx.vin
  checkCoinbase tx

/-! ## Transactions within the size limits -/

/-- Within both size limits the output checks do not run: the transaction is
accepted exactly when it has inputs and they pass the input checks. -/
theorem checkTransaction_of_le_limits (env : CheckTxEnv) (state : TxValidationState)
    {tx : CTransaction} (hsize : baseSize tx ≤ env.MAX_TRANSACTION_BASE_SIZE)
    (hweight : baseSize tx * env.WITNESS_SCALE_FACTOR ≤ env.dgpMaxBlockWeight) :
    CheckTransaction env state tx =
      if tx.vin.isEmpty then .error "bad-txns-vin-empty"
      else checkDuplicateInputs [] tx.vin >>= fun _ => checkCoinbase tx := by
  have hlim : (decide (env.MAX_TRANSACTION_BASE_SIZE < baseSize tx) ||
      decide (env.dgpMaxBlockWeight < baseSize tx * env.WITNESS_SCALE_FACTOR)) = false := by
    simp only [Bool.or_eq_false_iff, decide_eq_false_iff_not, Nat.not_lt]
    exact ⟨hsize, hweight⟩
  unfold CheckTransaction
  cases tx.vin.isEmpty with
  | true => rfl
  | false => simp [hlim]

/-- A Globe transaction with one input and no outputs. -/
def noOutputTx : CTransaction :=
  ⟨[⟨⟨Blob.zero 32, 0⟩, [], 0, ⟨[]⟩, ⟨[]⟩⟩], [], [], 0xA0, 0⟩

theorem baseSize_noOutputTx : baseSize noOutputTx = 49 := by decide

theorem checkTransaction_accepts_no_outputs (env : CheckTxEnv) (state : TxValidationState)
    (hsize : 49 ≤ env.MAX_TRANSACTION_BASE_SIZE)
    (hweight : 49 * env.WITNESS_SCALE_FACTOR ≤ env.dgpMaxBlockWeight) :
    noOutputTx.IsGlobeVersion = true ∧ noOutputTx.vpout = [] ∧
      CheckTransaction env state noOutputTx = .ok () := by
  refine ⟨by decide, rfl, ?_⟩
  rw [checkTransaction_of_le_limits env state (baseSize_noOutputTx ▸ hsize)
    (baseSize_noOutputTx ▸ hweight)]
  decide

/-- A Globe-mode node's scale factor and initial `dgpMaxBlockWeight`, with a
transaction limit of a million bytes, no range proofs that verify and no
contract scripts. -/
def sampleCheckTxEnv : CheckTxEnv :=
  ⟨1000000, WITNESS_SCALE_FACTOR_PART, 8000000, 0, fun _ _ _ => false, fun _ => false⟩

def sampleTxState : TxValidationState := ⟨true, true, true, false, true, 0, false⟩

theorem checkTransaction_accepts_no_outputs_sample :
    49 ≤ sampleCheckTxEnv.MAX_TRANSACTION_BASE_SIZE ∧
      49 * sampleCheckTxEnv.WITNESS_SCALE_FACTOR ≤ sampleCheckTxEnv.dgpMaxBlockWeight ∧
      (noOutputTx.IsGlobeVersion = true ∧ noOutputTx.vpout = [] ∧
        CheckTransaction sampleCheckTxEnv sampleTxState noOutputTx = .ok ()) :=
  ⟨by decide, by decide,
    checkTransaction_accepts_no_outputs sampleCheckTxEnv sampleTxState (by decide) (by decide)⟩

/-! ## What the input checks enforce -/

/-- The outpoints of the non-anon inputs, in order. -/
def nonAnonPrevouts (vin : List CTxIn) : List COutPoint :=
  (vin.filter fun txin => !txin.IsAnonInput).map (·.prevout)

/-- The duplicate-input loop passes exactly when the non-anon outpoints are
distinct and none was seen before. -/
theorem checkDuplicateInputs_eq_ok_iff (vInOutPoints : List COutPoint) (vin : List CTxIn) :
    checkDuplicateInputs vInOutPoints vin = .ok () ↔
      (nonAnonPrevouts vin).Nodup ∧ ∀ o ∈ nonAnonPrevouts vin, o ∉ vInOutPoints := by
  induction vin generalizing vInOutPoints with
  | nil => simp [checkDuplicateInputs, nonAnonPrevouts]
  | cons txin vin ih =>
    cases hanon : txin.IsAnonInput with
    | true =>
      have hskip : nonAnonPrevouts (txin :: vin) = nonAnonPrevouts vin := by
        simp [nonAnonPrevouts, hanon]
      rw [hskip, checkDuplicateInputs, hanon]
      exact ih vInOutPoints
    | false =>
      have hkeep : nonAnonPrevouts (txin :: vin) = txin.prevout :: nonAnonPrevouts vin := by
        simp [nonAnonPrevouts, hanon]
      rw [hkeep, checkDuplicateInputs, hanon]
      by_cases hseen : txin.prevout ∈ vInOutPoints
      · simp [hseen]
      · simp only [Bool.not_false, if_true, hseen, if_false, ih, List.nodup_cons,
          List.mem_cons, forall_eq_or_imp, not_or, not_false_eq_true, true_and]
        constructor
        · rintro ⟨hnodup, hfresh⟩
          exact ⟨⟨fun hmem => (hfresh _ hmem).1 rfl, hnodup⟩, fun o ho => (hfresh o ho).2⟩
        · rintro ⟨⟨hnotin, hnodup⟩, hfresh⟩
          exact ⟨hnodup, fun o ho => ⟨fun h => hnotin (h ▸ ho), hfresh o ho⟩⟩

theorem checkCoinbase_eq_ok_iff (tx : CTransaction) :
    checkCoinbase tx = .ok () ↔
      if tx.IsCoinBase then
        2 ≤ (tx.vin.headD ⟨⟨Blob.zero 32, 0⟩, [], 0, ⟨[]⟩, ⟨[]⟩⟩).scriptSig.length ∧
          (tx.vin.headD ⟨⟨Blob.zero 32, 0⟩, [], 0, ⟨[]⟩, ⟨[]⟩⟩).scriptSig.length ≤ 100
      else ∀ txin ∈ tx.vin, txin.IsAnonInput = false → txin.prevout.IsNull = false := by
  unfold checkCoinbase
  by_cases hcb : tx.IsCoinBase = true
  · simp only [hcb, if_true]
    split
    · next hbad =>
      simp only [Bool.or_eq_true, decide_eq_true_eq] at hbad
      simp only [reduceCtorEq, false_iff, not_and, Nat.not_le]
      omega
    · next hgood =>
      simp only [Bool.or_eq_true, decide_eq_true_eq, not_or, Nat.not_lt] at hgood
      simpa using hgood
  · simp only [hcb, if_false, Bool.false_eq_true]
    split
    · next hnull =>
      obtain ⟨txin, hmem, htxin⟩ := List.any_eq_true.mp hnull
      simp only [Bool.and_eq_true, Bool.not_eq_true'] at htxin
      simp only [reduceCtorEq, false_iff, not_forall]
      exact ⟨txin, hmem, htxin.1, by simp [htxin.2]⟩
    · next hnull =>
      simp only [true_iff]
      intro txin hmem hanon
      have h := List.any_eq_false.mp (Bool.eq_false_iff.mpr hnull) txin hmem
      simpa [hanon] using h

/-- Every transaction that `CheckTransaction` accepts has inputs, distinct
non-anon outpoints, and either a coinbase script of 2 to 100 bytes or no null
non-anon outpoint. -/
theorem checkTransaction_inputs (env : CheckTxEnv) (state : TxValidationState) {tx : CTransaction}
    (h : CheckTransaction env state tx = .ok ()) :
    tx.vin ≠ [] ∧ (nonAnonPrevouts tx.vin).Nodup ∧
      (if tx.IsCoinBase then
        2 ≤ (tx.vin.headD ⟨⟨Blob.zero 32, 0⟩, [], 0, ⟨[]⟩, ⟨[]⟩⟩).scriptSig.length ∧
          (tx.vin.headD ⟨⟨Blob.zero 32, 0⟩, [], 0, ⟨[]⟩, ⟨[]⟩⟩).scriptSig.length ≤ 100
      else ∀ txin ∈ tx.vin, txin.IsAnonInput = false → txin.prevout.IsNull = false) := by
  unfold CheckTransaction at h
  cases hempty : tx.vin.isEmpty
  · simp only [hempty, Bool.false_eq_true, if_false] at h
    -- whichever output checks ran, the two input checks follow them
    have hinputs : (checkDuplicateInputs [] tx.vin >>= fun _ => checkCoinbase tx) = .ok () := by
      split at h
      · split at h
        · obtain ⟨_, _, hrest⟩ := UB.bind_eq_ok h
          exact hrest
        · obtain ⟨_, _, hrest⟩ := UB.bind_eq_ok h
          exact hrest
      · exact h
    obtain ⟨_, hdup, hcb⟩ := UB.bind_eq_ok hinputs
    exact ⟨List.isEmpty_eq_false_iff.mp hempty,
      ((checkDuplicateInputs_eq_ok_iff [] tx.vin).mp hdup).1, (checkCoinbase_eq_ok_iff tx).mp hcb⟩
  · simp [hempty] at h
    cases h

theorem checkTransaction_inputs_noOutputTx : (nonAnonPrevouts noOutputTx.vin).Nodup :=
  (checkTransaction_inputs sampleCheckTxEnv sampleTxState
    (by rw [checkTransaction_of_le_limits _ _ (by decide) (by decide)]; decide)).2.1

end Globe
