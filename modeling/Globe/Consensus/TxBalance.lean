import Globe.Consensus.TxInputs

/-!
# Fees and balances of checked transactions

What a successful `CheckTxInputs` says about the value a Globe transaction
moves.  `summarizeInputs` reads off the coins view the plain value the inputs
spend and how many inputs of each kind there are; `summarizeOutputs` does the
same for the outputs.  The input loop and `GetPlainValueOut` compute exactly
these (`foldlM_checkTxInput`, `getPlainValueOut_eq_ok`), and the fee and the
balances are then stated over them.

A transaction that is not a coinstake pays a fee in the money range, the plain
difference when nothing is blinded, and enough for the messages it funds where
that is enforced; its recorded balances sum to minus the fee unless it spends
plain inputs worth nothing into blinded outputs.  A coinstake spends and
creates nothing blinded, records its reward as its fee, and its balances sum
to plus the reward.
-/

namespace Globe

open ByteCodec UB

/-! ## What a transaction spends and creates -/

/-- The coin a non-anon input spends. -/
def spentCoin (inputs : CCoinsView) (txin : CTxIn) : Option Coin :=
  if txin.IsAnonInput then none else inputs txin.prevout

/-- Whether an input spends a coin of output type `ty`. -/
def spendsType (inputs : CCoinsView) (ty : UInt8) (txin : CTxIn) : Bool :=
  (spentCoin inputs txin).any (·.nType == ty)

/-- The plain value an input spends: the value of a standard coin. -/
def spentValue (inputs : CCoinsView) (txin : CTxIn) : Int :=
  match spentCoin inputs txin with
  | some coin => if coin.nType = OUTPUT_STANDARD then coin.nValue.toInt else 0
  | none => 0

/-- The plain value of the inputs, and the numbers of inputs spending standard
coins, spending CT coins, and anon. -/
structure InputSummary where
  plainValue : Int
  nStandard : Nat
  nCT : Nat
  nAnon : Nat

def summarizeInputs (inputs : CCoinsView) (vin : List CTxIn) : InputSummary :=
  ⟨(vin.map (spentValue inputs)).sum, vin.countP (spendsType inputs OUTPUT_STANDARD),
    vin.countP (spendsType inputs OUTPUT_CT), vin.countP CTxIn.IsAnonInput⟩

/-- The number of blinded inputs, CT and anon. -/
def InputSummary.blinded (s : InputSummary) : Nat := s.nCT + s.nAnon

/-- The plain value of an output: the value of a standard output. -/
def outputValue (o : CTxOutBase) : Int := if o.IsStandardOutput then o.GetValue.toInt else 0

/-- The plain value of the outputs, and the numbers of CT and RingCT outputs. -/
structure OutputSummary where
  plainValue : Int
  nCT : Nat
  nRingCT : Nat

def summarizeOutputs (vpout : List CTxOutBase) : OutputSummary :=
  ⟨(vpout.map outputValue).sum, vpout.countP (·.nVersion == OUTPUT_CT),
    vpout.countP (·.nVersion == OUTPUT_RINGCT)⟩

/-- The number of blinded outputs, CT and RingCT. -/
def OutputSummary.blinded (s : OutputSummary) : Nat := s.nCT + s.nRingCT

theorem spentValue_eq_zero {inputs : CCoinsView} {txin : CTxIn}
    (h : spendsType inputs OUTPUT_STANDARD txin = false) : spentValue inputs txin = 0 := by
  unfold spendsType at h
  unfold spentValue
  cases hcoin : spentCoin inputs txin with
  | none => rfl
  | some coin =>
    rw [hcoin] at h
    have hne : coin.nType ≠ OUTPUT_STANDARD := by simpa using h
    simp [hne]

/-- Inputs that spend no standard coin spend no plain value. -/
theorem plainValue_eq_zero {inputs : CCoinsView} :
    ∀ {vin : List CTxIn}, (summarizeInputs inputs vin).nStandard = 0 →
      (summarizeInputs inputs vin).plainValue = 0
  | [], _ => rfl
  | txin :: vin, h => by
    simp only [summarizeInputs, List.countP_cons, List.map_cons, List.sum_cons] at h ⊢
    have hstd : spendsType inputs OUTPUT_STANDARD txin = false := by
      cases hs : spendsType inputs OUTPUT_STANDARD txin with
      | false => rfl
      | true => simp [hs] at h
    have hrest : (summarizeInputs inputs vin).plainValue = 0 := plainValue_eq_zero (by
      simp only [summarizeInputs]
      omega)
    simp only [summarizeInputs] at hrest
    rw [spentValue_eq_zero hstd, hrest, Int.add_zero]

/-! ## The input loop computes the input summary -/

section Loop

variable {env : TxInputsEnv} {state : TxInputsState} {inputs : CCoinsView} {nSpendHeight : Nat}

/-- One input of a Globe transaction adds what it spends to the tally, and
keeps `nValueIn` in the money range. -/
theorem checkTxInput_globe {t r : InputTally} {txin : CTxIn}
    (h : checkTxInput env state true inputs nSpendHeight t txin = .ok r)
    (hrange : MoneyRange t.nValueIn = true) :
    r.counts = (t.nValueIn + spentValue inputs txin,
        t.nStandard + (if spendsType inputs OUTPUT_STANDARD txin then 1 else 0),
        t.nCt + (if spendsType inputs OUTPUT_CT txin then 1 else 0),
        t.nRingCTInputs + (if txin.IsAnonInput then 1 else 0)) ∧
      MoneyRange r.nValueIn = true := by
  unfold checkTxInput at h
  cases hanon : txin.IsAnonInput with
  | true =>
    rw [if_pos hanon] at h
    have hc := checkAnonInput_counts h
    have hvalue : r.nValueIn = t.nValueIn := congrArg Prod.fst hc
    refine ⟨?_, hvalue ▸ hrange⟩
    rw [hc]
    simp [spentValue, spendsType, spentCoin, hanon]
  | false =>
    rw [if_neg (by simp [hanon])] at h
    split at h
    · cases h
    · next coin hcoin =>
      rcases checkCoinInput_globe h with ⟨hstd, hc, hrange'⟩ | ⟨hct, hc⟩
      · refine ⟨?_, hrange'⟩
        rw [hc]
        simp [spentValue, spendsType, spentCoin, hanon, hcoin, hstd, OUTPUT_STANDARD, OUTPUT_CT]
      · have hvalue : r.nValueIn = t.nValueIn := congrArg Prod.fst hc
        refine ⟨?_, hvalue ▸ hrange⟩
        rw [hc]
        simp [spentValue, spendsType, spentCoin, hanon, hcoin, hct, OUTPUT_STANDARD, OUTPUT_CT]

/-- The input loop of a Globe transaction adds the summary of the inputs to
the tally it starts from. -/
theorem foldlM_checkTxInput :
    ∀ {vin : List CTxIn} {t r : InputTally},
      vin.foldlM (checkTxInput env state true inputs nSpendHeight) t = .ok r →
      MoneyRange t.nValueIn = true →
      r.nValueIn = t.nValueIn + (summarizeInputs inputs vin).plainValue ∧
        r.nStandard = t.nStandard + (summarizeInputs inputs vin).nStandard ∧
        r.nCt = t.nCt + (summarizeInputs inputs vin).nCT ∧
        r.nRingCTInputs = t.nRingCTInputs + (summarizeInputs inputs vin).nAnon ∧
        MoneyRange r.nValueIn = true
  | [], t, r, h, hrange => by
    cases h
    simp [summarizeInputs, hrange]
  | txin :: vin, t, r, h, hrange => by
    obtain ⟨t', hstep, hrest⟩ := bind_eq_ok h
    obtain ⟨hc, hrange'⟩ := checkTxInput_globe hstep hrange
    simp only [InputTally.counts, Prod.mk.injEq] at hc
    obtain ⟨hv, hs, hct, hanon, hr⟩ := foldlM_checkTxInput hrest hrange'
    simp only [summarizeInputs, List.map_cons, List.sum_cons, List.countP_cons] at hv hs hct hanon ⊢
    refine ⟨?_, ?_, ?_, ?_, hr⟩ <;> omega

end Loop

/-! ## `GetPlainValueOut` computes the output summary -/

theorem plainValueOutStep_eq_ok {acc r : Int × Nat × Nat × Nat} {o : CTxOutBase}
    (h : CTransaction.plainValueOutStep acc o = .ok r) :
    r.1 = acc.1 + outputValue o ∧
      r.2.2.1 = acc.2.2.1 + (if o.nVersion == OUTPUT_CT then 1 else 0) ∧
      r.2.2.2 = acc.2.2.2 + (if o.nVersion == OUTPUT_RINGCT then 1 else 0) := by
  cases o with
  | standard p =>
    obtain ⟨v, hv, hr⟩ := bind_eq_ok h
    cases hr
    unfold CTransaction.addValueOut at hv
    split at hv
    · cases hv
    · cases hv
      simp [outputValue, CTxOutBase.IsStandardOutput, CTxOutBase.nVersion, CTxOutBase.GetValue,
        OUTPUT_STANDARD, OUTPUT_CT, OUTPUT_RINGCT]
  | ct p =>
    cases h
    simp [outputValue, CTxOutBase.IsStandardOutput, CTxOutBase.nVersion, OUTPUT_STANDARD,
      OUTPUT_CT, OUTPUT_RINGCT]
  | ringct p =>
    cases h
    simp [outputValue, CTxOutBase.IsStandardOutput, CTxOutBase.nVersion, OUTPUT_STANDARD,
      OUTPUT_CT, OUTPUT_RINGCT]
  | data p =>
    cases h
    simp [outputValue, CTxOutBase.IsStandardOutput, CTxOutBase.nVersion, OUTPUT_STANDARD,
      OUTPUT_CT, OUTPUT_RINGCT, OUTPUT_DATA]

theorem foldlM_plainValueOutStep :
    ∀ {vpout : List CTxOutBase} {acc r : Int × Nat × Nat × Nat},
      vpout.foldlM CTransaction.plainValueOutStep acc = .ok r →
      r.1 = acc.1 + (summarizeOutputs vpout).plainValue ∧
        r.2.2.1 = acc.2.2.1 + (summarizeOutputs vpout).nCT ∧
        r.2.2.2 = acc.2.2.2 + (summarizeOutputs vpout).nRingCT
  | [], acc, r, h => by
    cases h
    simp [summarizeOutputs]
  | o :: vpout, acc, r, h => by
    obtain ⟨acc', hstep, hrest⟩ := bind_eq_ok h
    obtain ⟨hv, hct, hrct⟩ := plainValueOutStep_eq_ok hstep
    obtain ⟨hv', hct', hrct'⟩ := foldlM_plainValueOutStep hrest
    simp only [summarizeOutputs, List.map_cons, List.sum_cons, List.countP_cons] at hv' hct' hrct' ⊢
    refine ⟨?_, ?_, ?_⟩ <;> omega

/-- `GetPlainValueOut` with the blinded counters at zero returns the plain
value of the outputs and their CT and RingCT counts. -/
theorem getPlainValueOut_eq_ok {tx : CTransaction} {nStandard nStandard' nCT nRingCT : Nat}
    {nPlainValueOut : Int}
    (h : tx.GetPlainValueOut nStandard 0 0 = .ok (nPlainValueOut, nStandard', nCT, nRingCT)) :
    nPlainValueOut = (summarizeOutputs tx.vpout).plainValue ∧
      nCT = (summarizeOutputs tx.vpout).nCT ∧ nRingCT = (summarizeOutputs tx.vpout).nRingCT := by
  obtain ⟨hv, hct, hrct⟩ := foldlM_plainValueOutStep h
  simp only [Int.zero_add, Nat.zero_add] at hv hct hrct
  exact ⟨hv, hct, hrct⟩

/-! ## Fees and balances -/

theorem checkTxInputs_fee_balances {env : TxInputsEnv} {state : TxInputsState} {tx : CTransaction}
    {inputs : CCoinsView} {nSpendHeight : Nat} {r : TxInputsResult}
    (hglobe : tx.IsGlobeVersion = true) (hclamp : state.m_clamp_tx_version = true)
    (h : CheckTxInputs env state tx inputs nSpendHeight = .ok r)
    (hfrozen : r.m_spends_frozen_blinded = false) :
    (tx.IsCoinStake = false →
      (0 ≤ r.txfee ∧ r.txfee ≤ MAX_MONEY) ∧
      ((summarizeInputs inputs tx.vin).blinded = 0 → (summarizeOutputs tx.vpout).blinded = 0 →
        r.txfee = (summarizeInputs inputs tx.vin).plainValue - (summarizeOutputs tx.vpout).plainValue) ∧
      (0 < (summarizeInputs inputs tx.vin).plainValue ∨ 0 < (summarizeInputs inputs tx.vin).blinded ∨
          (summarizeOutputs tx.vpout).blinded = 0 → r.tx_balances.sum = -r.txfee) ∧
      (state.fEnforceSmsgFees = true → 0 < tx.GetTotalSMSGFees →
        ∃ nFee, CFeeRate.GetFee ⟨state.m_consensus_params.smsg_fee_funding_tx_per_k⟩
            (UInt32.ofNat (env.GetVirtualTransactionSize tx)) = .ok nFee ∧
          tx.GetTotalSMSGFees + nFee ≤ r.txfee)) ∧
    (tx.IsCoinStake = true →
      r.txfee = (summarizeOutputs tx.vpout).plainValue - (summarizeInputs inputs tx.vin).plainValue ∧
        (summarizeInputs inputs tx.vin).blinded = 0 ∧ (summarizeOutputs tx.vpout).blinded = 0 ∧
        r.tx_balances.sum = r.txfee) ∧
    ((summarizeInputs inputs tx.vin).nCT = 0 → (summarizeOutputs tx.vpout).nCT = 0 →
      r.tx_balances.BLIND_ADDED = 0 ∧ r.tx_balances.BLIND_REMOVED = 0) ∧
    ((summarizeInputs inputs tx.vin).nAnon = 0 → (summarizeOutputs tx.vpout).nRingCT = 0 →
      r.tx_balances.ANON_ADDED = 0 ∧ r.tx_balances.ANON_REMOVED = 0) := by
  obtain ⟨t, nPlainValueOut, nStandard, nCTOutputs, nRingCTOutputs, txfee, m_funds_smsg,
    hloop, hmix, hout, hfee, -, hnotmixed, -, rfl⟩ := checkTxInputs_eq_ok h
  rw [hglobe] at hloop
  -- the loop starts from zero counts, so it ends with the input summary
  obtain ⟨hV, hS, hC, hA, -⟩ := foldlM_checkTxInput hloop rfl
  simp only [InputTally.init, Int.zero_add, Nat.zero_add] at hV hS hC hA
  obtain ⟨hP, hCo, hRo⟩ := getPlainValueOut_eq_ok hout
  obtain ⟨hanonKind, hctKind⟩ := checkInputMix_eq_ok hmix
  have hVzero : t.nStandard = 0 → t.nValueIn = 0 := fun h0 => hV ▸ plainValue_eq_zero (hS ▸ h0)
  have hsum := recordBalances_sum state t nCTOutputs nRingCTOutputs nPlainValueOut txfee (.inr hfrozen)
  simp only [hclamp, true_and] at hnotmixed
  simp only [InputSummary.blinded, OutputSummary.blinded, ← hV, ← hC, ← hA, ← hP, ← hCo, ← hRo]
  refine ⟨fun hcs => ?_, fun hcs => ?_, fun hci hco => ?_, fun hai hao => ?_⟩
  · rw [tallyFee_of_not_coinStake hglobe hcs] at hfee
    obtain ⟨hnonneg, hmax, hplain, hsmsg⟩ := tallyGlobeFee_eq_ok hfee
    refine ⟨⟨hnonneg, hmax⟩, fun hbi hbo => hplain (by omega) (by omega), fun hcover => ?_, hsmsg⟩
    -- a blinded input leaves no plain value; a plain one pays into one kind of blinded output
    have hk1 : t.nRingCTInputs = 0 ∨ (t.nStandard = 0 ∧ t.nCt = 0) := by
      rcases Nat.eq_zero_or_pos t.nRingCTInputs with h0 | hpos
      · exact .inl h0
      · exact .inr (hanonKind hpos)
    have hk2 : t.nCt = 0 ∨ t.nStandard = 0 := by
      rcases Nat.eq_zero_or_pos t.nCt with h0 | hpos
      · exact .inl h0
      · exact .inr (hctKind hpos)
    have hk3 : t.nStandard ≠ 0 ∨ t.nValueIn = 0 := by
      by_cases h0 : t.nStandard = 0
      · exact .inr (hVzero h0)
      · exact .inl h0
    have hplain' : t.nCt + nCTOutputs ≠ 0 ∨ t.nRingCTInputs + nRingCTOutputs ≠ 0 ∨
        txfee = t.nValueIn - nPlainValueOut := by
      by_cases h1 : t.nCt + nCTOutputs = 0
      · by_cases h2 : t.nRingCTInputs + nRingCTOutputs = 0
        · exact .inr (.inr (hplain h1 h2))
        · exact .inr (.inl h2)
      · exact .inl h1
    simp only [TxBalances.sum] at hsum ⊢
    rw [hsum]
    split_ifs <;> omega
  · obtain ⟨hreward, hct0, hrct0⟩ := tallyFee_coinStake hglobe hcs hfee
    refine ⟨hreward, by omega, by omega, ?_⟩
    rw [hsum]
    split_ifs <;> omega
  · exact recordBalances_blind state t nCTOutputs nRingCTOutputs nPlainValueOut txfee hci hco
  · exact recordBalances_anon state t nCTOutputs nRingCTOutputs nPlainValueOut txfee hai hao

/-! ## Runs on mainnet parameters -/

/-- The parameters `CMainParams` sets, with the defaults of the others. -/
def mainConsensusParams : ConsensusParams :=
  ⟨27340, 884433, 200 * COIN, 3, 1, 32, 32, 200000⟩

/-- A mainnet state after `clamp_tx_version_time`: every fix is active and
message fees are enforced. -/
def mainTxInputsState : TxInputsState := ⟨1700000000, true, true, true, true, mainConsensusParams⟩

/-- Empty output tables, no arguments, a virtual size of 200, and commitments
that never verify. -/
def sampleTxInputsEnv : TxInputsEnv :=
  ⟨fun _ _ => false, fun _ => false, fun _ => false, none, none, fun _ => 200, fun _ _ => none,
    fun _ _ => false⟩

/-- The outpoint of the coin the sample transactions spend. -/
def sampleOutPoint : COutPoint := ⟨⟨7 :: List.replicate 31 0, rfl⟩, 0⟩

/-- A coins view holding one standard coin of 10 at height 1. -/
def sampleCoins : CCoinsView := fun o =>
  if o = sampleOutPoint then some ⟨10, false, 1, OUTPUT_STANDARD, Blob.zero 33⟩ else none

def sampleInput : CTxIn := ⟨sampleOutPoint, [], 0, ⟨[]⟩, ⟨[]⟩⟩

/-- A Globe transaction spending the coin into a standard output of 7. -/
def plainSpendTx : CTransaction := ⟨[sampleInput], [], [.standard ⟨7, []⟩], 0xA0, 0⟩

theorem checkTxInputs_fee_balances_plainSpend :
    CheckTxInputs sampleTxInputsEnv mainTxInputsState plainSpendTx sampleCoins 1000 =
        .ok ⟨3, { PLAIN_ADDED := 7, PLAIN_REMOVED := 10 }, false, false, false, false, []⟩ ∧
      ({ PLAIN_ADDED := 7, PLAIN_REMOVED := 10 } : TxBalances).sum = -3 :=
  have hrun : CheckTxInputs sampleTxInputsEnv mainTxInputsState plainSpendTx sampleCoins 1000 =
      .ok ⟨3, { PLAIN_ADDED := 7, PLAIN_REMOVED := 10 }, false, false, false, false, []⟩ := rfl
  ⟨hrun, ((checkTxInputs_fee_balances rfl rfl hrun rfl).1 rfl).2.2.1 (.inl (by decide))⟩

/-- A coinstake spending the coin into its height output and a standard output
of 15: a reward of 5. -/
def stakeTx : CTransaction :=
  ⟨[sampleInput], [], [.data ⟨[0x10, 0, 0, 0]⟩, .standard ⟨15, []⟩], 0x2A0, 0⟩

theorem checkTxInputs_coinStake_balances_sum :
    stakeTx.IsGlobeVersion = true ∧ stakeTx.IsCoinStake = true ∧
      CheckTxInputs sampleTxInputsEnv mainTxInputsState stakeTx sampleCoins 1000 =
        .ok ⟨5, { PLAIN_ADDED := 15, PLAIN_REMOVED := 10 }, false, false, false, false, []⟩ ∧
      ({ PLAIN_ADDED := 15, PLAIN_REMOVED := 10 } : TxBalances).sum = 5 :=
  ⟨rfl, rfl, rfl, rfl⟩

/-- The coinstake of `stakeTx` with a message-funding output of 100 as well. -/
def smsgStakeTx : CTransaction :=
  ⟨[sampleInput], [], [.data ⟨[0x10, 0, 0, 0]⟩, .standard ⟨15, []⟩,
    .data ⟨DO_FUND_MSG :: List.replicate 20 0 ++ [100, 0, 0, 0]⟩], 0x2A0, 0⟩

/-- A coinstake is exempt from the message-fee bound: it funds messages of 100
with a reward of 5 while fees are enforced. -/
theorem checkTxInputs_coinStake_smsgFee :
    smsgStakeTx.IsCoinStake = true ∧ mainTxInputsState.fEnforceSmsgFees = true ∧
      smsgStakeTx.GetTotalSMSGFees = 100 ∧
      CheckTxInputs sampleTxInputsEnv mainTxInputsState smsgStakeTx sampleCoins 1000 =
        .ok ⟨5, { PLAIN_ADDED := 15, PLAIN_REMOVED := 10 }, false, false, false, false, []⟩ :=
  ⟨rfl, rfl, rfl, rfl⟩

/-- `sampleTxInputsEnv` with commitments that always build and balance. -/
def blindTxInputsEnv : TxInputsEnv :=
  { sampleTxInputsEnv with
    pedersenCommit := fun _ _ => some (Blob.zero 33), pedersenVerifyTally := fun _ _ => true }

/-- A coins view holding one standard coin of 0 at height 1. -/
def zeroCoins : CCoinsView := fun o =>
  if o = sampleOutPoint then some ⟨0, false, 1, OUTPUT_STANDARD, Blob.zero 33⟩ else none

/-- A Globe transaction spending the coin of 0 into a CT output, with a fee of 1
in its fee output. -/
def zeroIntoBlindTx : CTransaction :=
  ⟨[sampleInput], [], [.data ⟨[DO_FEE, 1]⟩, .ct ⟨Blob.zero 33, [], [], []⟩], 0xA0, 0⟩

/-- Plain inputs worth 0 spent into a blinded output: no blinded value is
recorded as added, so the balances sum to the plain value out, 0, and not to
minus the fee. -/
theorem checkTxInputs_zeroPlain_blinded_sum :
    zeroIntoBlindTx.IsCoinStake = false ∧
      CheckTxInputs blindTxInputsEnv mainTxInputsState zeroIntoBlindTx zeroCoins 1000 =
        .ok ⟨1, { PLAIN_ADDED := 0, PLAIN_REMOVED := 0 }, false, false, false, false, []⟩ ∧
      ({ PLAIN_ADDED := 0, PLAIN_REMOVED := 0 } : TxBalances).sum ≠ -1 :=
  ⟨rfl, rfl, by decide⟩

end Globe
