import Globe.Primitives.CoinStakeData

/-!
# The treasury fund over a chain of blocks

`validation.cpp`: the treasury part of `Chainstate::ConnectBlock`.  Where the
treasury settings in force take a positive share, a part of every block's
calculated stake reward belongs to the treasury.  In a block whose height is a
multiple of the output period the coinstake pays the treasury's share, and the
amount carried forward, to the fund's script; in any other block the staker
may take at most the rest, and the coinstake's data output states the new
carried-forward amount, which the next block reads back (`GetTreasuryFundCfwd`).

`connectTreasury` runs these checks block by block from height 1, the block
after the proof-of-work genesis block.  `connectTreasury_ledger` is what an
accepted chain satisfies at every height: the carried amount is never
negative, is cleared at each payout and grows otherwise, and the stake rewards
taken together with it are exactly the calculated rewards.

A block is what the check reads of it: the reward the coinstake returned in
`txfee` (`nStakeReward`, summed by the transaction loop), the reward
`GetProofOfStakeReward` calculated, and the coinstake itself.
-/

namespace Globe

open ByteCodec UB

/-- `CTransaction::GetTreasuryFundCfwd`: the carry-forward field of the data
output in front of a coinstake. -/
def CTransaction.GetTreasuryFundCfwd (tx : CTransaction) : Defined (Option Int64) :=
  match tx.vpout with
  | .data d :: _ => ExtractCoinStakeInt64 d.vData DO_TREASURY_FUND_CFWD
  | _ => .ok none

/-- A `TreasuryFundSettings` with its address decoded to a script (`none` when
`DecodeDestination` gives no destination).  Every output period of the chain
parameters is positive: a zero period would be a division by zero. -/
structure TreasuryFundSettings where
  fundScriptPubKey : Option CScript
  nMinTreasuryStakePercent : Int
  nTreasuryOutputPeriod : Int
  nTreasuryOutputPeriod_pos : 0 < nTreasuryOutputPeriod

/-- What a failed `ConnectBlock` does: it rejects the block with a reason, or
returns false with no reason (`return error(...)`), or aborts on an assert, or
reaches undefined behaviour. -/
inductive ConnectFailure where
  | invalid (reason : String)
  | error
  | assertFailed
  | undefined (u : Undefined)
  deriving DecidableEq

/-- A computation that may be undefined, inside `ConnectBlock`. -/
def liftConnect {α : Type} (x : Defined α) : Except ConnectFailure α :=
  x.mapError .undefined

@[simp] theorem liftConnect_eq_ok {α : Type} {x : Defined α} {a : α} :
    liftConnect x = .ok a ↔ x = .ok a :=
  mapError_eq_ok

/-! ## One block -/

/-- Without a treasury share the staker takes at most the calculated reward. -/
def checkStakeReward (nStakeReward nCalculatedStakeReward : Int) : Except ConnectFailure Unit :=
  if nStakeReward < 0 || nCalculatedStakeReward < nStakeReward then .error (.invalid "bad-cs-amount")
  else .ok ()

/-- `nTreasuryBfwd`: what the previous coinstake carried forward, 0 when it
states nothing or when the previous block is the genesis block. -/
def treasuryBfwd (nHeight : Nat) (txPrevCoinstake : Option CTransaction) :
    Except ConnectFailure Int :=
  if 0 < nHeight - 1 then
    match txPrevCoinstake with
    | none => .error (.invalid "bad-cs-prev")
    | some prev =>
      if !prev.IsCoinStake then .error .assertFailed
      else
        match prev.GetTreasuryFundCfwd with
        | .error u => .error (.undefined u)
        | .ok none => .ok 0
        | .ok (some nCfwd) => .ok nCfwd.toInt
  else .ok 0

/-- `txCoinstake->vpout[1]->GetStandardOutput()`, which asserts that output 1
is standard, as it is in every coinstake. -/
def fundOutput (txCoinstake : CTransaction) : Except ConnectFailure CTxOutStandard :=
  match txCoinstake.vpout[1]? with
  | some (CTxOutBase.standard o) => .ok o
  | some _ => .error .assertFailed
  | none => .error (.undefined .outOfBounds)

theorem fundOutput_eq_ok {txCoinstake : CTransaction} {o : CTxOutStandard} :
    fundOutput txCoinstake = .ok o ↔ txCoinstake.vpout[1]? = some (.standard o) := by
  unfold fundOutput
  split <;> simp_all

/-- A payout block: the staker takes the whole reward and the carried amount,
output 1 pays the treasury at least its share and the carried amount, and no
carry-forward is stated. -/
def checkTreasuryPayout (s : TreasuryFundSettings) (nStakeReward nCalculatedStakeReward
    nMinTreasuryPart nTreasuryBfwd : Int) (txCoinstake : CTransaction) :
    Except ConnectFailure Unit := do
  if nStakeReward ≠ (← liftConnect (addInt64 nTreasuryBfwd nCalculatedStakeReward)) then
    throw (.invalid "bad-cs-amount")
  let some fundScriptPubKey := s.fundScriptPubKey | throw .error
  let outputDF ← fundOutput txCoinstake
  if outputDF.scriptPubKey ≠ fundScriptPubKey then throw (.invalid "bad-cs")
  if outputDF.nValue.toInt < (← liftConnect (addInt64 nTreasuryBfwd nMinTreasuryPart)) then
    throw (.invalid "bad-cs-fund-amount")
  if (← liftConnect txCoinstake.GetTreasuryFundCfwd).isSome then throw (.invalid "bad-cs-cfwd")

/-- Any other block: the staker takes at most the holders' part, and the
coinstake states the carried amount plus what the staker left. -/
def checkTreasuryCarry (nStakeReward nCalculatedStakeReward nMaxHolderPart nTreasuryBfwd : Int)
    (txCoinstake : CTransaction) : Except ConnectFailure Unit := do
  if nStakeReward < 0 || nMaxHolderPart < nStakeReward then throw (.invalid "bad-cs-amount")
  let nTreasuryCfwd ← liftConnect
    (addInt64 nTreasuryBfwd nCalculatedStakeReward >>= fun x => subInt64 x nStakeReward)
  match ← liftConnect txCoinstake.GetTreasuryFundCfwd with
  | some nTreasuryCfwdCheck =>
    if nTreasuryCfwdCheck.toInt ≠ nTreasuryCfwd then throw (.invalid "bad-cs-cfwd")
  | none => throw (.invalid "bad-cs-cfwd")

/-- The split between the treasury and the staker, under settings with a
positive share. -/
def checkTreasurySplit (s : TreasuryFundSettings) (nHeight : Nat)
    (nStakeReward nCalculatedStakeReward : Int) (txCoinstake : CTransaction)
    (txPrevCoinstake : Option CTransaction) : Except ConnectFailure Unit := do
  if 100 < s.nMinTreasuryStakePercent then throw .assertFailed
  let nMinTreasuryPart :=
    (← liftConnect (mulInt64 nCalculatedStakeReward s.nMinTreasuryStakePercent)).tdiv 100
  let nMaxHolderPart := nCalculatedStakeReward - nMinTreasuryPart
  if nMinTreasuryPart < 0 || nMaxHolderPart < 0 then throw (.invalid "bad-cs-amount")
  let nTreasuryBfwd ← treasuryBfwd nHeight txPrevCoinstake
  if (nHeight : Int) % s.nTreasuryOutputPeriod = 0 then
    checkTreasuryPayout s nStakeReward nCalculatedStakeReward nMinTreasuryPart nTreasuryBfwd
      txCoinstake
  else
    checkTreasuryCarry nStakeReward nCalculatedStakeReward nMaxHolderPart nTreasuryBfwd txCoinstake

/-- The treasury check of `ConnectBlock` on a proof-of-stake block at
`nHeight`, with the settings in force at its time and the coinstake of the
block before it. -/
def CheckTreasuryFund (settings : Option TreasuryFundSettings) (nHeight : Nat)
    (nStakeReward nCalculatedStakeReward : Int) (txCoinstake : CTransaction)
    (txPrevCoinstake : Option CTransaction) : Except ConnectFailure Unit :=
  match settings with
  | some s =>
    if s.nMinTreasuryStakePercent ≤ 0 then checkStakeReward nStakeReward nCalculatedStakeReward
    else checkTreasurySplit s nHeight nStakeReward nCalculatedStakeReward txCoinstake txPrevCoinstake
  | none => checkStakeReward nStakeReward nCalculatedStakeReward

/-! ## A chain of blocks -/

/-- A block as the treasury check reads it. -/
structure StakeBlock where
  nStakeReward : Int
  nCalculatedStakeReward : Int
  txCoinstake : CTransaction

/-- The treasury part of `ConnectBlock` on a block after genesis: only the
genesis block may be other than proof of stake. -/
def connectBlockTreasury (settings : Option TreasuryFundSettings) (nHeight : Nat) (b : StakeBlock)
    (txPrevCoinstake : Option CTransaction) : Except ConnectFailure Unit :=
  if b.txCoinstake.IsCoinStake then
    CheckTreasuryFund settings nHeight b.nStakeReward b.nCalculatedStakeReward b.txCoinstake
      txPrevCoinstake
  else .error (.invalid "bad-cs")

/-- `ConnectBlock` on the blocks at `nHeight`, `nHeight + 1`, ..., each
reading the coinstake of the block before it. -/
def connectTreasury (settings : Option TreasuryFundSettings) :
    Nat → Option CTransaction → List StakeBlock → Except ConnectFailure Unit
  | _, _, [] => .ok ()
  | nHeight, txPrevCoinstake, b :: bs => do
    connectBlockTreasury settings nHeight b txPrevCoinstake
    connectTreasury settings (nHeight + 1) (some b.txCoinstake) bs

/-! ## What an accepted block establishes -/

/-- The carry-forward a coinstake states, 0 when it states none. -/
def cfwdValue (tx : CTransaction) : Int :=
  match tx.GetTreasuryFundCfwd with
  | .ok (some nCfwd) => nCfwd.toInt
  | _ => 0

/-- What the block at `nHeight` brings forward: the carry-forward of the
coinstake before it, and 0 after the genesis block. -/
def bfwdValue (nHeight : Nat) (txPrevCoinstake : Option CTransaction) : Int :=
  if 0 < nHeight - 1 then (txPrevCoinstake.map cfwdValue).getD 0 else 0

theorem treasuryBfwd_eq_ok {nHeight : Nat} {txPrevCoinstake : Option CTransaction} {B : Int}
    (h : treasuryBfwd nHeight txPrevCoinstake = .ok B) : B = bfwdValue nHeight txPrevCoinstake := by
  unfold treasuryBfwd at h
  unfold bfwdValue
  split at h
  · next hgen =>
    rw [if_pos hgen]
    split at h
    · cases h
    · next prev =>
      split at h
      · cases h
      · simp only [Option.map_some, Option.getD_some, cfwdValue]
        split at h
        · cases h
        · next hnone =>
          cases h
          rw [hnone]
        · next nCfwd hcfwd =>
          cases h
          rw [hcfwd]
  · next hgen =>
    rw [if_neg hgen]
    cases h
    rfl

theorem checkTreasuryPayout_eq_ok {s : TreasuryFundSettings}
    {nStakeReward nCalculatedStakeReward nMinTreasuryPart nTreasuryBfwd : Int}
    {txCoinstake : CTransaction}
    (h : checkTreasuryPayout s nStakeReward nCalculatedStakeReward nMinTreasuryPart nTreasuryBfwd
      txCoinstake = .ok ()) :
    nStakeReward = nTreasuryBfwd + nCalculatedStakeReward ∧ cfwdValue txCoinstake = 0 ∧
      ∃ o, txCoinstake.vpout[1]? = some (.standard o) ∧ s.fundScriptPubKey = some o.scriptPubKey ∧
        nTreasuryBfwd + nMinTreasuryPart ≤ o.nValue.toInt := by
  unfold checkTreasuryPayout at h
  obtain ⟨expected, hexpected, h⟩ := bind_eq_ok h
  dsimp only at h
  split at h
  · cases h
  · next hreward =>
    cases hs : s.fundScriptPubKey with
    | none =>
      rw [hs] at h
      cases h
    | some fundScriptPubKey =>
      rw [hs] at h
      dsimp only at h
      obtain ⟨o, hout, h⟩ := bind_eq_ok h
      split at h
      · cases h
      · next hdest =>
        obtain ⟨least, hleast, h⟩ := bind_eq_ok h
        split at h
        · cases h
        · next hvalue =>
          obtain ⟨cfwd, hcfwd, h⟩ := bind_eq_ok h
          split at h
          · cases h
          · next hnone =>
            have hc : cfwd = none := by simpa using hnone
            subst hc
            refine ⟨?_, ?_, o, fundOutput_eq_ok.mp hout, by rw [Classical.not_not.mp hdest], ?_⟩
            · rw [eq_of_int64Result_eq_ok (liftConnect_eq_ok.mp hexpected)] at hreward
              exact Classical.not_not.mp hreward
            · simp [cfwdValue, liftConnect_eq_ok.mp hcfwd]
            · rw [eq_of_int64Result_eq_ok (liftConnect_eq_ok.mp hleast)] at hvalue
              exact Int.not_lt.mp hvalue

theorem checkTreasuryCarry_eq_ok
    {nStakeReward nCalculatedStakeReward nMaxHolderPart nTreasuryBfwd : Int}
    {txCoinstake : CTransaction}
    (h : checkTreasuryCarry nStakeReward nCalculatedStakeReward nMaxHolderPart nTreasuryBfwd
      txCoinstake = .ok ()) :
    0 ≤ nStakeReward ∧ nStakeReward ≤ nMaxHolderPart ∧
      cfwdValue txCoinstake = nTreasuryBfwd + nCalculatedStakeReward - nStakeReward := by
  unfold checkTreasuryCarry at h
  dsimp only at h
  split at h
  · cases h
  · next hbounds =>
    obtain ⟨nTreasuryCfwd, hcfwd, h⟩ := bind_eq_ok h
    obtain ⟨sum, hsum, hdiff⟩ := bind_eq_ok (liftConnect_eq_ok.mp hcfwd)
    obtain ⟨stated, hstated, h⟩ := bind_eq_ok h
    simp only [Bool.or_eq_true, decide_eq_true_eq, not_or, Int.not_lt] at hbounds
    refine ⟨hbounds.1, hbounds.2, ?_⟩
    split at h
    · next nTreasuryCfwdCheck =>
      split at h
      · cases h
      · next hmatch =>
        simp only [cfwdValue, liftConnect_eq_ok.mp hstated]
        rw [Classical.not_not.mp hmatch, eq_of_int64Result_eq_ok hdiff,
          eq_of_int64Result_eq_ok hsum]
    · cases h

/-- `nMinTreasuryPart` of an accepted block: the product is never negative
there, so the division rounds down. -/
def minTreasuryPart (s : TreasuryFundSettings) (nCalculatedStakeReward : Int) : Int :=
  nCalculatedStakeReward * s.nMinTreasuryStakePercent / 100

/-- What the treasury check establishes of an accepted block at `nHeight`
that brings `nTreasuryBfwd` forward. -/
structure TreasurySplit (s : TreasuryFundSettings) (nHeight : Nat) (nTreasuryBfwd : Int)
    (b : StakeBlock) : Prop where
  part_nonneg : 0 ≤ minTreasuryPart s b.nCalculatedStakeReward
  part_le : minTreasuryPart s b.nCalculatedStakeReward ≤ b.nCalculatedStakeReward
  payout : (nHeight : Int) % s.nTreasuryOutputPeriod = 0 →
    b.nStakeReward = nTreasuryBfwd + b.nCalculatedStakeReward ∧ cfwdValue b.txCoinstake = 0 ∧
      ∃ o, b.txCoinstake.vpout[1]? = some (.standard o) ∧
        s.fundScriptPubKey = some o.scriptPubKey ∧
        nTreasuryBfwd + minTreasuryPart s b.nCalculatedStakeReward ≤ o.nValue.toInt
  carry : ¬(nHeight : Int) % s.nTreasuryOutputPeriod = 0 →
    0 ≤ b.nStakeReward ∧
      b.nStakeReward ≤ b.nCalculatedStakeReward - minTreasuryPart s b.nCalculatedStakeReward ∧
      cfwdValue b.txCoinstake = nTreasuryBfwd + b.nCalculatedStakeReward - b.nStakeReward

theorem checkTreasurySplit_eq_ok {s : TreasuryFundSettings} {nHeight : Nat}
    {nStakeReward nCalculatedStakeReward : Int} {txCoinstake : CTransaction}
    {txPrevCoinstake : Option CTransaction} (hp : 0 < s.nMinTreasuryStakePercent)
    (h : checkTreasurySplit s nHeight nStakeReward nCalculatedStakeReward txCoinstake
      txPrevCoinstake = .ok ()) :
    TreasurySplit s nHeight (bfwdValue nHeight txPrevCoinstake)
      ⟨nStakeReward, nCalculatedStakeReward, txCoinstake⟩ := by
  unfold checkTreasurySplit at h
  dsimp only at h
  split at h
  · cases h
  · obtain ⟨product, hproduct, h⟩ := bind_eq_ok h
    split at h
    · cases h
    · next hbounds =>
      obtain ⟨nTreasuryBfwd, hbfwd, h⟩ := bind_eq_ok h
      rw [treasuryBfwd_eq_ok hbfwd] at h
      rw [eq_of_mulInt64_eq_ok (liftConnect_eq_ok.mp hproduct)] at h hbounds
      simp only [Bool.or_eq_true, decide_eq_true_eq, not_or, Int.not_lt] at hbounds
      -- the truncating division of the source is the floor here: both parts are
      -- not negative, so the reward, and with it the product, is not negative
      have hpart : (nCalculatedStakeReward * s.nMinTreasuryStakePercent).tdiv 100 =
          minTreasuryPart s nCalculatedStakeReward :=
        Int.tdiv_eq_ediv_of_nonneg (Int.mul_nonneg (by omega) hp.le)
      rw [hpart] at h hbounds
      refine ⟨hbounds.1, by dsimp only; omega, fun hpay => ?_, fun hcarry => ?_⟩
      · rw [if_pos hpay] at h
        exact checkTreasuryPayout_eq_ok h
      · rw [if_neg hcarry] at h
        exact checkTreasuryCarry_eq_ok h

theorem connectBlockTreasury_eq_ok {s : TreasuryFundSettings} {nHeight : Nat} {b : StakeBlock}
    {txPrevCoinstake : Option CTransaction} (hp : 0 < s.nMinTreasuryStakePercent)
    (h : connectBlockTreasury (some s) nHeight b txPrevCoinstake = .ok ()) :
    TreasurySplit s nHeight (bfwdValue nHeight txPrevCoinstake) b := by
  unfold connectBlockTreasury CheckTreasuryFund at h
  split at h
  · dsimp only at h
    rw [if_neg (Int.not_le.mpr hp)] at h
    exact checkTreasurySplit_eq_ok hp h
  · cases h

/-! ## The ledger of a chain -/

/-- The block at position `i` of an accepted run was accepted at height
`nHeight + i`, reading the coinstake of the block before it. -/
theorem connectTreasury_getElem {settings : Option TreasuryFundSettings} :
    ∀ {nHeight : Nat} {txPrevCoinstake : Option CTransaction} {blocks : List StakeBlock},
      connectTreasury settings nHeight txPrevCoinstake blocks = .ok () →
      ∀ i (hi : i < blocks.length), connectBlockTreasury settings (nHeight + i) blocks[i]
        (if i = 0 then txPrevCoinstake else blocks[i - 1]?.map (·.txCoinstake)) = .ok ()
  | _, _, [], _, i, hi => absurd hi (Nat.not_lt_zero i)
  | nHeight, txPrevCoinstake, b :: bs, h, i, hi => by
    obtain ⟨⟨⟩, hb, hbs⟩ := bind_eq_ok h
    cases i with
    | zero => simpa using hb
    | succ i =>
      have hrest := connectTreasury_getElem hbs i (by simpa using hi)
      rw [show nHeight + 1 + i = nHeight + (i + 1) by omega] at hrest
      -- the coinstake before block `i` of the tail is block `i` of the run
      cases i with
      | zero => simpa using hrest
      | succ i => simpa using hrest

/-- The amount carried forward after the first `n` blocks of a chain: what
the coinstake of block `n` states, and 0 before the first block. -/
def carried (blocks : List StakeBlock) : Nat → Int
  | 0 => 0
  | n + 1 => (blocks[n]?.map fun b => cfwdValue b.txCoinstake).getD 0

theorem carried_succ {blocks : List StakeBlock} {n : Nat} (hn : n < blocks.length) :
    carried blocks (n + 1) = cfwdValue blocks[n].txCoinstake := by
  simp [carried, List.getElem?_eq_getElem hn]

/-- A chain from height 1 brings forward what it carried: nothing after the
genesis block, and the previous coinstake's carry-forward after that. -/
theorem bfwdValue_chain (blocks : List StakeBlock) (i : Nat) :
    bfwdValue (1 + i) (if i = 0 then none else blocks[i - 1]?.map (·.txCoinstake)) =
      carried blocks i := by
  cases i with
  | zero => rfl
  | succ i =>
    simp only [bfwdValue, carried, Nat.add_sub_cancel_left, Nat.add_one_ne_zero, if_false,
      Nat.add_sub_cancel, Option.map_map]
    rfl

/-- Every block of an accepted chain from height 1 makes the split its height
asks for, with what the chain carried before it. -/
theorem connectTreasury_split {s : TreasuryFundSettings} (hp : 0 < s.nMinTreasuryStakePercent)
    {blocks : List StakeBlock} (h : connectTreasury (some s) 1 none blocks = .ok ()) (i : Nat)
    (hi : i < blocks.length) : TreasurySplit s (i + 1) (carried blocks i) blocks[i] := by
  have hblock := connectBlockTreasury_eq_ok hp (connectTreasury_getElem h i hi)
  rwa [bfwdValue_chain, Nat.add_comm] at hblock

/-- The treasury ledger of a chain accepted from height 1 under settings
with a positive share: at every height the carried amount is not negative
and is cleared at each payout height, and the stake rewards taken so far
together with it are the calculated rewards so far; a payout block pays the
fund at least the carried amount and the treasury's part, and any other block
takes at most the holders' part and carries more forward. -/
theorem connectTreasury_ledger (s : TreasuryFundSettings) (hp : 0 < s.nMinTreasuryStakePercent)
    (blocks : List StakeBlock) (h : connectTreasury (some s) 1 none blocks = .ok ()) :
    (∀ n ≤ blocks.length,
      0 ≤ carried blocks n ∧
        ((n : Int) % s.nTreasuryOutputPeriod = 0 → carried blocks n = 0) ∧
        ((blocks.map (·.nStakeReward)).take n).sum + carried blocks n =
          ((blocks.map (·.nCalculatedStakeReward)).take n).sum) ∧
      ∀ i (hi : i < blocks.length),
        (((i + 1 : Nat) : Int) % s.nTreasuryOutputPeriod = 0 →
          ∃ o, blocks[i].txCoinstake.vpout[1]? = some (.standard o) ∧
            s.fundScriptPubKey = some o.scriptPubKey ∧
            carried blocks i + minTreasuryPart s blocks[i].nCalculatedStakeReward ≤
              o.nValue.toInt) ∧
        (¬((i + 1 : Nat) : Int) % s.nTreasuryOutputPeriod = 0 →
          carried blocks i ≤ carried blocks (i + 1) ∧ 0 ≤ blocks[i].nStakeReward ∧
            blocks[i].nStakeReward ≤
              blocks[i].nCalculatedStakeReward - minTreasuryPart s blocks[i].nCalculatedStakeReward) := by
  refine ⟨fun n hn => ?_, fun i hi => ?_⟩
  · -- the ledger telescopes: induction on the number of blocks taken
    induction n with
    | zero => simp [carried]
    | succ n ih =>
      obtain ⟨hC, -, hsum⟩ := ih (by omega)
      have hn : n < blocks.length := by omega
      have hsplit := connectTreasury_split hp h n hn
      rw [List.sum_take_succ _ _ (by simpa using hn), List.sum_take_succ _ _ (by simpa using hn),
        List.getElem_map, List.getElem_map, carried_succ hn]
      by_cases hpay : ((n + 1 : Nat) : Int) % s.nTreasuryOutputPeriod = 0
      · obtain ⟨hS, hcfwd, -⟩ := hsplit.payout hpay
        refine ⟨by omega, fun _ => hcfwd, by omega⟩
      · obtain ⟨hS, hSle, hcfwd⟩ := hsplit.carry hpay
        have hpart := hsplit.part_nonneg
        refine ⟨by omega, fun h0 => absurd h0 hpay, by omega⟩
  · have hsplit := connectTreasury_split hp h i hi
    refine ⟨fun hpay => (hsplit.payout hpay).2.2, fun hcarry => ?_⟩
    obtain ⟨hS, hSle, hcfwd⟩ := hsplit.carry hcarry
    have hpart := hsplit.part_nonneg
    refine ⟨?_, hS, hSle⟩
    rw [carried_succ hi, hcfwd]
    omega

/-- A fund taking a tenth of each reward, paid out every second block. -/
def sampleTreasurySettings : TreasuryFundSettings := ⟨some [0x51], 10, 2, by decide⟩

/-- A coinstake spending one input, with the given data output and output 1. -/
def sampleCoinstake (vData : Bytes) (out : CTxOutStandard) : CTransaction :=
  ⟨[⟨⟨⟨List.replicate 32 0, rfl⟩, 0⟩, [], 0, ⟨[]⟩, ⟨[]⟩⟩], [],
    [.data ⟨vData⟩, .standard out], 0x2A0, 0⟩

/-- Block 1 takes 80 of a reward of 100 and carries 20 forward; block 2 takes
its reward and the 20, and pays 30 to the fund. -/
def sampleStakeBlocks : List StakeBlock :=
  [⟨80, 100, sampleCoinstake [1, 0, 0, 0, DO_TREASURY_FUND_CFWD, 20] ⟨80, []⟩⟩,
   ⟨120, 100, sampleCoinstake [2, 0, 0, 0] ⟨30, [0x51]⟩⟩]

theorem connectTreasury_ledger_sampleStakeBlocks :
    0 < sampleTreasurySettings.nMinTreasuryStakePercent ∧
      connectTreasury (some sampleTreasurySettings) 1 none sampleStakeBlocks = .ok () ∧
      carried sampleStakeBlocks 1 = 20 ∧
      ((sampleStakeBlocks.map (·.nStakeReward)).take 2).sum + carried sampleStakeBlocks 2 =
        ((sampleStakeBlocks.map (·.nCalculatedStakeReward)).take 2).sum := by
  have hrun : connectTreasury (some sampleTreasurySettings) 1 none sampleStakeBlocks = .ok () := by
    decide +kernel
  exact ⟨by decide, hrun, by decide +kernel,
    ((connectTreasury_ledger sampleTreasurySettings (by decide) sampleStakeBlocks hrun).1 2
      (by decide)).2.2⟩

end Globe
