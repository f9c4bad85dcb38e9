import Globe.Serialize

/-!
# Transactions

`primitives/transaction.h` and `transaction.cpp`: outpoints, inputs, the
Bitcoin output `CTxOut`, the four Globe output classes behind `CTxOutBase`,
and `CTransaction` with the accessors the validation code calls.

A `CTxOutBase` in the source is a base class whose `nVersion` byte names the
derived class, and every constructor and the deserializer set the byte to the
class being built.  Here the output is an inductive with one constructor per
class and `nVersion` is computed from the constructor, so an output whose byte
disagrees with its class cannot be built.

Amounts are stored as `Int64`, as in the source, and summed in `Int`: every sum
the validation code forms is range-checked before it could leave 64 bits.
-/

namespace Globe

open ByteCodec UB

/-! ## Amounts -/

/-- `CAmount`, as the integers in which amounts are added and compared. -/
abbrev CAmount := Int

def COIN : Int := 100000000
def MAX_MONEY : Int := 21000000 * COIN

def MoneyRange (nValue : Int) : Bool := decide (0 ≤ nValue ∧ nValue ≤ MAX_MONEY)

theorem moneyRange_iff (n : Int) : MoneyRange n = true ↔ 0 ≤ n ∧ n ≤ MAX_MONEY := by
  simp [MoneyRange]

/-! ## Constants -/

def GLOBE_TXN_VERSION : Nat := 0xA0

def OUTPUT_STANDARD : UInt8 := 1
def OUTPUT_CT : UInt8 := 2
def OUTPUT_RINGCT : UInt8 := 3
def OUTPUT_DATA : UInt8 := 4

def TXN_STANDARD : Nat := 0
def TXN_COINBASE : Nat := 1
def TXN_COINSTAKE : Nat := 2

def DO_VOTE : UInt8 := 5
def DO_FEE : UInt8 := 6
def DO_TREASURY_FUND_CFWD : UInt8 := 7
def DO_FUND_MSG : UInt8 := 8
def DO_SMSG_FEE : UInt8 := 9
def DO_SMSG_DIFFICULTY : UInt8 := 10
def DO_MASK : UInt8 := 11

/-- `IsGlobeTxVersion`: the low byte of the version is at least 0xA0. -/
def IsGlobeTxVersion (nVersion : Int32) : Bool :=
  decide (GLOBE_TXN_VERSION ≤ (nVersion.toUInt32 &&& 0xFF).toNat)

/-! ## Outpoints, inputs and outputs -/

abbrev uint256 := Blob 32
abbrev CScript := Bytes

def uint256.IsNull (h : uint256) : Bool := h.bytes.all (· == 0)

structure COutPoint where
  hash : uint256
  n : UInt32
  deriving DecidableEq

namespace COutPoint

def ANON_MARKER : UInt32 := 0xffffffa0
def NULL_INDEX : UInt32 := 0xffffffff

def IsNull (o : COutPoint) : Bool := o.hash.IsNull && o.n == NULL_INDEX
def IsAnonInput (o : COutPoint) : Bool := o.n == ANON_MARKER

end COutPoint

structure CScriptWitness where
  stack : List Bytes
  deriving DecidableEq

def CScriptWitness.IsNull (w : CScriptWitness) : Bool := w.stack.isEmpty

structure CTxIn where
  prevout : COutPoint
  scriptSig : CScript
  nSequence : UInt32
  /-- Key images when the input is anon. -/
  scriptData : CScriptWitness
  scriptWitness : CScriptWitness
  deriving DecidableEq

namespace CTxIn

def IsAnonInput (txin : CTxIn) : Bool := txin.prevout.IsAnonInput

/-- `GetAnonInfo`: an anon input keeps its input count and ring size in the
first eight bytes of the prevout hash, little-endian. -/
def GetAnonInfo (txin : CTxIn) : UInt32 × UInt32 :=
  (UInt32.ofNat (leValue (txin.prevout.hash.bytes.take 4)),
   UInt32.ofNat (leValue ((txin.prevout.hash.bytes.drop 4).take 4)))

end CTxIn

structure CTxOut where
  nValue : Int64
  scriptPubKey : CScript
  deriving DecidableEq

structure CTxOutStandard where
  nValue : Int64
  scriptPubKey : CScript
  deriving DecidableEq

structure CTxOutCT where
  commitment : Blob 33
  /-- The ephemeral public key, and possibly a stealth prefix. -/
  vData : Bytes
  scriptPubKey : CScript
  vRangeproof : Bytes
  deriving DecidableEq

structure CTxOutRingCT where
  pk : Blob 33
  commitment : Blob 33
  vData : Bytes
  vRangeproof : Bytes
  deriving DecidableEq

structure CTxOutData where
  vData : Bytes
  deriving DecidableEq

inductive CTxOutBase where
  | standard (o : CTxOutStandard)
  | ct (o : CTxOutCT)
  | ringct (o : CTxOutRingCT)
  | data (o : CTxOutData)
  deriving DecidableEq

namespace CTxOutBase

def nVersion : CTxOutBase → UInt8
  | .standard _ => OUTPUT_STANDARD
  | .ct _ => OUTPUT_CT
  | .ringct _ => OUTPUT_RINGCT
  | .data _ => OUTPUT_DATA

def IsStandardOutput (o : CTxOutBase) : Bool := o.nVersion == OUTPUT_STANDARD

/-- `GetValue` is meant for standard outputs; on the others the source's
commented-out switch is gone and it returns 0. -/
def GetValue : CTxOutBase → Int64
  | .standard o => o.nValue
  | _ => 0

def GetPCommitment : CTxOutBase → Option (Blob 33)
  | .ct o => some o.commitment
  | .ringct o => some o.commitment
  | _ => none

def GetPData : CTxOutBase → Option Bytes
  | .ct o => some o.vData
  | .ringct o => some o.vData
  | .data o => some o.vData
  | _ => none

def GetPScriptPubKey : CTxOutBase → Option CScript
  | .standard o => some o.scriptPubKey
  | .ct o => some o.scriptPubKey
  | _ => none

end CTxOutBase

structure CTransaction where
  vin : List CTxIn
  vout : List CTxOut
  vpout : List CTxOutBase
  nVersion : Int32
  nLockTime : UInt32
  deriving DecidableEq

/-! ## Accessors -/

namespace CTransaction

def IsGlobeVersion (tx : CTransaction) : Bool := IsGlobeTxVersion tx.nVersion

def GetGlobeVersion (tx : CTransaction) : Nat := (tx.nVersion.toUInt32 &&& 0xFF).toNat

def GetType (tx : CTransaction) : Nat := ((tx.nVersion.toUInt32 >>> 8) &&& 0xFF).toNat

def IsCoinBase (tx : CTransaction) : Bool :=
  if tx.IsGlobeVersion then
    tx.GetType == TXN_COINBASE && tx.vin.length == 1 && (tx.vin.head?.map (·.prevout.IsNull)) == some true
  else tx.vin.length == 1 && (tx.vin.head?.map (·.prevout.IsNull)) == some true

def IsCoinStake (tx : CTransaction) : Bool :=
  match tx.vpout with
  | o₀ :: o₁ :: _ =>
    tx.GetType == TXN_COINSTAKE && !tx.vin.isEmpty &&
      o₀.nVersion == OUTPUT_DATA && o₁.nVersion == OUTPUT_STANDARD
  | _ => false

def HasWitness (tx : CTransaction) : Bool := tx.vin.any (fun txin => !txin.scriptWitness.IsNull)

/-- The fee a blinded transaction states in its first output: `DO_FEE`
followed by a varint, read into a `CAmount`. -/
def GetCTFee (tx : CTransaction) : Defined (Option Int64) :=
  match tx.vpout with
  | .data d :: _ :: _ =>
    if d.vData.length < 2 || d.vData.head? != some DO_FEE then .ok none
    else do
      let (rv, nFee, _) ← part.GetVarInt d.vData 1 0 0
      pure (if rv = 0 then some nFee.toInt64 else none)
  | _ => .ok none

/-- One step of the accumulation shared by `GetValueOut` and
`GetPlainValueOut`: add a standard value, or throw when the value or the sum
leaves the money range. -/
def addValueOut (func : String) (nValueOut : Int) (nValue : Int) : Except String Int :=
  if !MoneyRange nValue || !MoneyRange (nValueOut + nValue) then
    .error (func ++ ": value out of range")
  else .ok (nValueOut + nValue)

/-- One output's contribution to `GetPlainValueOut`: the running sum and the
standard, CT and RingCT counts. -/
def plainValueOutStep (acc : Int × Nat × Nat × Nat) :
    CTxOutBase → Except String (Int × Nat × Nat × Nat)
  | .ct _ => .ok (acc.1, acc.2.1, acc.2.2.1 + 1, acc.2.2.2)
  | .ringct _ => .ok (acc.1, acc.2.1, acc.2.2.1, acc.2.2.2 + 1)
  | .data _ => .ok acc
  | .standard o => do
    let v ← addValueOut "GetPlainValueOut" acc.1 o.nValue.toInt
    pure (v, acc.2.1 + 1, acc.2.2.1, acc.2.2.2)

/-- `GetPlainValueOut(nStandard, nCT, nRingCT)`: the sum of the standard
outputs, adding the output counts to the three accumulators, which it does not
clear.  It throws on a value out of range. -/
def GetPlainValueOut (tx : CTransaction) (nStandard nCT nRingCT : Nat) :
    Except String (Int × Nat × Nat × Nat) :=
  tx.vpout.foldlM plainValueOutStep (0, nStandard, nCT, nRingCT)

/-- `GetValueOut`: the `vout` values and then the standard `vpout` values. -/
def GetValueOut (tx : CTransaction) : Except String Int := do
  let a ← tx.vout.foldlM (fun s o => addValueOut "GetValueOut" s o.nValue.toInt) 0
  tx.vpout.foldlM
    (fun s o => if o.IsStandardOutput then addValueOut "GetValueOut" s o.GetValue.toInt else .ok s) a

/-- The amounts one funding data output carries: after the `DO_FUND_MSG` byte,
24-byte records whose last four bytes are an amount. -/
def smsgFeesStep (smsg_fees : Int) : CTxOutBase → Int
  | .data txd =>
    if txd.vData.length < 25 || txd.vData.head? != some DO_FUND_MSG then smsg_fees
    else
      List.foldl (fun acc k => acc + leValue ((txd.vData.drop (1 + k * 24 + 20)).take 4))
        smsg_fees (List.range ((txd.vData.length - 1) / 24))
  | _ => smsg_fees

/-- `GetTotalSMSGFees`. -/
def GetTotalSMSGFees (tx : CTransaction) : Int := tx.vpout.foldl smsgFeesStep 0

end CTransaction

end Globe
