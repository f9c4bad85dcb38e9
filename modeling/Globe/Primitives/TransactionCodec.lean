import Globe.Primitives.Transaction

/-!
# The transaction codec

`SerializeTransaction` and `UnserializeTransaction` (`primitives/transaction.h`)
write two formats.  A Globe transaction (low version byte at least `0xA0`) goes
out as two version bytes, the lock time, the inputs, each output behind its type
byte, and then, when the stream allows witnesses, every input's witness stack.
Any other transaction takes Bitcoin's format: four version bytes, an empty
input vector and a flag byte when there are witnesses to write, the inputs, the
`vout` outputs, the witnesses, and the lock time.  The reader decides between
the two on the first byte.

Without witnesses the Globe writer replaces the range proof of a blinded output
by an empty vector, and neither format writes witness stacks.  The Globe format
has no place for `vout`, the Bitcoin format none for `vpout`, and an input's key
images are written only for an anon input.
-/

namespace Globe

open ByteCodec UB

/-! ## Inputs and outputs -/

namespace COutPoint

def Serialize (o : COutPoint) : Bytes := o.hash.bytes ++ ser_writedata32 o.n

def Unserialize : Reader COutPoint := do
  let hash ← Reader.blob endOfData 32
  let n ← ser_readdata32
  pure ⟨hash, n⟩

end COutPoint

namespace CTxIn

/-- `SERIALIZE_METHODS(CTxIn)`: the key images of an anon input follow its
sequence number.  The witness stack is not part of the input's encoding. -/
def Serialize (txin : CTxIn) : Bytes :=
  txin.prevout.Serialize ++ serializeBytes txin.scriptSig ++ ser_writedata32 txin.nSequence ++
    if txin.IsAnonInput then serializeVector serializeBytes txin.scriptData.stack else []

/-- An input read into a default-constructed `CTxIn`: no key images unless
the outpoint marks it anon, and an empty witness. -/
def Unserialize : Reader CTxIn := do
  let prevout ← COutPoint.Unserialize
  let scriptSig ← unserializeBytes
  let nSequence ← ser_readdata32
  let stack ← if prevout.IsAnonInput then unserializeVector unserializeBytes else pure []
  pure ⟨prevout, scriptSig, nSequence, ⟨stack⟩, ⟨[]⟩⟩

end CTxIn

namespace CTxOut

def Serialize (o : CTxOut) : Bytes := serializeInt64 o.nValue ++ serializeBytes o.scriptPubKey

def Unserialize : Reader CTxOut := do
  let nValue ← unserializeInt64
  let scriptPubKey ← unserializeBytes
  pure ⟨nValue, scriptPubKey⟩

end CTxOut

namespace CTxOutBase

/-- `s << *tx.vpout[k]`: the body of an output.  Without witnesses a blinded
output's range proof is written as an empty vector. -/
def Serialize (fAllowWitness : Bool) : CTxOutBase → Bytes
  | .standard o => serializeInt64 o.nValue ++ serializeBytes o.scriptPubKey
  | .ct o =>
    o.commitment.bytes ++ serializeBytes o.vData ++ serializeBytes o.scriptPubKey ++
      if fAllowWitness then serializeBytes o.vRangeproof else WriteCompactSize 0
  | .ringct o =>
    o.pk.bytes ++ o.commitment.bytes ++ serializeBytes o.vData ++
      if fAllowWitness then serializeBytes o.vRangeproof else WriteCompactSize 0
  | .data o => serializeBytes o.vData

/-- The output `UnserializeTransaction` builds for the type byte `bv`, read
into. -/
def Unserialize (bv : UInt8) : Reader CTxOutBase :=
  if bv = OUTPUT_STANDARD then do
    let nValue ← unserializeInt64
    let scriptPubKey ← unserializeBytes
    pure (.standard ⟨nValue, scriptPubKey⟩)
  else if bv = OUTPUT_CT then do
    let commitment ← Reader.blob endOfData 33
    let vData ← unserializeBytes
    let scriptPubKey ← unserializeBytes
    let vRangeproof ← unserializeBytes
    pure (.ct ⟨commitment, vData, scriptPubKey, vRangeproof⟩)
  else if bv = OUTPUT_RINGCT then do
    let pk ← Reader.blob endOfData 33
    let commitment ← Reader.blob endOfData 33
    let vData ← unserializeBytes
    let vRangeproof ← unserializeBytes
    pure (.ringct ⟨pk, commitment, vData, vRangeproof⟩)
  else if bv = OUTPUT_DATA then do
    let vData ← unserializeBytes
    pure (.data ⟨vData⟩)
  else Reader.fail "Unknown transaction output type"

end CTxOutBase

/-! ## Transactions -/

/-- The witness stacks of the inputs, one vector of byte vectors each. -/
def witnessBytes (vin : List CTxIn) : Bytes :=
  vin.flatMap fun txin => serializeVector serializeBytes txin.scriptWitness.stack

/-- `s >> txin.scriptWitness.stack` for each input in turn. -/
def unserializeWitnesses : List CTxIn → Reader (List CTxIn)
  | [] => pure []
  | txin :: vin => do
    let stack ← unserializeVector unserializeBytes
    let vin ← unserializeWitnesses vin
    pure ({ txin with scriptWitness := ⟨stack⟩ } :: vin)

/-- `SerializeTransaction`, with `fAllowWitness` for a stream version without
`SERIALIZE_TRANSACTION_NO_WITNESS`. -/
def SerializeTransaction (fAllowWitness : Bool) (tx : CTransaction) : Bytes :=
  if IsGlobeTxVersion tx.nVersion then
    ser_writedata8 (tx.nVersion.toUInt32 &&& 0xFF).toUInt8 ++
      ser_writedata8 ((tx.nVersion.toUInt32 >>> 8) &&& 0xFF).toUInt8 ++
      ser_writedata32 tx.nLockTime ++ serializeVector CTxIn.Serialize tx.vin ++
      WriteCompactSize tx.vpout.length ++
      tx.vpout.flatMap (fun o => ser_writedata8 o.nVersion ++ o.Serialize fAllowWitness) ++
      if fAllowWitness then witnessBytes tx.vin else []
  else
    let flags : UInt8 := if fAllowWitness && tx.HasWitness then 1 else 0
    serializeInt32 tx.nVersion ++
      (if flags ≠ 0 then serializeVector CTxIn.Serialize [] ++ ser_writedata8 flags else []) ++
      serializeVector CTxIn.Serialize tx.vin ++ serializeVector CTxOut.Serialize tx.vout ++
      (if flags &&& 1 ≠ 0 then witnessBytes tx.vin else []) ++ ser_writedata32 tx.nLockTime

/-- `UnserializeTransaction` into a fresh transaction. -/
def UnserializeTransaction (fAllowWitness : Bool) : Reader CTransaction := do
  let bv ← ser_readdata8
  if GLOBE_TXN_VERSION ≤ bv.toNat then
    let bv1 ← ser_readdata8
    let nVersion := (bv.toUInt32 ||| (bv1.toUInt32 <<< 8)).toInt32
    let nLockTime ← ser_readdata32
    let vin ← unserializeVector CTxIn.Unserialize
    let nOutputs ← ReadCompactSize true
    let vpout ← Reader.count (ser_readdata8 >>= CTxOutBase.Unserialize) nOutputs
    let vin ← if fAllowWitness then unserializeWitnesses vin else pure vin
    pure ⟨vin, [], vpout, nVersion, nLockTime⟩
  else
    let b1 ← ser_readdata8
    let b2 ← ser_readdata8
    let b3 ← ser_readdata8
    let nVersion :=
      (bv.toUInt32 ||| (b1.toUInt32 <<< 8) ||| (b2.toUInt32 <<< 16) ||| (b3.toUInt32 <<< 24)).toInt32
    let vin ← unserializeVector CTxIn.Unserialize
    -- an empty input vector is the dummy of the extended format, or no inputs
    let (flags, vin, vout) ← if vin.isEmpty && fAllowWitness then do
        let flags ← ser_readdata8
        if flags ≠ 0 then do
          let vin ← unserializeVector CTxIn.Unserialize
          let vout ← unserializeVector CTxOut.Unserialize
          pure (flags, vin, vout)
        else pure (flags, vin, [])
      else do
        let vout ← unserializeVector CTxOut.Unserialize
        pure ((0 : UInt8), vin, vout)
    let (flags, vin) ← if flags &&& 1 ≠ 0 && fAllowWitness then do
        let vin ← unserializeWitnesses vin
        if !vin.any (fun txin => !txin.scriptWitness.IsNull) then
          Reader.fail "Superfluous witness record"
        else pure (flags ^^^ 1, vin)
      else pure (flags, vin)
    if flags ≠ 0 then Reader.fail "Unknown transaction optional data"
    else do
      let nLockTime ← ser_readdata32
      pure ⟨vin, vout, [], nVersion, nLockTime⟩

/-! ## What the codec keeps -/

/-- A vector of byte vectors within the size checks. -/
def StackFits (stack : List Bytes) : Prop := stack.length ≤ MAX_SIZE ∧ ∀ b ∈ stack, b.length ≤ MAX_SIZE

namespace CTxIn

/-- An input the codec reads back: its vectors fit, and only an anon input
carries key images. -/
def Streamable (txin : CTxIn) : Prop :=
  txin.scriptSig.length ≤ MAX_SIZE ∧ StackFits txin.scriptData.stack ∧
    StackFits txin.scriptWitness.stack ∧ (txin.IsAnonInput = false → txin.scriptData.stack = [])

def withoutWitness (txin : CTxIn) : CTxIn := { txin with scriptWitness := ⟨[]⟩ }

@[simp] theorem serialize_withoutWitness (txin : CTxIn) :
    txin.withoutWitness.Serialize = txin.Serialize := rfl

end CTxIn

namespace CTxOutBase

/-- An output the codec reads back: its vectors fit. -/
def Streamable : CTxOutBase → Prop
  | .standard o => o.scriptPubKey.length ≤ MAX_SIZE
  | .ct o => o.vData.length ≤ MAX_SIZE ∧ o.scriptPubKey.length ≤ MAX_SIZE ∧
      o.vRangeproof.length ≤ MAX_SIZE
  | .ringct o => o.vData.length ≤ MAX_SIZE ∧ o.vRangeproof.length ≤ MAX_SIZE
  | .data o => o.vData.length ≤ MAX_SIZE

def withoutRangeproof : CTxOutBase → CTxOutBase
  | .ct o => .ct { o with vRangeproof := [] }
  | .ringct o => .ringct { o with vRangeproof := [] }
  | o => o

end CTxOutBase

namespace CTransaction

def withoutWitness (tx : CTransaction) : CTransaction :=
  { tx with vin := tx.vin.map CTxIn.withoutWitness, vpout := tx.vpout.map CTxOutBase.withoutRangeproof }

/-- The transaction a stream carries: all of it when witnesses are allowed,
and otherwise the transaction without witness stacks and range proofs. -/
def streamed (fAllowWitness : Bool) (tx : CTransaction) : CTransaction :=
  if fAllowWitness then tx else tx.withoutWitness

/-- A transaction the codec reads back.  Every vector fits the size checks and
only anon inputs carry key images; a Globe transaction has a two-byte version
and no `vout`, any other one has inputs and no `vpout`. -/
structure Streamable (tx : CTransaction) : Prop where
  vin : tx.vin.length ≤ MAX_SIZE ∧ ∀ txin ∈ tx.vin, txin.Streamable
  vout : tx.vout.length ≤ MAX_SIZE ∧ ∀ o ∈ tx.vout, o.scriptPubKey.length ≤ MAX_SIZE
  vpout : tx.vpout.length ≤ MAX_SIZE ∧ ∀ o ∈ tx.vpout, o.Streamable
  format : if tx.IsGlobeVersion then 0 ≤ tx.nVersion.toInt ∧ tx.nVersion.toInt < 2 ^ 16 ∧ tx.vout = []
    else tx.vin ≠ [] ∧ tx.vpout = []

end CTransaction

/-! ## Reading back the parts -/

theorem readsBack_outPoint : ReadsBack COutPoint.Serialize COutPoint.Unserialize (fun _ => True) := by
  rintro ⟨hash, n⟩ rest -
  unfold COutPoint.Serialize COutPoint.Unserialize
  rw [List.append_assoc, Reader.run_bind_ok (ReadsBack.blob endOfData 32 hash _ trivial),
    Reader.run_bind_ok (readsBack_data32 n rest trivial)]
  rfl

theorem CTxIn.unserialize_serialize (txin : CTxIn) (h : txin.Streamable) (rest : Bytes) :
    CTxIn.Unserialize.run (txin.Serialize ++ rest) = .ok (txin.withoutWitness, rest) := by
  obtain ⟨prevout, scriptSig, nSequence, ⟨stack⟩, witness⟩ := txin
  obtain ⟨hsig, hdata, -, hanon⟩ := h
  simp only [CTxIn.Serialize, CTxIn.Unserialize, CTxIn.IsAnonInput, List.append_assoc]
  rw [Reader.run_bind_ok (readsBack_outPoint prevout _ trivial),
    Reader.run_bind_ok (readsBack_bytes scriptSig _ hsig),
    Reader.run_bind_ok (readsBack_data32 nSequence _ trivial)]
  by_cases hkind : prevout.IsAnonInput = true
  · simp only [hkind, if_true]
    rw [Reader.run_bind_ok (readsBack_vector readsBack_bytes stack rest hdata)]
    rfl
  · -- no key images are written, and none are read
    have hnil : stack = [] := hanon (Bool.eq_false_iff.mpr hkind)
    subst hnil
    simp only [hkind]
    rfl

/-- The inputs of a transaction, read back without their witnesses. -/
theorem run_unserializeVector_vin {vin : List CTxIn} (hlen : vin.length ≤ MAX_SIZE)
    (h : ∀ txin ∈ vin, txin.Streamable) (rest : Bytes) :
    (unserializeVector CTxIn.Unserialize).run (serializeVector CTxIn.Serialize vin ++ rest) =
      .ok (vin.map CTxIn.withoutWitness, rest) := by
  have hread : ReadsBack CTxIn.Serialize CTxIn.Unserialize
      (fun txin => txin.Streamable ∧ txin.withoutWitness = txin) := by
    rintro txin rest ⟨htxin, hw⟩
    rw [CTxIn.unserialize_serialize txin htxin rest, hw]
  have hvec := readsBack_vector hread (vin.map CTxIn.withoutWitness) rest
    ⟨by simpa using hlen, ?_⟩
  · simpa [serializeVector, List.flatMap_map] using hvec
  · intro txin hmem
    obtain ⟨t, ht, rfl⟩ := List.mem_map.mp hmem
    exact ⟨⟨(h t ht).1, (h t ht).2.1, ⟨by simp [CTxIn.withoutWitness], by simp [CTxIn.withoutWitness]⟩,
      (h t ht).2.2.2⟩, rfl⟩

theorem run_unserializeVector_vout {vout : List CTxOut} (hlen : vout.length ≤ MAX_SIZE)
    (h : ∀ o ∈ vout, o.scriptPubKey.length ≤ MAX_SIZE) (rest : Bytes) :
    (unserializeVector CTxOut.Unserialize).run (serializeVector CTxOut.Serialize vout ++ rest) =
      .ok (vout, rest) := by
  have hread : ReadsBack CTxOut.Serialize CTxOut.Unserialize
      (fun o => o.scriptPubKey.length ≤ MAX_SIZE) := by
    rintro ⟨nValue, scriptPubKey⟩ rest hs
    unfold CTxOut.Serialize CTxOut.Unserialize
    rw [List.append_assoc, Reader.run_bind_ok (readsBack_int64 nValue _ trivial),
      Reader.run_bind_ok (readsBack_bytes scriptPubKey rest hs)]
    rfl
  exact readsBack_vector hread vout rest ⟨hlen, h⟩

theorem CTxOutBase.serialize_false (o : CTxOutBase) :
    o.Serialize false = o.withoutRangeproof.Serialize true := by
  cases o <;> rfl

theorem CTxOutBase.streamable_withoutRangeproof {o : CTxOutBase} (h : o.Streamable) :
    o.withoutRangeproof.Streamable := by
  cases o with
  | ct o => exact ⟨h.1, h.2.1, by simp [MAX_SIZE]⟩
  | ringct o => exact ⟨h.1, by simp [MAX_SIZE]⟩
  | standard o => exact h
  | data o => exact h

/-- An output behind its type byte reads back as itself. -/
theorem readsBack_typedOutput :
    ReadsBack (fun o : CTxOutBase => ser_writedata8 o.nVersion ++ o.Serialize true)
      (ser_readdata8 >>= CTxOutBase.Unserialize) CTxOutBase.Streamable := by
  intro o rest h
  rw [List.append_assoc, Reader.run_bind_ok (readsBack_data8 o.nVersion _ trivial)]
  cases o with
  | standard o =>
    obtain ⟨nValue, scriptPubKey⟩ := o
    simp only [CTxOutBase.Unserialize, CTxOutBase.nVersion, CTxOutBase.Serialize, if_true,
      List.append_assoc]
    rw [Reader.run_bind_ok (readsBack_int64 nValue _ trivial),
      Reader.run_bind_ok (readsBack_bytes scriptPubKey rest h)]
    rfl
  | ct o =>
    obtain ⟨commitment, vData, scriptPubKey, vRangeproof⟩ := o
    obtain ⟨h1, h2, h3⟩ := h
    simp only [CTxOutBase.Unserialize, CTxOutBase.nVersion, CTxOutBase.Serialize, if_true,
      List.append_assoc, show OUTPUT_CT ≠ OUTPUT_STANDARD by decide, if_false]
    rw [Reader.run_bind_ok (ReadsBack.blob endOfData 33 commitment _ trivial),
      Reader.run_bind_ok (readsBack_bytes vData _ h1),
      Reader.run_bind_ok (readsBack_bytes scriptPubKey _ h2),
      Reader.run_bind_ok (readsBack_bytes vRangeproof rest h3)]
    rfl
  | ringct o =>
    obtain ⟨pk, commitment, vData, vRangeproof⟩ := o
    obtain ⟨h1, h2⟩ := h
    simp only [CTxOutBase.Unserialize, CTxOutBase.nVersion, CTxOutBase.Serialize, if_true,
      List.append_assoc, show OUTPUT_RINGCT ≠ OUTPUT_STANDARD by decide,
      show OUTPUT_RINGCT ≠ OUTPUT_CT by decide, if_false]
    rw [Reader.run_bind_ok (ReadsBack.blob endOfData 33 pk _ trivial),
      Reader.run_bind_ok (ReadsBack.blob endOfData 33 commitment _ trivial),
      Reader.run_bind_ok (readsBack_bytes vData _ h1),
      Reader.run_bind_ok (readsBack_bytes vRangeproof rest h2)]
    rfl
  | data o =>
    obtain ⟨vData⟩ := o
    simp only [CTxOutBase.Unserialize, CTxOutBase.nVersion, CTxOutBase.Serialize, if_true,
      show OUTPUT_DATA ≠ OUTPUT_STANDARD by decide, show OUTPUT_DATA ≠ OUTPUT_CT by decide,
      show OUTPUT_DATA ≠ OUTPUT_RINGCT by decide, if_false]
    rw [Reader.run_bind_ok (readsBack_bytes vData rest h)]
    rfl

theorem run_unserializeWitnesses (vin : List CTxIn)
    (h : ∀ txin ∈ vin, StackFits txin.scriptWitness.stack) (rest : Bytes) :
    (unserializeWitnesses (vin.map CTxIn.withoutWitness)).run (witnessBytes vin ++ rest) =
      .ok (vin, rest) := by
  induction vin with
  | nil => rfl
  | cons txin vin ih =>
    have hw := h txin List.mem_cons_self
    simp only [List.map_cons, unserializeWitnesses, witnessBytes, List.flatMap_cons,
      List.append_assoc]
    rw [Reader.run_bind_ok (readsBack_vector readsBack_bytes _ _ hw)]
    rw [witnessBytes] at ih
    rw [Reader.run_bind_ok (ih fun t ht => h t (List.mem_cons_of_mem txin ht))]
    rfl

theorem run_count_vpout (fAllowWitness : Bool) {vpout : List CTxOutBase}
    (h : ∀ o ∈ vpout, o.Streamable) (rest : Bytes) :
    (Reader.count (ser_readdata8 >>= CTxOutBase.Unserialize) vpout.length).run
        (vpout.flatMap (fun o => ser_writedata8 o.nVersion ++ o.Serialize fAllowWitness) ++ rest) =
      .ok (if fAllowWitness then vpout else vpout.map CTxOutBase.withoutRangeproof, rest) := by
  cases fAllowWitness with
  | true => exact ReadsBack.count readsBack_typedOutput vpout.length vpout rest ⟨rfl, h⟩
  | false =>
    -- without witnesses the outputs are written as if their range proofs were empty
    have hbytes : vpout.flatMap (fun o => ser_writedata8 o.nVersion ++ o.Serialize false) =
        (vpout.map CTxOutBase.withoutRangeproof).flatMap
          (fun o => ser_writedata8 o.nVersion ++ o.Serialize true) := by
      rw [List.flatMap_map]
      refine List.flatMap_congr fun o _ => ?_
      rw [CTxOutBase.serialize_false]
      cases o <;> rfl
    have hread := ReadsBack.count readsBack_typedOutput vpout.length
      (vpout.map CTxOutBase.withoutRangeproof) rest
      ⟨List.length_map _, fun o ho => by
        obtain ⟨o', ho', rfl⟩ := List.mem_map.mp ho
        exact CTxOutBase.streamable_withoutRangeproof (h o' ho')⟩
    rw [hbytes]
    exact hread

/-! ## Version bytes -/

theorem or_mul_two_pow_eq_add {x d k : Nat} (hx : x < 2 ^ k) : x ||| d * 2 ^ k = x + d * 2 ^ k := by
  rw [Nat.or_comm, Nat.mul_comm, ← Nat.two_pow_add_eq_or_of_lt hx]
  omega

theorem toNat_lowByte (v : UInt32) : (v &&& 0xFF).toUInt8.toNat = v.toNat % 256 := by
  rw [UInt32.toNat_toUInt8, UInt32.toNat_and, show (0xFF : UInt32).toNat = 2 ^ 8 - 1 from rfl,
    Nat.and_two_pow_sub_one_eq_mod, Nat.mod_mod]

/-- A byte moved up by at most 24 bits stays within 32 bits. -/
theorem toNat_byte_shiftLeft (b : UInt8) {k : UInt32} (hk : k.toNat ≤ 24) :
    (b.toUInt32 <<< k).toNat = b.toNat * 2 ^ k.toNat := by
  have hb := b.toNat_lt
  have hpow : 2 ^ k.toNat ≤ 2 ^ 24 := Nat.pow_le_pow_right (by omega) hk
  rw [UInt32.toNat_shiftLeft, UInt8.toNat_toUInt32, Nat.mod_eq_of_lt (show k.toNat < 32 by omega),
    Nat.shiftLeft_eq, Nat.mod_eq_of_lt]
  calc b.toNat * 2 ^ k.toNat < 2 ^ 8 * 2 ^ 24 :=
        Nat.mul_lt_mul_of_lt_of_le hb hpow (Nat.two_pow_pos _)
    _ = 2 ^ 32 := by rw [← Nat.pow_add]

theorem globe_lowByte {v : Int32} (h : IsGlobeTxVersion v = true) :
    GLOBE_TXN_VERSION ≤ (v.toUInt32 &&& 0xFF).toUInt8.toNat := by
  have hlow : (v.toUInt32 &&& 0xFF).toNat = (v.toUInt32 &&& 0xFF).toUInt8.toNat := by
    rw [toNat_lowByte, UInt32.toNat_and, show (0xFF : UInt32).toNat = 2 ^ 8 - 1 from rfl,
      Nat.and_two_pow_sub_one_eq_mod]
  rw [← hlow]
  exact of_decide_eq_true h

theorem toNat_toUInt32_of_nonneg {x : Int32} (h0 : 0 ≤ x.toInt) :
    (x.toUInt32.toNat : Int) = x.toInt := by
  rw [← Int32.toNat_toBitVec, Int32.toInt, BitVec.toInt_eq_toNat_cond]
  split
  · rfl
  · next h =>
    have := x.toBitVec.isLt
    rw [Int32.toInt, BitVec.toInt_eq_toNat_cond, if_neg h] at h0
    omega

/-- The two version bytes of the Globe format put back together. -/
theorem globeVersion_bytes {v : Int32} (hv : 0 ≤ v.toInt ∧ v.toInt < 2 ^ 16) :
    ((v.toUInt32 &&& 0xFF).toUInt8.toUInt32 |||
      (((v.toUInt32 >>> 8) &&& 0xFF).toUInt8.toUInt32 <<< 8)).toInt32 = v := by
  have hn : v.toUInt32.toNat < 2 ^ 16 := by
    have := toNat_toUInt32_of_nonneg hv.1
    omega
  have hhigh : ((v.toUInt32 >>> 8) &&& 0xFF).toUInt8.toNat = v.toUInt32.toNat / 256 % 256 := by
    rw [toNat_lowByte, UInt32.toNat_shiftRight, Nat.shiftRight_eq_div_pow]
    rfl
  have hbytes : (v.toUInt32 &&& 0xFF).toUInt8.toUInt32 |||
      (((v.toUInt32 >>> 8) &&& 0xFF).toUInt8.toUInt32 <<< 8) = v.toUInt32 := by
    apply UInt32.toNat_inj.mp
    rw [UInt32.toNat_or, toNat_byte_shiftLeft _ (by decide), UInt8.toNat_toUInt32, toNat_lowByte,
      hhigh, show (8 : UInt32).toNat = 8 from rfl, or_mul_two_pow_eq_add (by omega)]
    omega
  rw [hbytes, Int32.toInt32_toUInt32]

/-- The four version bytes of the Bitcoin format put back together. -/
theorem bitcoinVersion_bytes (v : Int32) :
    ((UInt8.ofNat (v.toUInt32.toNat % 256)).toUInt32 |||
      ((UInt8.ofNat (v.toUInt32.toNat / 256 % 256)).toUInt32 <<< 8) |||
      ((UInt8.ofNat (v.toUInt32.toNat / 256 / 256 % 256)).toUInt32 <<< 16) |||
      ((UInt8.ofNat (v.toUInt32.toNat / 256 / 256 / 256 % 256)).toUInt32 <<< 24)).toInt32 = v := by
  have hn := v.toUInt32.toNat_lt
  have hbytes : (UInt8.ofNat (v.toUInt32.toNat % 256)).toUInt32 |||
      ((UInt8.ofNat (v.toUInt32.toNat / 256 % 256)).toUInt32 <<< 8) |||
      ((UInt8.ofNat (v.toUInt32.toNat / 256 / 256 % 256)).toUInt32 <<< 16) |||
      ((UInt8.ofNat (v.toUInt32.toNat / 256 / 256 / 256 % 256)).toUInt32 <<< 24) = v.toUInt32 := by
    apply UInt32.toNat_inj.mp
    rw [UInt32.toNat_or, UInt32.toNat_or, UInt32.toNat_or, toNat_byte_shiftLeft _ (by decide),
      toNat_byte_shiftLeft _ (by decide), toNat_byte_shiftLeft _ (by decide), UInt8.toNat_toUInt32]
    simp only [UInt8.toNat_ofNat', show (8 : UInt32).toNat = 8 from rfl,
      show (16 : UInt32).toNat = 16 from rfl, show (24 : UInt32).toNat = 24 from rfl]
    rw [or_mul_two_pow_eq_add (k := 8) (by omega), or_mul_two_pow_eq_add (k := 16) (by omega),
      or_mul_two_pow_eq_add (k := 24) (by omega)]
    omega
  rw [hbytes, Int32.toInt32_toUInt32]

theorem bitcoin_lowByte {v : Int32} (h : IsGlobeTxVersion v = false) :
    ¬GLOBE_TXN_VERSION ≤ (UInt8.ofNat (v.toUInt32.toNat % 256)).toNat := by
  have hlow : (v.toUInt32 &&& 0xFF).toNat = (UInt8.ofNat (v.toUInt32.toNat % 256)).toNat := by
    rw [UInt32.toNat_and, show (0xFF : UInt32).toNat = 2 ^ 8 - 1 from rfl,
      Nat.and_two_pow_sub_one_eq_mod, UInt8.toNat_ofNat', Nat.mod_mod]
  rw [← hlow]
  exact of_decide_eq_false h

/-! ## Round trips -/

theorem unserialize_serialize_globe (fAllowWitness : Bool) {tx : CTransaction}
    (hG : tx.IsGlobeVersion = true) (hv : 0 ≤ tx.nVersion.toInt ∧ tx.nVersion.toInt < 2 ^ 16)
    (hvout : tx.vout = []) (hvin : tx.vin.length ≤ MAX_SIZE ∧ ∀ txin ∈ tx.vin, txin.Streamable)
    (hvpout : tx.vpout.length ≤ MAX_SIZE ∧ ∀ o ∈ tx.vpout, o.Streamable) (rest : Bytes) :
    (UnserializeTransaction fAllowWitness).run (SerializeTransaction fAllowWitness tx ++ rest) =
      .ok (tx.streamed fAllowWitness, rest) := by
  obtain ⟨vin, vout, vpout, nVersion, nLockTime⟩ := tx
  simp only [CTransaction.IsGlobeVersion] at hG
  subst hvout
  rw [SerializeTransaction, if_pos hG]
  simp only [List.append_assoc]
  unfold UnserializeTransaction
  rw [Reader.run_bind_ok (readsBack_data8 _ _ trivial), if_pos (globe_lowByte hG),
    Reader.run_bind_ok (readsBack_data8 _ _ trivial)]
  simp only [globeVersion_bytes hv]
  rw [Reader.run_bind_ok (readsBack_data32 _ _ trivial),
    Reader.run_bind_ok (run_unserializeVector_vin hvin.1 hvin.2 _),
    Reader.run_bind_ok (readsBack_compactSize _ _ hvpout.1),
    Reader.run_bind_ok (run_count_vpout fAllowWitness hvpout.2 _)]
  cases fAllowWitness with
  | false => rfl
  | true =>
    simp only [if_true]
    rw [Reader.run_bind_ok (run_unserializeWitnesses vin (fun t ht => (hvin.2 t ht).2.2.1) rest)]
    rfl

theorem run_readdata8_cons (b : UInt8) (rest : Bytes) :
    ser_readdata8.run (b :: rest) = .ok (b, rest) :=
  rfl

/-- Inputs without witness data are their own witness-free copies. -/
theorem map_withoutWitness_of_hasWitness {vin : List CTxIn}
    (h : vin.any (fun txin => !txin.scriptWitness.IsNull) = false) :
    vin.map CTxIn.withoutWitness = vin := by
  conv_rhs => rw [← List.map_id vin]
  refine List.map_congr_left fun txin htxin => ?_
  have hnull := List.any_eq_false.mp h txin htxin
  obtain ⟨prevout, scriptSig, nSequence, scriptData, ⟨stack⟩⟩ := txin
  simp [CScriptWitness.IsNull] at hnull
  simp only [CTxIn.withoutWitness, id, hnull]

theorem unserialize_serialize_bitcoin (fAllowWitness : Bool) {tx : CTransaction}
    (hG : tx.IsGlobeVersion = false) (hne : tx.vin ≠ [])
    (hvin : tx.vin.length ≤ MAX_SIZE ∧ ∀ txin ∈ tx.vin, txin.Streamable)
    (hvout : tx.vout.length ≤ MAX_SIZE ∧ ∀ o ∈ tx.vout, o.scriptPubKey.length ≤ MAX_SIZE)
    (rest : Bytes) :
    (UnserializeTransaction fAllowWitness).run (SerializeTransaction fAllowWitness tx ++ rest) =
      .ok ({ tx.streamed fAllowWitness with vpout := [] }, rest) := by
  obtain ⟨vin, vout, vpout, nVersion, nLockTime⟩ := tx
  simp only [CTransaction.IsGlobeVersion] at hG
  simp only at hne hvin hvout
  have hver : serializeInt32 nVersion = [UInt8.ofNat (nVersion.toUInt32.toNat % 256),
      UInt8.ofNat (nVersion.toUInt32.toNat / 256 % 256),
      UInt8.ofNat (nVersion.toUInt32.toNat / 256 / 256 % 256),
      UInt8.ofNat (nVersion.toUInt32.toNat / 256 / 256 / 256 % 256)] := rfl
  have hvin' := run_unserializeVector_vin hvin.1 hvin.2
  have hvout' := run_unserializeVector_vout hvout.1 hvout.2
  rw [SerializeTransaction, if_neg (by simp [hG])]
  simp only [List.append_assoc, hver, List.cons_append, List.nil_append]
  unfold UnserializeTransaction
  rw [Reader.run_bind_ok (run_readdata8_cons _ _), if_neg (bitcoin_lowByte hG),
    Reader.run_bind_ok (run_readdata8_cons _ _), Reader.run_bind_ok (run_readdata8_cons _ _),
    Reader.run_bind_ok (run_readdata8_cons _ _)]
  simp only [bitcoinVersion_bytes]
  cases hw : (fAllowWitness && CTransaction.HasWitness ⟨vin, vout, vpout, nVersion, nLockTime⟩)
  · -- no flag byte: the inputs, then the outputs
    have hisEmpty : (vin.map CTxIn.withoutWitness).isEmpty = false := by
      simpa using hne
    have hand : (0 : UInt8) &&& 1 = 0 := by decide
    simp only [if_false, Bool.false_eq_true, ne_eq, not_true_eq_false, hand, List.nil_append]
    rw [Reader.run_bind_ok (hvin' _)]
    simp only [hisEmpty, Bool.false_and, Bool.false_eq_true, if_false]
    rw [Reader.run_bind_ok (hvout' _)]
    simp only [pure_bind, hand, not_true_eq_false, decide_false, Bool.false_and, Bool.false_eq_true,
      if_false]
    rw [Reader.run_bind_ok (readsBack_data32 _ _ trivial)]
    cases fAllowWitness with
    | false => rfl
    | true =>
      -- the witnesses were not written because there are none
      rw [map_withoutWitness_of_hasWitness (by simpa [CTransaction.HasWitness] using hw)]
      rfl
  · -- a flag byte behind an empty input vector, and the witnesses after the outputs
    obtain ⟨rfl, hwit⟩ := Bool.and_eq_true_iff.mp hw
    have hnone := @run_unserializeVector_vin [] (Nat.zero_le _) (by simp)
    have hone : (1 : UInt8) &&& 1 = 1 := by decide
    have hne0 : (1 : UInt8) ≠ 0 := by decide
    simp only [if_true, ne_eq, hne0, not_false_eq_true, List.append_assoc]
    rw [Reader.run_bind_ok (hnone _)]
    simp only [List.map_nil, List.isEmpty_nil, Bool.and_self, if_true]
    rw [Reader.run_bind_ok (readsBack_data8 _ _ trivial)]
    simp only [hne0, not_false_eq_true, if_true]
    rw [Reader.run_bind_ok (hvin' _), Reader.run_bind_ok (hvout' _)]
    simp only [pure_bind, hone, hne0, not_false_eq_true, decide_true, Bool.and_self, if_true]
    rw [Reader.run_bind_ok (run_unserializeWitnesses vin (fun t ht => (hvin.2 t ht).2.2.1) _)]
    have hxor : (1 : UInt8) ^^^ 1 = 0 := by decide
    simp only [show vin.any (fun txin => !txin.scriptWitness.IsNull) = true from hwit,
      Bool.not_true, Bool.false_eq_true, if_false, hxor, not_true_eq_false]
    rw [Reader.run_bind_ok (readsBack_data32 _ _ trivial)]
    rfl

/-- Whatever the stream allows, a streamable transaction is read back from its
bytes as the transaction the stream carries, and the bytes after it are left. -/
theorem unserialize_serializeTransaction (fAllowWitness : Bool) {tx : CTransaction}
    (h : tx.Streamable) (rest : Bytes) :
    (UnserializeTransaction fAllowWitness).run (SerializeTransaction fAllowWitness tx ++ rest) =
      .ok (tx.streamed fAllowWitness, rest) := by
  have hformat := h.format
  cases hG : tx.IsGlobeVersion with
  | true =>
    rw [hG, if_pos rfl] at hformat
    exact unserialize_serialize_globe fAllowWitness hG ⟨hformat.1, hformat.2.1⟩ hformat.2.2 h.vin
      h.vpout rest
  | false =>
    -- Bitcoin's format has no place for vpout, which is empty here
    rw [hG, if_neg Bool.false_ne_true] at hformat
    rw [unserialize_serialize_bitcoin fAllowWitness hG hformat.1 h.vin h.vout rest]
    obtain ⟨vin, vout, vpout, nVersion, nLockTime⟩ := tx
    obtain rfl : vpout = [] := hformat.2
    cases fAllowWitness <;> rfl

/-- A Globe transaction: one input with a witness stack, one data output. -/
def sampleGlobeTx : CTransaction :=
  ⟨[⟨⟨Blob.zero 32, 0⟩, [], 0, ⟨[]⟩, ⟨[[1]]⟩⟩], [], [.data ⟨[7]⟩], 0xA0, 0⟩

theorem sampleGlobeTx_streamable : sampleGlobeTx.Streamable where
  vin := ⟨by decide, by simp [sampleGlobeTx, CTxIn.Streamable, StackFits, MAX_SIZE]⟩
  vout := ⟨by decide, by simp [sampleGlobeTx]⟩
  vpout := ⟨by decide, by simp [sampleGlobeTx, CTxOutBase.Streamable, MAX_SIZE]⟩
  format := by decide

theorem unserialize_serialize_sampleGlobeTx :
    sampleGlobeTx.Streamable ∧
      (UnserializeTransaction true).run (SerializeTransaction true sampleGlobeTx ++ []) =
        .ok (sampleGlobeTx.streamed true, []) :=
  ⟨sampleGlobeTx_streamable,
    unserialize_serializeTransaction true sampleGlobeTx_streamable []⟩

/-- A Bitcoin-format transaction with an input and a data output. -/
def sampleBitcoinTx : CTransaction :=
  ⟨[⟨⟨Blob.zero 32, 0⟩, [], 0, ⟨[]⟩, ⟨[]⟩⟩], [], [.data ⟨[7]⟩], 2, 0⟩

theorem bitcoin_format_drops_vpout :
    sampleBitcoinTx.IsGlobeVersion = false ∧ sampleBitcoinTx.vin ≠ [] ∧
      (UnserializeTransaction true).run (SerializeTransaction true sampleBitcoinTx) =
        .ok ({ sampleBitcoinTx with vpout := [] }, []) ∧
      { sampleBitcoinTx with vpout := [] } ≠ sampleBitcoinTx := by
  have hG : sampleBitcoinTx.IsGlobeVersion = false := by decide
  have hvin : sampleBitcoinTx.vin ≠ [] := by simp [sampleBitcoinTx]
  have hrun := unserialize_serialize_bitcoin true hG hvin
    ⟨by decide, by simp [sampleBitcoinTx, CTxIn.Streamable, StackFits]⟩
    ⟨by decide, by simp [sampleBitcoinTx]⟩ []
  rw [List.append_nil] at hrun
  exact ⟨hG, hvin, hrun, by simp [sampleBitcoinTx]⟩

end Globe
