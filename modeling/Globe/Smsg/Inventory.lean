import Globe.Serialize

/-!
# Secure-message inventories

`smsg/smessage.cpp`: the fixed-width fields of the secure-message protocol
(`memput_int64_le`, `memget_int64_le`, `memput_uint32_le`, `memget_uint32_le`),
the `SMSG_INV` payload that `CSMSG::SendData` builds from the buckets it shows a
peer, and the records `CSMSG::ReceiveData` reads back from it.

A bucket time goes out as eight bytes, but `memget_int64_le` is declared to
return `uint32_t`: the reader keeps the low 32 bits of the time and the
caller's `int64_t` holds them zero-extended.  Every time below `2 ^ 32` and at
least 0 comes back as itself (`readTime_eq_iff`), and no other does.
-/

namespace Globe

open ByteCodec UB

/-! ## Fields -/

/-- `memput_int64_le(p, v)`: the eight little-endian bytes of `v`. -/
def memput_int64_le (v : Int64) : Bytes := leBytes 8 v.toUInt64.toNat

/-- `memget_int64_le(p)` at `ofs`: eight little-endian bytes, returned as a
`uint32_t`. -/
def memget_int64_le (v : Bytes) (ofs : Nat) : Defined UInt32 := do
  let bs ← window v ofs 8
  pure (UInt64.ofNat (leValue bs)).toUInt32

def memput_uint32_le (v : UInt32) : Bytes := leBytes 4 v.toNat

def memget_uint32_le (v : Bytes) (ofs : Nat) : Defined UInt32 := do
  let bs ← window v ofs 4
  pure (UInt32.ofNat (leValue bs))

/-- The `int64_t` a caller stores the `uint32_t` of `memget_int64_le` in. -/
def timeOfUInt32 (x : UInt32) : Int64 := x.toUInt64.toInt64

/-! ## The inventory a node sends -/

/-- The fields of `SecMsgBucket` that `SendData` reads. -/
structure SecMsgBucket where
  nActive : UInt32
  hash : UInt32
  timeChanged : Int64

/-- One bucket record of `SMSG_INV`: time, message count and hash. -/
def invRecord (time : Int64) (nMessages hash : UInt32) : Bytes :=
  memput_int64_le time ++ memput_uint32_le nMessages ++ memput_uint32_le hash

/-- The buckets `SendData` shows: changed since the peer was last matched,
and not empty.  `buckets` is the node's map in key order. -/
def shownBuckets (buckets : List (Int64 × SecMsgBucket)) (lastMatched : Int64) :
    List (Int64 × SecMsgBucket) :=
  buckets.filter fun b => !(b.2.timeChanged < lastMatched || b.2.nActive < 1)

/-- The `SMSG_INV` payload `SendData` pushes: the count `nBucketsShown`, then
one record per shown bucket, or nothing when the count is 0. -/
def SendInv (buckets : List (Int64 × SecMsgBucket)) (lastMatched m_last_changed : Int64) :
    Option Bytes :=
  let shown := if lastMatched ≤ m_last_changed then shownBuckets buckets lastMatched else []
  let nBucketsShown : UInt32 := UInt32.ofNat shown.length
  if 0 < nBucketsShown then
    some (memput_uint32_le nBucketsShown ++ shown.flatMap fun b => invRecord b.1 b.2.nActive b.2.hash)
  else none

/-! ## The inventory a node receives -/

/-- The bucket length and the retention of a node; the length is not zero. -/
structure SmsgParams where
  SMSG_BUCKET_LEN : UInt32
  SMSG_RETENTION : UInt32
  bucketLen_pos : 0 < SMSG_BUCKET_LEN

/-- The values `smessage.cpp` starts with: buckets of an hour and the
31-day paid retention. -/
def mainSmsgParams : SmsgParams := ⟨60 * 60, 60 * 60 * 24 * 31, by decide⟩

/-- What `ReceiveData` returns for an inventory it rejects. -/
inductive SmsgStatus where
  /-- `SMSG_GENERAL_ERROR`, with the reason it logs. -/
  | generalError (reason : String)
  | undefined (u : Undefined)
  deriving DecidableEq

/-- The loop of `ReceiveData` over `n` records, the next one at `ofs`: the
triples it reads. -/
def invRecordsFrom (vchData : Bytes) : Nat → Nat → Defined (List (Int64 × UInt32 × UInt32))
  | 0, _ => .ok []
  | n + 1, ofs => do
    let time ← memget_int64_le vchData ofs
    let ncontent ← memget_uint32_le vchData (ofs + 8)
    let hash ← memget_uint32_le vchData (ofs + 12)
    let rest ← invRecordsFrom vchData n (ofs + 16)
    pure ((timeOfUInt32 time, ncontent, hash) :: rest)

/-- `ReceiveData` on `SMSG_INV`: the size checks, then the records. -/
def ReceiveInv (params : SmsgParams) (vchData : Bytes) :
    Except SmsgStatus (List (Int64 × UInt32 × UInt32)) :=
  if vchData.length < 4 then .error (.generalError "smsg-format")
  else
    match memget_uint32_le vchData 0 with
    | .error u => .error (.undefined u)
    | .ok nInvBuckets =>
      if params.SMSG_RETENTION / params.SMSG_BUCKET_LEN + 1 < nInvBuckets then
        .error (.generalError "Peer sent more bucket headers than possible")
      else if vchData.length < (4 + nInvBuckets * 16).toNat then
        .error (.generalError "Peer did not send enough data")
      else
        match invRecordsFrom vchData nInvBuckets.toNat 4 with
        | .error u => .error (.undefined u)
        | .ok records => .ok records

/-! ## Reading the fields back -/

@[simp] theorem length_memput_int64_le (t : Int64) : (memput_int64_le t).length = 8 :=
  leBytes_length 8 _

@[simp] theorem length_memput_uint32_le (v : UInt32) : (memput_uint32_le v).length = 4 :=
  leBytes_length 4 _

@[simp] theorem length_invRecord (t : Int64) (nMessages hash : UInt32) :
    (invRecord t nMessages hash).length = 16 := by
  simp [invRecord]

/-- `memget_int64_le` reads the low 32 bits of what `memput_int64_le` wrote. -/
theorem memget_int64_le_memput (pre post : Bytes) (t : Int64) :
    memget_int64_le (pre ++ memput_int64_le t ++ post) pre.length = .ok t.toUInt64.toUInt32 := by
  have hlt : t.toUInt64.toNat < 256 ^ 8 := t.toUInt64.toNat_lt
  rw [memget_int64_le, memput_int64_le, window_middle _ _ _ (leBytes_length 8 _), ok_bind,
    leValue_leBytes_of_lt hlt, UInt64.ofNat_toNat]
  rfl

theorem memget_uint32_le_memput (pre post : Bytes) (v : UInt32) :
    memget_uint32_le (pre ++ memput_uint32_le v ++ post) pre.length = .ok v := by
  have hlt : v.toNat < 256 ^ 4 := v.toNat_lt
  rw [memget_uint32_le, memput_uint32_le, window_middle _ _ _ (leBytes_length 4 _), ok_bind,
    leValue_leBytes_of_lt hlt, UInt32.ofNat_toNat]
  rfl

theorem toInt_timeOfUInt32 (x : UInt32) : (timeOfUInt32 x).toInt = x.toNat := by
  have hx : x.toUInt64 = UInt64.ofNat x.toNat := UInt64.toNat.inj (by simp)
  have hlt : x.toNat < 2 ^ 63 := Nat.lt_trans x.toNat_lt (by decide)
  rw [timeOfUInt32, hx, UInt64.toInt64_ofNat', Int64.toInt_ofNat_of_lt hlt]

/-- The bits of an `int64_t` as a `uint64_t`: its value modulo `2 ^ 64`. -/
theorem toNat_toUInt64_eq_emod (t : Int64) : (t.toUInt64.toNat : Int) = t.toInt % 2 ^ 64 := by
  rw [← Int64.toNat_toBitVec, Int64.toInt, BitVec.toInt_eq_toNat_bmod]
  have h := Int.bmod_emod (x := (t.toBitVec.toNat : Int)) (m := 2 ^ 64)
  have := t.toBitVec.isLt
  rw [Int.natCast_pow] at h
  omega

/-- The time a reader gets for `t` is `t` modulo `2 ^ 32`. -/
theorem toInt_readTime (t : Int64) :
    (timeOfUInt32 t.toUInt64.toUInt32).toInt = t.toInt % 2 ^ 32 := by
  have hbits := toNat_toUInt64_eq_emod t
  rw [toInt_timeOfUInt32, UInt64.toNat_toUInt32]
  omega

/-- A time comes back as itself exactly when it is in `[0, 2 ^ 32)`. -/
theorem readTime_eq_iff (t : Int64) :
    timeOfUInt32 t.toUInt64.toUInt32 = t ↔ 0 ≤ t.toInt ∧ t.toInt < 2 ^ 32 := by
  rw [← Int64.toInt_inj, toInt_readTime]
  omega

/-- A time written by `memput_int64_le` and read by `memget_int64_le` into an
`int64_t` comes back as itself exactly when it is in `[0, 2 ^ 32)`: this is
how every timestamp of `SMSG_SHOW`, `SMSG_HAVE`, `SMSG_WANT` and `SMSG_MSG`
travels. -/
theorem memget_int64_le_time_eq_iff (pre post : Bytes) (t : Int64) :
    timeOfUInt32 <$> memget_int64_le (pre ++ memput_int64_le t ++ post) pre.length = .ok t ↔
      0 ≤ t.toInt ∧ t.toInt < 2 ^ 32 := by
  rw [memget_int64_le_memput, ← readTime_eq_iff]
  exact ⟨Except.ok.inj, congrArg Except.ok⟩

/-! ## The inventory round trip -/

/-- One step of the loop of `ReceiveData` over a record `SendData` wrote. -/
theorem invRecordsFrom_record (pre post : Bytes) (t : Int64) (nMessages hash : UInt32) (k : Nat) :
    invRecordsFrom (pre ++ invRecord t nMessages hash ++ post) (k + 1) pre.length = (do
      let rest ← invRecordsFrom (pre ++ invRecord t nMessages hash ++ post) k (pre.length + 16)
      pure ((timeOfUInt32 t.toUInt64.toUInt32, nMessages, hash) :: rest)) := by
  have htime :=
    memget_int64_le_memput pre (memput_uint32_le nMessages ++ memput_uint32_le hash ++ post) t
  have hcount :=
    memget_uint32_le_memput (pre ++ memput_int64_le t) (memput_uint32_le hash ++ post) nMessages
  have hhash :=
    memget_uint32_le_memput (pre ++ memput_int64_le t ++ memput_uint32_le nMessages) post hash
  simp only [List.length_append, length_memput_int64_le, length_memput_uint32_le, Nat.reduceAdd,
    List.append_assoc] at htime hcount hhash
  simp only [invRecordsFrom, invRecord, List.append_assoc, htime, hcount, hhash, ok_bind]

/-- The loop of `ReceiveData` reads every record `SendData` wrote, each time
cut to its low 32 bits. -/
theorem invRecordsFrom_flatMap (pre post : Bytes) (bs : List (Int64 × SecMsgBucket)) :
    invRecordsFrom (pre ++ bs.flatMap (fun b => invRecord b.1 b.2.nActive b.2.hash) ++ post)
        bs.length pre.length =
      .ok (bs.map fun b => (timeOfUInt32 b.1.toUInt64.toUInt32, b.2.nActive, b.2.hash)) := by
  induction bs generalizing pre with
  | nil => rfl
  | cons b bs ih =>
    have hrest := ih (pre ++ invRecord b.1 b.2.nActive b.2.hash)
    rw [List.length_append, length_invRecord] at hrest
    rw [List.flatMap_cons, List.length_cons, ← List.append_assoc pre, List.append_assoc _ _ post,
      invRecordsFrom_record, ← List.append_assoc _ _ post, hrest]
    rfl

theorem length_flatMap_invRecord (bs : List (Int64 × SecMsgBucket)) :
    (bs.flatMap fun b => invRecord b.1 b.2.nActive b.2.hash).length = 16 * bs.length := by
  induction bs with
  | nil => rfl
  | cons b bs ih =>
    rw [List.flatMap_cons, List.length_append, ih, length_invRecord, List.length_cons]
    omega

/-- `ReceiveData` reads from the inventory `SendData` builds the buckets it
showed, in order, each time cut to its low 32 bits, whenever the receiver
allows that many buckets. -/
theorem receiveInv_sendInv (params : SmsgParams) {buckets : List (Int64 × SecMsgBucket)}
    {lastMatched m_last_changed : Int64} {payload : Bytes}
    (h : SendInv buckets lastMatched m_last_changed = some payload)
    (hcount : (shownBuckets buckets lastMatched).length ≤
      (params.SMSG_RETENTION / params.SMSG_BUCKET_LEN + 1).toNat) :
    ReceiveInv params payload = .ok ((shownBuckets buckets lastMatched).map fun b =>
      (timeOfUInt32 b.1.toUInt64.toUInt32, b.2.nActive, b.2.hash)) := by
  unfold SendInv at h
  -- a node that has nothing new for the peer sends nothing
  by_cases hlm : lastMatched ≤ m_last_changed
  swap
  · simp [hlm] at h
  rw [if_pos hlm] at h
  generalize shownBuckets buckets lastMatched = shown at h hcount ⊢
  dsimp only at h
  have hn : (UInt32.ofNat shown.length).toNat = shown.length :=
    Nat.mod_eq_of_lt (Nat.lt_of_le_of_lt hcount (UInt32.toNat_lt _))
  split at h
  case isFalse => contradiction
  case isTrue =>
  obtain rfl := (Option.some.inj h).symm
  have hlen := length_flatMap_invRecord shown
  have hcountRead := memget_uint32_le_memput []
    (shown.flatMap fun b => invRecord b.1 b.2.nActive b.2.hash) (UInt32.ofNat shown.length)
  have hrecords := invRecordsFrom_flatMap (memput_uint32_le (UInt32.ofNat shown.length)) [] shown
  rw [List.nil_append, List.length_nil] at hcountRead
  rw [List.append_nil, length_memput_uint32_le] at hrecords
  unfold ReceiveInv
  rw [if_neg (by simp [hlen]), hcountRead]
  simp only
  -- the count is within the bound, and the payload is as long as the count says
  rw [if_neg (by rw [UInt32.lt_iff_toNat_lt, hn]; omega),
    if_neg (by simp only [UInt32.toNat_add, UInt32.toNat_mul, UInt32.reduceToNat, hn,
      List.length_append, length_memput_uint32_le, hlen]; omega), hn, hrecords]

theorem receiveInv_sendInv_hour :
    ReceiveInv mainSmsgParams (memput_uint32_le 1 ++ invRecord 3600 2 7) = .ok [(3600, 2, 7)] :=
  (@receiveInv_sendInv mainSmsgParams [(3600, ⟨2, 7, 0⟩)] 0 0 _ rfl (by decide)).trans rfl

/-- A node with one message in the bucket of time `2 ^ 32` announces it, and
its peer reads the announcement as a bucket of time 0. -/
theorem receiveInv_bucket_time_truncated :
    SendInv [(4294967296, ⟨1, 0, 0⟩)] 0 0 = some (memput_uint32_le 1 ++ invRecord 4294967296 1 0) ∧
      ReceiveInv mainSmsgParams (memput_uint32_le 1 ++ invRecord 4294967296 1 0) = .ok [(0, 1, 0)] :=
  ⟨rfl, rfl⟩

end Globe
