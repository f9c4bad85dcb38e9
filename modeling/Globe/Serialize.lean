import Globe.Lib.Reader
import Globe.Lib.Undefined

/-!
# Serialization primitives

`serialize.h`: fixed-width little-endian integers, the CompactSize length
prefix, byte vectors and vectors of objects, and the 7-bit varints of
`part::PutVarInt` and `part::GetVarInt` that data outputs carry.

Writers are functions to `Bytes`.  Readers live in `ByteCodec.Reader` and fail
with the message the stream raises.  The round-trip lemmas at the end of each
section are what the transaction codec is assembled from.
-/

namespace Globe

open ByteCodec UB

/-- `CDataStream::read` raises this when the input is exhausted. -/
def endOfData : String := "CDataStream::read(): end of data"

/-- The largest length a CompactSize prefix may announce. -/
def MAX_SIZE : Nat := 0x10000000

/-! ## Fixed-width integers -/

def ser_writedata8 (obj : UInt8) : Bytes := [obj]
def ser_writedata16 (obj : UInt16) : Bytes := leBytes 2 obj.toNat
def ser_writedata32 (obj : UInt32) : Bytes := leBytes 4 obj.toNat
def ser_writedata64 (obj : UInt64) : Bytes := leBytes 8 obj.toNat

def ser_readdata8 : Reader UInt8 := Reader.byte endOfData
def ser_readdata16 : Reader UInt16 :=
  (fun bs => UInt16.ofNat (leValue bs)) <$> Reader.take endOfData 2
def ser_readdata32 : Reader UInt32 :=
  (fun bs => UInt32.ofNat (leValue bs)) <$> Reader.take endOfData 4
def ser_readdata64 : Reader UInt64 :=
  (fun bs => UInt64.ofNat (leValue bs)) <$> Reader.take endOfData 8

/-- An `int64_t` goes out as its two's-complement bits. -/
def serializeInt64 (a : Int64) : Bytes := ser_writedata64 a.toUInt64
def unserializeInt64 : Reader Int64 := UInt64.toInt64 <$> ser_readdata64

/-- An `int32_t` goes out as its two's-complement bits. -/
def serializeInt32 (a : Int32) : Bytes := ser_writedata32 a.toUInt32
def unserializeInt32 : Reader Int32 := UInt32.toInt32 <$> ser_readdata32

/-- `k` little-endian bytes read back as the value they were written from. -/
theorem readsBack_le {k : Nat} {β : Type} (toNat : β → Nat) (ofNat : Nat → β)
    (hof : ∀ b, ofNat (toNat b) = b) (hlt : ∀ b, toNat b < 256 ^ k) :
    ReadsBack (fun b => leBytes k (toNat b))
      ((fun bs => ofNat (leValue bs)) <$> Reader.take endOfData k) (fun _ => True) := by
  intro b rest _
  have h : (Reader.take endOfData k).run (leBytes k (toNat b) ++ rest) =
      .ok (leBytes k (toNat b), rest) :=
    ReadsBack.take endOfData k _ rest (leBytes_length k _)
  show (Reader.take endOfData k >>= fun bs => pure (ofNat (leValue bs))).run
    (leBytes k (toNat b) ++ rest) = _
  rw [Reader.run_bind_ok h, leValue_leBytes_of_lt (hlt b), hof b]
  rfl

theorem readsBack_data8 : ReadsBack ser_writedata8 ser_readdata8 (fun _ => True) :=
  ReadsBack.byte endOfData

theorem readsBack_data16 : ReadsBack ser_writedata16 ser_readdata16 (fun _ => True) :=
  readsBack_le UInt16.toNat UInt16.ofNat (fun _ => UInt16.ofNat_toNat) UInt16.toNat_lt

theorem readsBack_data32 : ReadsBack ser_writedata32 ser_readdata32 (fun _ => True) :=
  readsBack_le UInt32.toNat UInt32.ofNat (fun _ => UInt32.ofNat_toNat) UInt32.toNat_lt

theorem readsBack_data64 : ReadsBack ser_writedata64 ser_readdata64 (fun _ => True) :=
  readsBack_le UInt64.toNat UInt64.ofNat (fun _ => UInt64.ofNat_toNat) UInt64.toNat_lt

theorem readsBack_int64 : ReadsBack serializeInt64 unserializeInt64 (fun _ => True) := by
  have h := readsBack_data64.map UInt64.toInt64 Int64.toUInt64 (fun a => by simp)
  exact h.mono (fun _ _ => trivial)

/-! ## CompactSize -/

/-- `WriteCompactSize`: one byte below 253, otherwise a marker byte and the
smallest of 2, 4 or 8 little-endian bytes that holds the size. -/
def WriteCompactSize (nSize : Nat) : Bytes :=
  if nSize < 253 then ser_writedata8 (UInt8.ofNat nSize)
  else if nSize ≤ 0xFFFF then ser_writedata8 253 ++ ser_writedata16 (UInt16.ofNat nSize)
  else if nSize ≤ 0xFFFFFFFF then ser_writedata8 254 ++ ser_writedata32 (UInt32.ofNat nSize)
  else ser_writedata8 255 ++ ser_writedata64 (UInt64.ofNat nSize)

/-- The branch of `ReadCompactSize` after a marker byte: the value at the
marker's width, refused when a shorter form would have held it. -/
def readCanonical {β : Type} (r : Reader β) (toNat : β → Nat) (least : Nat) : Reader Nat := do
  let n ← r
  if toNat n < least then Reader.fail "non-canonical ReadCompactSize()" else pure (toNat n)

/-- The size `ReadCompactSize` announces for the first byte `chSize`. -/
def compactSizeBody (chSize : UInt8) : Reader Nat :=
  if chSize < 253 then pure chSize.toNat
  else if chSize = 253 then readCanonical ser_readdata16 UInt16.toNat 253
  else if chSize = 254 then readCanonical ser_readdata32 UInt32.toNat 0x10000
  else readCanonical ser_readdata64 UInt64.toNat 0x100000000

/-- `ReadCompactSize`: a non-canonical encoding is refused, and with
`range_check` so is a size above `MAX_SIZE`. -/
def ReadCompactSize (range_check : Bool) : Reader Nat := do
  let chSize ← ser_readdata8
  let nSizeRet ← compactSizeBody chSize
  if range_check && decide (nSizeRet > MAX_SIZE) then
    Reader.fail "ReadCompactSize(): size too large"
  else pure nSizeRet

theorem run_readCanonical {β : Type} {r : Reader β} (toNat : β → Nat) (least : Nat)
    {s s' : Bytes} {b : β} (h : r.run s = .ok (b, s')) (hb : least ≤ toNat b) :
    (readCanonical r toNat least).run s = .ok (toNat b, s') := by
  unfold readCanonical
  rw [Reader.run_bind_ok h, if_neg (by omega)]
  rfl

/-- Reading the marker and then the width it names returns a size that passes
the range check. -/
theorem run_readCompactSize {s s₁ s₂ : Bytes} {ch : UInt8} {n : Nat}
    (hch : ser_readdata8.run s = .ok (ch, s₁)) (hbody : (compactSizeBody ch).run s₁ = .ok (n, s₂))
    (hn : n ≤ MAX_SIZE) : (ReadCompactSize true).run s = .ok (n, s₂) := by
  unfold ReadCompactSize
  rw [Reader.run_bind_ok hch, Reader.run_bind_ok hbody, if_neg (by simp; omega)]
  rfl

/-- A size of at most `MAX_SIZE` reads back, whichever width it was written at. -/
theorem readsBack_compactSize :
    ReadsBack WriteCompactSize (ReadCompactSize true) (fun n => n ≤ MAX_SIZE) := by
  intro n rest hn
  have hmax : MAX_SIZE = 0x10000000 := rfl
  unfold WriteCompactSize
  by_cases h1 : n < 253
  · -- one byte, which is the size itself
    rw [if_pos h1]
    have hm : (UInt8.ofNat n).toNat = n := by simp; omega
    have hlt : UInt8.ofNat n < 253 := by rw [UInt8.lt_iff_toNat_lt, hm]; simpa using h1
    refine run_readCompactSize (readsBack_data8 _ _ trivial) ?_ hn
    rw [compactSizeBody, if_pos hlt, hm]
    rfl
  · rw [if_neg h1]
    by_cases h2 : n ≤ 0xFFFF
    · -- marker 253 and two bytes
      rw [if_pos h2, List.append_assoc]
      have hm : (UInt16.ofNat n).toNat = n := by simp; omega
      refine run_readCompactSize (readsBack_data8 _ _ trivial) ?_ hn
      rw [compactSizeBody, if_neg (by decide), if_pos rfl]
      have hr := run_readCanonical UInt16.toNat 253 (readsBack_data16 _ rest trivial)
        (by rw [hm]; omega)
      rwa [hm] at hr
    · -- marker 254 and four bytes; the range check excludes the eight-byte form
      have h3 : n ≤ 0xFFFFFFFF := by omega
      rw [if_neg h2, if_pos h3, List.append_assoc]
      have hm : (UInt32.ofNat n).toNat = n := by simp; omega
      refine run_readCompactSize (readsBack_data8 _ _ trivial) ?_ hn
      rw [compactSizeBody, if_neg (by decide), if_neg (by decide), if_pos rfl]
      have hr := run_readCanonical UInt32.toNat 0x10000 (readsBack_data32 _ rest trivial)
        (by rw [hm]; omega)
      rwa [hm] at hr

/-! ## Vectors -/

/-- `std::vector<unsigned char>` and `prevector` (a `CScript`): the length,
then the bytes themselves. -/
def serializeBytes (v : Bytes) : Bytes := WriteCompactSize v.length ++ v

def unserializeBytes : Reader Bytes := ReadCompactSize true >>= Reader.take endOfData

/-- `std::vector<T>`: the element count, then each element. -/
def serializeVector {α : Type} (w : α → Bytes) (v : List α) : Bytes :=
  WriteCompactSize v.length ++ v.flatMap w

def unserializeVector {α : Type} (r : Reader α) : Reader (List α) :=
  ReadCompactSize true >>= Reader.count r

theorem readsBack_bytes :
    ReadsBack serializeBytes unserializeBytes (fun v => v.length ≤ MAX_SIZE) := by
  intro v rest hv
  unfold serializeBytes unserializeBytes
  rw [List.append_assoc, Reader.run_bind_ok (readsBack_compactSize _ _ hv)]
  exact Reader.run_take_append endOfData rest

theorem readsBack_vector {α : Type} {w : α → Bytes} {r : Reader α} {P : α → Prop}
    (h : ReadsBack w r P) :
    ReadsBack (serializeVector w) (unserializeVector r)
      (fun v => v.length ≤ MAX_SIZE ∧ ∀ a ∈ v, P a) :=
  ReadsBack.prefixed readsBack_compactSize h

/-! ## Varints of data outputs

`part::GetVarInt` reads seven bits per byte, least significant group first,
while the high bit of the byte just read is set.  Its first line computes
`v.size() - ofs` as a `size_t`: at `ofs = v.size()` that is zero and the
function returns success without touching `i` or `nB`, and past the end it
wraps and the first read leaves the vector. -/

namespace part

/-- The loop of `GetVarInt` once `nB` bytes are consumed: `last` is the byte
just read and `rest` what remains of the vector after it.  Running out of
bytes while `last` asks for more returns 1. -/
def getVarIntLoop (last : UInt8) (i : UInt64) (nB : Nat) : Bytes → Defined (Nat × UInt64 × Nat)
  | [] => if last &&& 0x80 = 0 then .ok (0, i, nB) else .ok (1, i, nB)
  | b :: rest =>
    if last &&& 0x80 = 0 then .ok (0, i, nB)
    -- `uint64_t(p[nB] & 0x7F) << (7*nB)` is undefined once the shift reaches 64
    else if 64 ≤ 7 * nB then .error .shiftTooWide
    else getVarIntLoop b (i + ((b &&& 0x7F).toUInt64 <<< (7 * nB).toUInt64)) (nB + 1) rest

/-- The bytes the loop of `part::PutVarInt(v, i)` pushes while `i` is left to
write: its low seven bits, with the high bit set when more bytes follow. -/
def putVarIntLoop (i : UInt64) : Bytes :=
  if (0 : UInt64) < i >>> 7 then ((i &&& 0x7F).toUInt8 ||| 0x80) :: putVarIntLoop (i >>> 7)
  else [(i &&& 0x7F).toUInt8]
termination_by i.toNat
decreasing_by
  rw [UInt64.lt_iff_toNat_lt, UInt64.toNat_zero, UInt64.toNat_shiftRight] at *
  simp only [UInt64.reduceToNat, Nat.reduceMod, Nat.shiftRight_eq_div_pow] at *
  omega

/-- `part::PutVarInt(v, i)` on a vector: `v` with the varint of `i` appended.
Its return value is the `i` its loop ends with, which is 0. -/
def PutVarInt (v : Bytes) (i : UInt64) : Bytes := v ++ putVarIntLoop i

/-- `part::GetVarInt(v, ofs, i, nB)`: the status it returns (0 on success),
and the values it leaves in `i` and `nB`, which come in as `i` and `nB`. -/
def GetVarInt (v : Bytes) (ofs : Nat) (i : UInt64) (nB : Nat) : Defined (Nat × UInt64 × Nat) :=
  if v.length < ofs then .error .outOfBounds
  else
    match v.drop ofs with
    | [] => .ok (0, i, nB)
    | b :: rest => getVarIntLoop b (b &&& 0x7F).toUInt64 1 rest

/-! ### Reading back what `PutVarInt` writes -/

theorem toNat_shiftRight_seven (i : UInt64) : (i >>> 7).toNat = i.toNat / 128 := by
  rw [UInt64.toNat_shiftRight]
  simp [Nat.shiftRight_eq_div_pow]

theorem toNat_low_seven (i : UInt64) : (i &&& 0x7F).toUInt8.toNat = i.toNat % 128 := by
  rw [UInt64.toNat_toUInt8, UInt64.toNat_and, show (0x7F : UInt64).toNat = 2 ^ 7 - 1 from rfl,
    Nat.and_two_pow_sub_one_eq_mod]
  omega

theorem toNat_or_high_bit {b : UInt8} (h : b.toNat < 128) : (b ||| 0x80).toNat = b.toNat + 128 := by
  rw [UInt8.toNat_or, show (0x80 : UInt8).toNat = 2 ^ 7 * 1 from rfl, Nat.or_comm,
    ← Nat.two_pow_add_eq_or_of_lt h]
  omega

/-- One step of the writer, on the value as a natural number. -/
theorem putVarIntLoop_eq (i : UInt64) :
    putVarIntLoop i = if i.toNat / 128 = 0 then [UInt8.ofNat (i.toNat % 128)]
      else UInt8.ofNat (i.toNat % 128 + 128) :: putVarIntLoop (i >>> 7) := by
  have hlow : (i &&& 0x7F).toUInt8 = UInt8.ofNat (i.toNat % 128) := by
    apply UInt8.toNat_inj.mp
    rw [toNat_low_seven, UInt8.toNat_ofNat']
    omega
  have hmore : ((0 : UInt64) < i >>> 7) ↔ ¬i.toNat / 128 = 0 := by
    rw [UInt64.lt_iff_toNat_lt, UInt64.toNat_zero, toNat_shiftRight_seven]
    omega
  rw [putVarIntLoop]
  by_cases h : i.toNat / 128 = 0
  · rw [if_neg (fun h' => hmore.mp h' h), if_pos h, hlow]
  · rw [if_pos (hmore.mpr h), if_neg h]
    congr 1
    apply UInt8.toNat_inj.mp
    rw [toNat_or_high_bit (by rw [toNat_low_seven]; omega), toNat_low_seven, UInt8.toNat_ofNat']
    omega

theorem toNat_and_low_seven (b : UInt8) : (b &&& 0x7F).toNat = b.toNat % 128 := by
  rw [UInt8.toNat_and, show (0x7F : UInt8).toNat = 2 ^ 7 - 1 from rfl,
    Nat.and_two_pow_sub_one_eq_mod]

theorem and_high_bit_eq_zero_iff (b : UInt8) : b &&& 0x80 = 0 ↔ b.toNat < 128 := by
  rw [← UInt8.toNat_inj, UInt8.toNat_and, show (0x80 : UInt8).toNat = 2 ^ 7 from rfl,
    UInt8.toNat_zero]
  exact and_two_pow_eq_zero_iff b.toNat_lt

/-- The loop stops at a byte without the high bit, whatever follows. -/
theorem getVarIntLoop_of_last {last : UInt8} (h : last.toNat < 128) (i : UInt64) (nB : Nat)
    (rest : Bytes) : getVarIntLoop last i nB rest = .ok (0, i, nB) := by
  have hz := (and_high_bit_eq_zero_iff last).mpr h
  cases rest with
  | nil => simp [getVarIntLoop, hz]
  | cons b rest => simp [getVarIntLoop, hz]

/-- Adding a group of seven bits at its place, when the sum stays in 64 bits. -/
theorem toNat_add_group {acc : UInt64} {b : UInt8} {k : Nat} (hk : 7 * k < 64)
    (hfit : acc.toNat + b.toNat % 128 * 2 ^ (7 * k) < 2 ^ 64) :
    (acc + ((b &&& 0x7F).toUInt64 <<< (7 * k).toUInt64)).toNat =
      acc.toNat + b.toNat % 128 * 2 ^ (7 * k) := by
  have hshift : ((b &&& 0x7F).toUInt64 <<< (7 * k).toUInt64).toNat = b.toNat % 128 * 2 ^ (7 * k) := by
    rw [UInt64.toNat_shiftLeft, UInt8.toNat_toUInt64, toNat_and_low_seven, Nat.toUInt64,
      UInt64.toNat_ofNat', Nat.mod_eq_of_lt (by omega : 7 * k < 2 ^ 64), Nat.mod_eq_of_lt hk,
      Nat.shiftLeft_eq, Nat.mod_eq_of_lt (by omega)]
  rw [UInt64.toNat_add, hshift, Nat.mod_eq_of_lt hfit]

/-- The loop of `GetVarInt`, after a byte with the high bit, reads the varint
of `y` as the bits above the `k` groups it has. -/
theorem getVarIntLoop_putVarInt (y : UInt64) (hy : 0 < y.toNat) {last : UInt8}
    (hlast : 128 ≤ last.toNat) {acc : UInt64} {k : Nat} (hacc : acc.toNat < 2 ^ (7 * k))
    (hfit : acc.toNat + y.toNat * 2 ^ (7 * k) < 2 ^ 64) (rest : Bytes) :
    getVarIntLoop last acc k (putVarIntLoop y ++ rest) =
      .ok (0, UInt64.ofNat (acc.toNat + y.toNat * 2 ^ (7 * k)), k + (putVarIntLoop y).length) := by
  induction hn : y.toNat using Nat.strongRecOn generalizing y last acc k with
  | ind n ih =>
  subst hn
  -- a group is read here, so it still fits below bit 64
  have hk : 7 * k < 64 := by
    have h1 : 2 ^ (7 * k) ≤ y.toNat * 2 ^ (7 * k) := Nat.le_mul_of_pos_left _ hy
    exact (Nat.pow_lt_pow_iff_right (by omega)).mp
      (Nat.lt_of_le_of_lt h1 (Nat.lt_of_le_of_lt (Nat.le_add_left _ _) hfit))
  have hcont : ¬last &&& 0x80 = 0 := fun h => by
    have := (and_high_bit_eq_zero_iff last).mp h
    omega
  have hlow : y.toNat % 128 * 2 ^ (7 * k) ≤ y.toNat * 2 ^ (7 * k) :=
    Nat.mul_le_mul_right _ (Nat.mod_le _ _)
  rw [putVarIntLoop_eq]
  by_cases hend : y.toNat / 128 = 0
  · -- the last byte
    have hb : (UInt8.ofNat (y.toNat % 128)).toNat % 128 = y.toNat := by
      rw [UInt8.toNat_ofNat']
      omega
    rw [if_pos hend, List.singleton_append, getVarIntLoop, if_neg hcont,
      if_neg (Nat.not_le.mpr hk), getVarIntLoop_of_last (by rw [UInt8.toNat_ofNat']; omega)]
    have hsum := toNat_add_group (b := UInt8.ofNat (y.toNat % 128)) hk (by rw [hb]; exact hfit)
    rw [hb] at hsum
    rw [List.length_singleton, ← hsum, UInt64.ofNat_toNat]
  · -- a byte with more to come, then the rest of the value one group up
    have hb : (UInt8.ofNat (y.toNat % 128 + 128)).toNat % 128 = y.toNat % 128 := by
      rw [UInt8.toNat_ofNat']
      omega
    have hy' : (y >>> 7).toNat = y.toNat / 128 := toNat_shiftRight_seven y
    have hgroup : 2 ^ (7 * (k + 1)) = 2 ^ (7 * k) * 128 := by
      rw [Nat.mul_succ, Nat.pow_add]
    have hsplit := mod_add_div_mul y.toNat 128 (2 ^ (7 * k))
    rw [if_neg hend, List.cons_append, getVarIntLoop, if_neg hcont, if_neg (Nat.not_le.mpr hk)]
    have hsum := toNat_add_group (b := UInt8.ofNat (y.toNat % 128 + 128)) hk
      (by rw [hb]; exact Nat.lt_of_le_of_lt (Nat.add_le_add_left hlow _) hfit)
    rw [hb] at hsum
    have hgroupLe : y.toNat % 128 * 2 ^ (7 * k) ≤ 127 * 2 ^ (7 * k) :=
      Nat.mul_le_mul_right _ (by omega)
    have hnext := @ih (y >>> 7).toNat (by omega) (y >>> 7) (by omega)
      (UInt8.ofNat (y.toNat % 128 + 128)) (by rw [UInt8.toNat_ofNat']; omega)
      (acc + ((UInt8.ofNat (y.toNat % 128 + 128) &&& 0x7F).toUInt64 <<< (7 * k).toUInt64))
      (k + 1) (by rw [hsum, hgroup]; omega) (by rw [hsum, hy', hgroup]; omega) rfl
    rw [hnext, hsum, hy', hgroup, Nat.add_assoc, hsplit, List.length_cons, Nat.add_right_comm k 1,
      Nat.add_assoc]

theorem toUInt64_and_low_seven {x : Nat} (hx : x < 256) :
    ((UInt8.ofNat x) &&& 0x7F).toUInt64.toNat = x % 128 := by
  rw [UInt8.toNat_toUInt64, toNat_and_low_seven, UInt8.toNat_ofNat', Nat.mod_eq_of_lt hx]

/-- `GetVarInt` reads back what `PutVarInt` appended, for every 64-bit value,
whatever precedes it and whatever follows. -/
theorem getVarInt_putVarInt (p : Bytes) (n : UInt64) (rest : Bytes) (i : UInt64) (nB : Nat) :
    GetVarInt (PutVarInt p n ++ rest) p.length i nB = .ok (0, n, (putVarIntLoop n).length) := by
  have hlen : ¬(PutVarInt p n ++ rest).length < p.length := by
    simp [PutVarInt]
  have hdrop : (PutVarInt p n ++ rest).drop p.length = putVarIntLoop n ++ rest := by
    simp [PutVarInt]
  have hn := n.toNat_lt
  unfold GetVarInt
  rw [if_neg hlen, hdrop, putVarIntLoop_eq]
  by_cases hend : n.toNat / 128 = 0
  · -- a single byte without the high bit
    rw [if_pos hend, List.singleton_append]
    dsimp only
    rw [getVarIntLoop_of_last (by rw [UInt8.toNat_ofNat']; omega), List.length_singleton]
    congr
    apply UInt64.toNat_inj.mp
    rw [toUInt64_and_low_seven (by omega)]
    omega
  · -- the first group, then the loop reads the rest of the value
    rw [if_neg hend, List.cons_append]
    dsimp only
    have hacc := toUInt64_and_low_seven (x := n.toNat % 128 + 128) (by omega)
    rw [Nat.add_mod_right, Nat.mod_mod] at hacc
    have hy' : (n >>> 7).toNat = n.toNat / 128 := toNat_shiftRight_seven n
    have hval : UInt64.ofNat (n.toNat % 128 + n.toNat / 128 * 2 ^ (7 * 1)) = n := by
      apply UInt64.toNat_inj.mp
      rw [UInt64.toNat_ofNat', Nat.mod_eq_of_lt (by omega)]
      omega
    rw [getVarIntLoop_putVarInt (n >>> 7) (by omega) (by rw [UInt8.toNat_ofNat']; omega)
      (by rw [hacc]; omega) (by rw [hacc, hy']; omega), hacc, hy', hval, List.length_cons,
      Nat.add_comm 1]

/-- At `ofs = v.size()` the remaining length is zero and `GetVarInt`
reports success without writing `i` or `nB`. -/
theorem getVarInt_at_end_succeeds (v : Bytes) (i : UInt64) (nB : Nat) :
    GetVarInt v v.length i nB = .ok (0, i, nB) := by
  unfold GetVarInt
  rw [if_neg (Nat.lt_irrefl _), List.drop_length]

/-- The loop with `k` continuation bytes still to read before one more byte,
at `nB = 10 - k`, gets to the shift by 70 bits. -/
theorem getVarIntLoop_shiftTooWide (c : UInt8) (rest : Bytes) :
    ∀ (pre : Bytes) (last : UInt8) (i : UInt64) (nB : Nat), last &&& 0x80 ≠ 0 →
      (∀ b ∈ pre, b &&& 0x80 ≠ 0) → nB + pre.length = 10 →
      getVarIntLoop last i nB (pre ++ c :: rest) = .error .shiftTooWide := by
  intro pre
  induction pre with
  | nil =>
    intro last i nB hlast _ hlen
    rw [List.length_nil, Nat.add_zero] at hlen
    rw [List.nil_append, getVarIntLoop, if_neg hlast, if_pos (by omega)]
  | cons b pre ih =>
    -- `last` asks for `b`, and the shift `7 * nB` is still below 64
    intro last i nB hlast hpre hlen
    rw [List.length_cons] at hlen
    rw [List.cons_append, getVarIntLoop, if_neg hlast, if_neg (by omega)]
    exact ih b _ (nB + 1) (hpre b List.mem_cons_self)
      (fun b' hb' => hpre b' (List.mem_cons_of_mem _ hb')) (by omega)

/-- A varint at `ofs` whose first ten bytes all have the continuation bit, with
an eleventh byte after them, makes `GetVarInt` shift that byte's group by 70
bits. -/
theorem getVarInt_shiftTooWide (p pre : Bytes) (hlen : pre.length = 10)
    (hcont : ∀ b ∈ pre, b &&& 0x80 ≠ 0) (c : UInt8) (rest : Bytes) (i : UInt64) (nB : Nat) :
    GetVarInt (p ++ pre ++ c :: rest) p.length i nB = .error .shiftTooWide := by
  obtain ⟨b, pre', rfl⟩ := List.exists_cons_of_length_eq_add_one hlen
  have hdrop : (p ++ b :: pre' ++ c :: rest).drop p.length = b :: (pre' ++ c :: rest) := by
    simp
  rw [List.length_cons] at hlen
  rw [GetVarInt, if_neg (by simp), hdrop]
  exact getVarIntLoop_shiftTooWide c rest pre' b _ 1 (hcont b List.mem_cons_self)
    (fun b' hb' => hcont b' (List.mem_cons_of_mem _ hb')) (by omega)

theorem getVarInt_shiftTooWide_tenBytes :
    GetVarInt ([] ++ List.replicate 10 0x80 ++ [0]) 0 0 0 = .error .shiftTooWide :=
  getVarInt_shiftTooWide [] _ rfl (fun b hb => by rw [List.eq_of_mem_replicate hb]; decide) 0 [] 0 0

end part

end Globe
