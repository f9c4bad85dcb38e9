import Globe.Lib.Bytes
import Globe.Lib.Undefined

/-!
# Stealth addresses in raw form

`CStealthAddress::ToRaw` and `FromRaw` (`key/stealth.cpp`) write and read the
raw form of a stealth address: the options byte, the 33-byte scan key, the
count of spend keys and the keys, the number of signatures, the prefix length
in bits and the prefix bytes, little-endian.  `FromRaw` reads from a pointer
and a size and checks the size three times as it goes: before the scan key,
before the spend keys and before the prefix.

The number of prefix bytes is `std::ceil((float)number_bits / 8.0)`; a byte
divided by 8 is exact in binary floating point, so it is the integer ceiling.
Reads through the pointer are `UB.index` and `UB.window` over the buffer, so a
read past it is undefined.
-/

namespace Globe

open ByteCodec UB

def EC_COMPRESSED_SIZE : Nat := 33
def MIN_STEALTH_RAW_SIZE : Nat := 1 + 33 + 1 + 33 + 1 + 1
def MAX_STEALTH_PREFIX_BYTES : Nat := 4
def MAX_STEALTH_SPEND_KEYS : Nat := 255

structure stealth_prefix where
  number_bits : UInt8
  bitfield : UInt32
  deriving DecidableEq, Repr

structure CStealthAddress where
  options : UInt8
  -- `prefix` in the source
  prefix_ : stealth_prefix
  number_signatures : Int
  scan_pubkey : Bytes
  spend_pubkey : Bytes
  deriving DecidableEq, Repr

/-- `std::ceil((float)number_bits / 8.0)`. -/
def prefixBytes (number_bits : UInt8) : Nat := (number_bits.toNat + 7) / 8

/-- `CStealthAddress::ToRaw(raw)`: the code and `raw`, left as it was when the
sanity checks fail. -/
def CStealthAddress.ToRaw (sx : CStealthAddress) (raw : Bytes) : Int × Bytes :=
  let nPrefixBytes := prefixBytes sx.prefix_.number_bits
  let nPkSpend := sx.spend_pubkey.length / EC_COMPRESSED_SIZE
  if sx.scan_pubkey.length ≠ EC_COMPRESSED_SIZE ∨ sx.spend_pubkey.length < EC_COMPRESSED_SIZE ∨
      sx.spend_pubkey.length % EC_COMPRESSED_SIZE ≠ 0 ∨ nPkSpend > MAX_STEALTH_SPEND_KEYS ∨
      nPrefixBytes > MAX_STEALTH_PREFIX_BYTES then
    (1, raw)
  else
    (0, [sx.options] ++ sx.scan_pubkey.take EC_COMPRESSED_SIZE ++ [nPkSpend.toUInt8] ++
      sx.spend_pubkey.take (EC_COMPRESSED_SIZE * nPkSpend) ++
      -- `raw[o] = number_signatures` keeps the low byte of the `int`
      [UInt8.ofNat (sx.number_signatures % 256).toNat, sx.prefix_.number_bits] ++
      (leBytes 4 sx.prefix_.bitfield.toNat).take nPrefixBytes)

/-- `y.FromRaw(p, nSize)` over the buffer `p`: the code and `y` with the fields
it set. -/
def CStealthAddress.FromRaw (y : CStealthAddress) (p : Bytes) (nSize : Nat) :
    Defined (Int × CStealthAddress) :=
  if nSize < MIN_STEALTH_RAW_SIZE then pure (1, y)
  else do
    let options ← index p 0
    let scan_pubkey ← window p 1 EC_COMPRESSED_SIZE
    let spend_pubkeys ← index p (1 + EC_COMPRESSED_SIZE)
    let y := { y with options := options, scan_pubkey := scan_pubkey }
    if spend_pubkeys < 1 then pure (1, y)
    else if nSize < MIN_STEALTH_RAW_SIZE + EC_COMPRESSED_SIZE * (spend_pubkeys.toNat - 1) then
      pure (1, y)
    else do
      let o := 2 + EC_COMPRESSED_SIZE
      let spend_pubkey ← window p o (EC_COMPRESSED_SIZE * spend_pubkeys.toNat)
      let o := o + EC_COMPRESSED_SIZE * spend_pubkeys.toNat
      let number_signatures ← index p o
      let number_bits ← index p (o + 1)
      let nPrefixBytes := prefixBytes number_bits
      let y := { y with
        spend_pubkey := spend_pubkey
        number_signatures := number_signatures.toNat
        prefix_ := ⟨number_bits, 0⟩ }
      if nPrefixBytes > MAX_STEALTH_PREFIX_BYTES ∨
          nSize < MIN_STEALTH_RAW_SIZE + EC_COMPRESSED_SIZE * (spend_pubkeys.toNat - 1) + nPrefixBytes then
        pure (1, y)
      else if nPrefixBytes ≠ 0 then do
        -- `memcpy(&prefix.bitfield, p, nPrefixBytes)` into the zeroed field, then `le32toh`
        let bs ← window p (o + 2) nPrefixBytes
        pure (0, { y with prefix_ := ⟨number_bits, UInt32.ofNat (leValue bs)⟩ })
      else pure (0, y)

/-! ## Reads stay inside the buffer -/

/-- `FromRaw` over a buffer of `nSize` bytes reads none past it: each read comes
after a size check that covers it. -/
theorem fromRaw_ne_outOfBounds (y : CStealthAddress) (p : Bytes) :
    y.FromRaw p p.length ≠ .error .outOfBounds := by
  unfold CStealthAddress.FromRaw
  by_cases hmin : p.length < MIN_STEALTH_RAW_SIZE
  · rw [if_pos hmin]
    simp [pure, Except.pure]
  rw [if_neg hmin]
  unfold MIN_STEALTH_RAW_SIZE EC_COMPRESSED_SIZE at *
  -- the first size check covers the options, the scan key and the key count
  rw [index_of_lt (by omega), window_of_le (by omega), index_of_lt (by omega)]
  simp only [bind, Except.bind]
  split
  · simp [pure, Except.pure]
  split
  · simp [pure, Except.pure]
  next hk1 hlen =>
  have hk : 1 ≤ p[1 + 33].toNat := by
    rw [UInt8.lt_iff_toNat_lt] at hk1
    simp only [UInt8.toNat_one] at hk1
    omega
  -- the second covers the spend keys, the signature count and the prefix length
  rw [window_of_le (by omega), index_of_lt (by omega), index_of_lt (by omega)]
  simp only
  split
  · simp [pure, Except.pure]
  split
  · next hpre _ =>
    -- the third covers the prefix bytes
    rw [window_of_le (by omega)]
    simp [pure, Except.pure]
  · simp [pure, Except.pure]

/-! ## The round trip -/

/-- What `FromRaw` reads at each offset of a buffer laid out as `ToRaw` writes. -/
theorem reads_rawLayout (o : UInt8) (scan spend pre : Bytes) (k : Nat) (b nb : UInt8)
    (hscan : scan.length = 33) (hspend : spend.length = 33 * k) :
    index ([o] ++ scan ++ [k.toUInt8] ++ spend ++ [b, nb] ++ pre) 0 = .ok o ∧
    window ([o] ++ scan ++ [k.toUInt8] ++ spend ++ [b, nb] ++ pre) 1 33 = .ok scan ∧
    index ([o] ++ scan ++ [k.toUInt8] ++ spend ++ [b, nb] ++ pre) 34 = .ok k.toUInt8 ∧
    window ([o] ++ scan ++ [k.toUInt8] ++ spend ++ [b, nb] ++ pre) 35 (33 * k) = .ok spend ∧
    index ([o] ++ scan ++ [k.toUInt8] ++ spend ++ [b, nb] ++ pre) (35 + 33 * k) = .ok b ∧
    index ([o] ++ scan ++ [k.toUInt8] ++ spend ++ [b, nb] ++ pre) (35 + 33 * k + 1) = .ok nb ∧
    window ([o] ++ scan ++ [k.toUInt8] ++ spend ++ [b, nb] ++ pre) (35 + 33 * k + 2) pre.length =
      .ok pre := by
  have hA : ([o] ++ scan ++ [k.toUInt8] ++ spend).length = 35 + 33 * k := by
    simp [hscan, hspend]
    omega
  have hlen : ([o] ++ scan ++ [k.toUInt8] ++ spend ++ [b, nb] ++ pre).length =
      37 + 33 * k + pre.length := by
    simp only [List.length_append, hA, List.length_cons, List.length_nil]
    omega
  refine ⟨?_, ?_, ?_, ?_, ?_, ?_, ?_⟩
  · simp [index]
  · rw [window_of_le (by omega)]
    simp [hscan]
  · simp [index, hscan]
  · rw [window_of_le (by omega)]
    simp [hscan, hspend, List.drop_append, List.take_append]
  · -- the two counts follow the spend keys
    rw [index_append_left _ (by simp only [List.length_append, hA]; simp), index_append_right _ (by omega), hA,
      Nat.sub_self]
    rfl
  · rw [index_append_left _ (by simp only [List.length_append, hA]; simp), index_append_right _ (by omega), hA]
    simp [index]
  · rw [window_append_right _ (by simp only [List.length_append, hA]; simp)]
    simp only [List.length_append, hA, List.length_cons, List.length_nil]
    rw [show 35 + 33 * k + 2 - (35 + 33 * k + (0 + 1 + 1)) = 0 by omega, window_of_le (by omega)]
    simp


theorem fromRaw_rawLayout (y : CStealthAddress) (o : UInt8) (scan spend pre : Bytes) {k : Nat}
    (b nb : UInt8) (hscan : scan.length = 33) (hk1 : 1 ≤ k) (hk : k ≤ 255)
    (hspend : spend.length = 33 * k) (hnb : prefixBytes nb ≤ 4) (hpre : pre.length = prefixBytes nb) :
    y.FromRaw ([o] ++ scan ++ [k.toUInt8] ++ spend ++ [b, nb] ++ pre) (37 + 33 * k + prefixBytes nb) =
      .ok (0,
        { options := o
          prefix_ := ⟨nb, if prefixBytes nb ≠ 0 then UInt32.ofNat (leValue pre) else 0⟩
          number_signatures := b.toNat
          scan_pubkey := scan
          spend_pubkey := spend }) := by
  obtain ⟨h0, hscan', hcount, hspend', hsig, hbits, hpre'⟩ :=
    reads_rawLayout o scan spend pre k b nb hscan hspend
  have hmod : k.toUInt8.toNat = k % 256 := by simp
  have hk8 : k.toUInt8.toNat = k := by rw [hmod]; omega
  -- the three size checks pass
  have hsize : ¬ 37 + 33 * k + prefixBytes nb < 70 := by omega
  have hcount1 : ¬ k.toUInt8 < 1 := by
    rw [UInt8.lt_iff_toNat_lt, hk8, UInt8.toNat_one]
    omega
  have hsize2 : ¬ 37 + 33 * k + prefixBytes nb < 70 + 33 * (k - 1) := by omega
  have hsize3 : ¬ (prefixBytes nb > 4 ∨ 37 + 33 * k + prefixBytes nb < 70 + 33 * (k - 1) + prefixBytes nb) := by
    omega
  unfold CStealthAddress.FromRaw
  simp only [MIN_STEALTH_RAW_SIZE, EC_COMPRESSED_SIZE, MAX_STEALTH_PREFIX_BYTES, Nat.reduceAdd]
  simp only [hsize, if_false]
  rw [h0, hscan', hcount]
  simp only [bind, Except.bind, hk8, hcount1, hsize2, if_false]
  rw [hspend', hsig, hbits]
  simp only [hsize3, if_false]
  by_cases hz : prefixBytes nb = 0
  · rw [if_neg (not_not.mpr hz)]
    simp [pure, Except.pure, hz]
  · have hwin := hpre'
    rw [hpre] at hwin
    rw [if_pos hz, hwin]
    simp only [pure, Except.pure, ne_eq, hz, not_false_eq_true, if_true]

theorem toRaw_eq (sx : CStealthAddress) (raw : Bytes) {k : Nat}
    (hscan : sx.scan_pubkey.length = 33) (hk1 : 1 ≤ k) (hk : k ≤ 255)
    (hspend : sx.spend_pubkey.length = 33 * k) (hbits : sx.prefix_.number_bits.toNat ≤ 32) :
    sx.ToRaw raw = (0, [sx.options] ++ sx.scan_pubkey ++ [k.toUInt8] ++ sx.spend_pubkey ++
      [UInt8.ofNat (sx.number_signatures % 256).toNat, sx.prefix_.number_bits] ++
      leBytes (prefixBytes sx.prefix_.number_bits) sx.prefix_.bitfield.toNat) := by
  have hnp : prefixBytes sx.prefix_.number_bits ≤ 4 := by unfold prefixBytes; omega
  have hkeys : sx.spend_pubkey.length / 33 = k := by rw [hspend]; omega
  -- the sanity checks pass
  have hchecks : ¬ (sx.scan_pubkey.length ≠ 33 ∨ sx.spend_pubkey.length < 33 ∨
      sx.spend_pubkey.length % 33 ≠ 0 ∨ sx.spend_pubkey.length / 33 > 255 ∨
      prefixBytes sx.prefix_.number_bits > 4) := by
    omega
  unfold CStealthAddress.ToRaw
  simp only [EC_COMPRESSED_SIZE, MAX_STEALTH_SPEND_KEYS, MAX_STEALTH_PREFIX_BYTES, hchecks, if_false]
  rw [hkeys, List.take_of_length_le (by omega), List.take_of_length_le (by omega), take_leBytes hnp]

/-- The raw form of an address with a 33-byte scan key, one to 255 spend keys,
a prefix of at most 32 bits and a number of signatures that fits a byte reads
back as the address, with the prefix bits cut to the bytes written. -/
theorem fromRaw_toRaw (sx y : CStealthAddress) (raw : Bytes) {k : Nat}
    (hscan : sx.scan_pubkey.length = 33) (hk1 : 1 ≤ k) (hk : k ≤ 255)
    (hspend : sx.spend_pubkey.length = 33 * k) (hbits : sx.prefix_.number_bits.toNat ≤ 32)
    (hsig : 0 ≤ sx.number_signatures ∧ sx.number_signatures ≤ 255) :
    (sx.ToRaw raw).1 = 0 ∧
    y.FromRaw (sx.ToRaw raw).2 (sx.ToRaw raw).2.length =
      .ok (0, { sx with
        prefix_ := { sx.prefix_ with
          bitfield := UInt32.ofNat (sx.prefix_.bitfield.toNat % 2 ^ (8 * prefixBytes sx.prefix_.number_bits)) } }) := by
  have hnp : prefixBytes sx.prefix_.number_bits ≤ 4 := by unfold prefixBytes; omega
  rw [toRaw_eq sx raw hscan hk1 hk hspend hbits]
  refine ⟨rfl, ?_⟩
  have hlen : ([sx.options] ++ sx.scan_pubkey ++ [k.toUInt8] ++ sx.spend_pubkey ++
      [UInt8.ofNat (sx.number_signatures % 256).toNat, sx.prefix_.number_bits] ++
      leBytes (prefixBytes sx.prefix_.number_bits) sx.prefix_.bitfield.toNat).length =
      37 + 33 * k + prefixBytes sx.prefix_.number_bits := by
    simp [hscan, hspend, leBytes_length]
    omega
  rw [hlen, fromRaw_rawLayout y _ _ _ _ _ _ hscan hk1 hk hspend hnp (leBytes_length _ _)]
  -- the signature count is its low byte, and the prefix its low bytes
  have hsig8 : ((UInt8.ofNat (sx.number_signatures % 256).toNat).toNat : Int) = sx.number_signatures := by
    simp
    omega
  have hbf : (if prefixBytes sx.prefix_.number_bits ≠ 0 then
        UInt32.ofNat (leValue (leBytes (prefixBytes sx.prefix_.number_bits) sx.prefix_.bitfield.toNat))
      else 0) =
      UInt32.ofNat (sx.prefix_.bitfield.toNat % 2 ^ (8 * prefixBytes sx.prefix_.number_bits)) := by
    have h256 : (2 : Nat) ^ (8 * prefixBytes sx.prefix_.number_bits) =
        256 ^ prefixBytes sx.prefix_.number_bits := by
      rw [Nat.pow_mul]
    rw [leValue_leBytes, h256]
    by_cases hz : prefixBytes sx.prefix_.number_bits = 0
    · -- no prefix bytes: the field stays zero
      rw [if_neg (not_not.mpr hz), hz, Nat.pow_zero, Nat.mod_one]
      rfl
    · rw [if_pos hz]
  rw [hsig8, hbf]

/-- The raw form of an address with a 33-byte scan key, `k` spend keys for some
`k` from 1 to 255, a prefix of at most 32 bits and a number of signatures that
fits a byte reads back as the address, with the prefix bits cut to the bytes
written; and `FromRaw` reads nothing outside any buffer it is given. -/
theorem stealth_raw_roundtrip :
    (∀ (sx y : CStealthAddress) (raw : Bytes) (k : Nat),
      sx.scan_pubkey.length = 33 → 1 ≤ k → k ≤ 255 → sx.spend_pubkey.length = 33 * k →
      sx.prefix_.number_bits.toNat ≤ 32 → 0 ≤ sx.number_signatures ∧ sx.number_signatures ≤ 255 →
      (sx.ToRaw raw).1 = 0 ∧
      y.FromRaw (sx.ToRaw raw).2 (sx.ToRaw raw).2.length =
        .ok (0, { sx with
          prefix_ := { sx.prefix_ with
            bitfield := UInt32.ofNat
              (sx.prefix_.bitfield.toNat % 2 ^ (8 * prefixBytes sx.prefix_.number_bits)) } })) ∧
    ∀ (y : CStealthAddress) (p : Bytes), y.FromRaw p p.length ≠ .error .outOfBounds :=
  ⟨fun sx y raw _ hscan hk1 hk hspend hbits hsig =>
    fromRaw_toRaw sx y raw hscan hk1 hk hspend hbits hsig, fromRaw_ne_outOfBounds⟩

/-- An address with one spend key and a 12-bit prefix. -/
def oneKeyAddress : CStealthAddress :=
  ⟨0, ⟨12, 0xabcdef⟩, 2, List.replicate 33 2, List.replicate 33 3⟩

/-- Its two prefix bytes are written and read back. -/
theorem stealth_raw_roundtrip_one_key :
    (oneKeyAddress.ToRaw []).1 = 0 ∧
    oneKeyAddress.FromRaw (oneKeyAddress.ToRaw []).2 (oneKeyAddress.ToRaw []).2.length =
      .ok (0, { oneKeyAddress with prefix_ := ⟨12, 0xcdef⟩ }) := by
  have h := stealth_raw_roundtrip.1 oneKeyAddress oneKeyAddress [] 1 (by decide) (by decide)
    (by decide) (by decide) (by decide) (by decide)
  exact ⟨h.1, h.2.trans (by decide)⟩

end Globe
