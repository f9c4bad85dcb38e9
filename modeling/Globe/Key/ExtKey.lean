import Globe.Lib.Bytes

/-!
# Extended keys and their order

`key/extkey.h` defines `CExtPubKey` and `CExtKeyPair` with an `operator<` that
PSBT keeps them ordered by (`std::set<CExtPubKey>`).  The operator is the
disjunction of a comparison per field, not a lexicographic chain: `a < b` when
`a` is smaller in its depth, or in its fingerprint, or in its child number, or
in its chain code, or in its key.  Two keys each smaller than the other in a
different field are then each below the other, and `std::set` requires a
strict weak order.

The byte comparisons are `memcmp` over the field's width; `memcmpLt` is the
lexicographic order of the two prefixes, which is what `memcmp(a, b, n) < 0`
computes on unsigned bytes.
-/

namespace Globe

open ByteCodec

/-- `memcmp(a, b, n) < 0`. -/
def memcmpLt (a b : Bytes) (n : Nat) : Bool := decide (a.take n < b.take n)

/-- `CPubKey`: the 65-byte buffer, of which the header byte says how much is
the key. -/
structure CPubKey where
  vch : Blob 65
  deriving DecidableEq

namespace CPubKey

/-- `GetLen(chHeader)`. -/
def GetLen (chHeader : UInt8) : Nat :=
  if chHeader = 2 ∨ chHeader = 3 then 33
  else if chHeader = 4 ∨ chHeader = 6 ∨ chHeader = 7 then 65
  else 0

def header (k : CPubKey) : UInt8 := k.vch.bytes.headD 0

def size (k : CPubKey) : Nat := GetLen k.header

/-- `operator<`: the header byte, then `memcmp` over the first key's size. -/
def lt (a b : CPubKey) : Bool :=
  a.header < b.header || (a.header == b.header && memcmpLt a.vch.bytes b.vch.bytes a.size)

end CPubKey

/-- `CKey`: the 32 bytes of the secret, valid or not. -/
structure CKey where
  fValid : Bool
  fCompressed : Bool
  keydata : Blob 32
  deriving DecidableEq

namespace CKey

def size (k : CKey) : Nat := if k.fValid then 32 else 0

/-- `operator<`, which compares only keys of the same compression and size. -/
def lt (a b : CKey) : Bool :=
  a.fCompressed == b.fCompressed && a.size == b.size &&
    memcmpLt a.keydata.bytes b.keydata.bytes a.size

end CKey

structure CExtPubKey where
  nDepth : UInt8
  vchFingerprint : Blob 4
  nChild : UInt32
  chaincode : Blob 32
  pubkey : CPubKey
  deriving DecidableEq

/-- `CExtPubKey::operator<`. -/
def CExtPubKey.lt (a b : CExtPubKey) : Bool :=
  a.nDepth < b.nDepth || memcmpLt a.vchFingerprint.bytes b.vchFingerprint.bytes 4 ||
    a.nChild < b.nChild || memcmpLt a.chaincode.bytes b.chaincode.bytes 32 ||
    a.pubkey.lt b.pubkey

structure CExtKeyPair where
  nDepth : UInt8
  vchFingerprint : Blob 4
  nChild : UInt32
  chaincode : Blob 32
  key : CKey
  pubkey : CPubKey
  deriving DecidableEq

/-- `CExtKeyPair::operator<`. -/
def CExtKeyPair.lt (a b : CExtKeyPair) : Bool :=
  a.nDepth < b.nDepth || memcmpLt a.vchFingerprint.bytes b.vchFingerprint.bytes 4 ||
    a.nChild < b.nChild || memcmpLt a.chaincode.bytes b.chaincode.bytes 32 ||
    a.key.lt b.key || a.pubkey.lt b.pubkey

/-- `memcmp` of a buffer with itself is never negative. -/
theorem memcmpLt_self (a : Bytes) (n : Nat) : memcmpLt a a n = false := by
  simp [memcmpLt]

/-- The order is irreflexive: every field compares equal to itself. -/
theorem CExtPubKey.lt_irrefl (a : CExtPubKey) : a.lt a = false := by
  simp [CExtPubKey.lt, CPubKey.lt, memcmpLt_self]

/-! ## Two keys below each other -/

/-- A key of depth 0 and child 1 and one of depth 1 and child 0, equal
elsewhere: each is below the other, the first by its depth and the second by
its child number.  The same holds of the key pairs with these fields. -/
theorem extKey_lt_not_asymmetric :
    let a : CExtPubKey := ⟨0, Blob.zero 4, 1, Blob.zero 32, ⟨Blob.zero 65⟩⟩
    let b : CExtPubKey := ⟨1, Blob.zero 4, 0, Blob.zero 32, ⟨Blob.zero 65⟩⟩
    let k : CKey := ⟨false, false, Blob.zero 32⟩
    let a' : CExtKeyPair := ⟨0, Blob.zero 4, 1, Blob.zero 32, k, ⟨Blob.zero 65⟩⟩
    let b' : CExtKeyPair := ⟨1, Blob.zero 4, 0, Blob.zero 32, k, ⟨Blob.zero 65⟩⟩
    a.lt b = true ∧ b.lt a = true ∧ a'.lt b' = true ∧ b'.lt a' = true := by
  decide

end Globe
