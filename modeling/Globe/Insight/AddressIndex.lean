import Globe.Primitives.Transaction

/-!
# The address index

`insight/addressindex.h` and `txdb.cpp`: the block-tree database keeps one
entry per address event under `DB_ADDRESSINDEX` and the key
`CAddressIndexKey` (address type, address hash, height and position in the
chain, the transaction and output, and whether it spends), and one entry per
unspent output under `DB_ADDRESSUNSPENTINDEX` and `CAddressUnspentKey`.  The
heights are big-endian so that the keys of one address sort by height.

`CBlockTreeDB::ReadAddressIndex` seeks to the address's type and hash (and
start height), then reads entries while their prefix is `DB_ADDRESSINDEX` and
their hash is the requested one, stopping past the end height.
`ReadAddressUnspentIndex` does the same without heights.  Neither compares the
type of the entries it reads: the keys of the next type with the same hash
follow in byte order, and the scan reads on into them.

The database is a list of key and value byte strings in increasing byte order
of key, as LevelDB iterates it; values are stored as read back, after the
obfuscation.
-/

namespace Globe

open ByteCodec

def DB_ADDRESSINDEX : UInt8 := 97
def DB_ADDRESSUNSPENTINDEX : UInt8 := 117

def ser_writedata32be (obj : UInt32) : Bytes := (leBytes 4 obj.toNat).reverse
def ser_readdata32be : Reader UInt32 :=
  (fun bs => UInt32.ofNat (leValue bs.reverse)) <$> Reader.take endOfData 4

/-! ## Keys and values -/

structure CAddressIndexKey where
  type : UInt32
  hashBytes : uint256
  blockHeight : Int32
  txindex : UInt32
  txhash : uint256
  index : UInt64
  spending : Bool
  deriving DecidableEq

namespace CAddressIndexKey

/-- `Serialize`: the type as one byte, the heights big-endian, the output index
as four bytes. -/
def Serialize (k : CAddressIndexKey) : Bytes :=
  ser_writedata8 k.type.toUInt8 ++ k.hashBytes.bytes ++ ser_writedata32be k.blockHeight.toUInt32 ++
    ser_writedata32be k.txindex ++ k.txhash.bytes ++ ser_writedata32 k.index.toUInt32 ++
    ser_writedata8 (if k.spending then 1 else 0)

def Unserialize : Reader CAddressIndexKey := do
  let type ← ser_readdata8
  let hashBytes ← Reader.blob endOfData 32
  let blockHeight ← ser_readdata32be
  let txindex ← ser_readdata32be
  let txhash ← Reader.blob endOfData 32
  let index ← ser_readdata32
  let f ← ser_readdata8
  pure ⟨type.toUInt32, hashBytes, blockHeight.toInt32, txindex, txhash, index.toUInt64, f != 0⟩

end CAddressIndexKey

/-- `CAddressIndexIteratorKey(type, hashBytes)` serialized. -/
def CAddressIndexIteratorKey (type : UInt32) (hashBytes : uint256) : Bytes :=
  ser_writedata8 type.toUInt8 ++ hashBytes.bytes

/-- `CAddressIndexIteratorHeightKey(type, hashBytes, blockHeight)` serialized. -/
def CAddressIndexIteratorHeightKey (type : UInt32) (hashBytes : uint256) (blockHeight : Int32) :
    Bytes :=
  ser_writedata8 type.toUInt8 ++ hashBytes.bytes ++ ser_writedata32be blockHeight.toUInt32

structure CAddressUnspentKey where
  type : UInt32
  hashBytes : uint256
  txhash : uint256
  index : UInt64
  deriving DecidableEq

namespace CAddressUnspentKey

def Serialize (k : CAddressUnspentKey) : Bytes :=
  ser_writedata8 k.type.toUInt8 ++ k.hashBytes.bytes ++ k.txhash.bytes ++
    ser_writedata32 k.index.toUInt32

def Unserialize : Reader CAddressUnspentKey := do
  let type ← ser_readdata8
  let hashBytes ← Reader.blob endOfData 32
  let txhash ← Reader.blob endOfData 32
  let index ← ser_readdata32
  pure ⟨type.toUInt32, hashBytes, txhash, index.toUInt64⟩

end CAddressUnspentKey

structure CAddressUnspentValue where
  satoshis : Int64
  script : CScript
  blockHeight : Int32
  deriving DecidableEq

namespace CAddressUnspentValue

def Serialize (v : CAddressUnspentValue) : Bytes :=
  serializeInt64 v.satoshis ++ serializeBytes v.script ++ serializeInt32 v.blockHeight

def Unserialize : Reader CAddressUnspentValue := do
  let satoshis ← unserializeInt64
  let script ← unserializeBytes
  let blockHeight ← unserializeInt32
  pure ⟨satoshis, script, blockHeight⟩

end CAddressUnspentValue

/-- `std::pair<uint8_t, K>` read from a database key. -/
def readPrefixed {K : Type} (r : Reader K) : Reader (UInt8 × K) := do
  let p ← ser_readdata8
  let k ← r
  pure (p, k)

/-- `CDBIterator::GetKey` and `GetValue`: the object, or `none` when reading
throws. -/
def readAll {α : Type} (r : Reader α) (bs : Bytes) : Option α :=
  match r.run bs with
  | .ok (a, _) => some a
  | .error _ => none

/-! ## The database -/

/-- The block-tree database: key and value byte strings, in increasing byte
order of key. -/
structure BlockTreeDB where
  entries : List (Bytes × Bytes)
  sorted : entries.Pairwise (fun a b => a.1 < b.1)

/-- `pcursor->Seek(key)`: the entries from the first key at or above `key`. -/
def BlockTreeDB.Seek (db : BlockTreeDB) (key : Bytes) : List (Bytes × Bytes) :=
  db.entries.dropWhile (fun e => decide (e.1 < key))

/-- The loop of `ReadAddressIndex` over the entries from the cursor: whether it
returned true, and what it appended to `addressIndex`. -/
def readAddressIndexFrom (addressHash : uint256) (end_ : Int32) :
    List (Bytes × Bytes) → Bool × List (CAddressIndexKey × CAmount)
  | [] => (true, [])
  | (k, v) :: rest =>
    match readAll (readPrefixed CAddressIndexKey.Unserialize) k with
    | some (p, key) =>
      if p = DB_ADDRESSINDEX ∧ key.hashBytes = addressHash then
        if 0 < end_ ∧ end_ < key.blockHeight then (true, [])
        else
          match readAll unserializeInt64 v with
          | some nValue =>
            let r := readAddressIndexFrom addressHash end_ rest
            (r.1, (key, nValue.toInt) :: r.2)
          -- "failed to get address index value"
          | none => (false, [])
      else (true, [])
    | none => (true, [])

/-- `CBlockTreeDB::ReadAddressIndex(addressHash, type, addressIndex, start, end)`,
with no shutdown requested. -/
def ReadAddressIndex (db : BlockTreeDB) (addressHash : uint256) (type start end_ : Int32) :
    Bool × List (CAddressIndexKey × CAmount) :=
  let seekKey :=
    if 0 < start ∧ 0 < end_ then
      DB_ADDRESSINDEX :: CAddressIndexIteratorHeightKey type.toUInt32 addressHash start
    else DB_ADDRESSINDEX :: CAddressIndexIteratorKey type.toUInt32 addressHash
  readAddressIndexFrom addressHash end_ (db.Seek seekKey)

/-- The loop of `ReadAddressUnspentIndex`. -/
def readAddressUnspentIndexFrom (addressHash : uint256) :
    List (Bytes × Bytes) → Bool × List (CAddressUnspentKey × CAddressUnspentValue)
  | [] => (true, [])
  | (k, v) :: rest =>
    match readAll (readPrefixed CAddressUnspentKey.Unserialize) k with
    | some (p, key) =>
      if p = DB_ADDRESSUNSPENTINDEX ∧ key.hashBytes = addressHash then
        match readAll CAddressUnspentValue.Unserialize v with
        | some nValue =>
          let r := readAddressUnspentIndexFrom addressHash rest
          (r.1, (key, nValue) :: r.2)
        | none => (false, [])
      else (true, [])
    | none => (true, [])

/-- `CBlockTreeDB::ReadAddressUnspentIndex(addressHash, type, unspentOutputs)`. -/
def ReadAddressUnspentIndex (db : BlockTreeDB) (addressHash : uint256) (type : Int32) :
    Bool × List (CAddressUnspentKey × CAddressUnspentValue) :=
  readAddressUnspentIndexFrom addressHash
    (db.Seek (DB_ADDRESSUNSPENTINDEX :: CAddressIndexIteratorKey type.toUInt32 addressHash))

/-! ## Entries of another type -/

/-- An address-index key of the zero hash with the given type and height. -/
def keyOfType (type : UInt32) (blockHeight : Int32) : CAddressIndexKey :=
  ⟨type, Blob.zero 32, blockHeight, 0, Blob.zero 32, 0, false⟩

/-- An unspent-index key of the zero hash with the given type. -/
def unspentOfType (type : UInt32) : CAddressUnspentKey := ⟨type, Blob.zero 32, Blob.zero 32, 0⟩

/-- One address of type 1 at height 5 and one of type 2 at height 1, with the
same hash, each with an unspent output. -/
def twoTypesDB : BlockTreeDB where
  entries :=
    [(DB_ADDRESSINDEX :: (keyOfType 1 5).Serialize, serializeInt64 10),
     (DB_ADDRESSINDEX :: (keyOfType 2 1).Serialize, serializeInt64 20),
     (DB_ADDRESSUNSPENTINDEX :: (unspentOfType 1).Serialize,
       CAddressUnspentValue.Serialize ⟨10, [], 5⟩),
     (DB_ADDRESSUNSPENTINDEX :: (unspentOfType 2).Serialize,
       CAddressUnspentValue.Serialize ⟨20, [], 1⟩)]
  sorted := by decide

/-- Asked for type 1, both scans also return the entry of type 2, whose key
follows in byte order with the same hash; the address entries then come at
heights 5 and 1. -/
theorem readAddressIndex_reads_other_type :
    ReadAddressIndex twoTypesDB (Blob.zero 32) 1 0 0 =
      (true, [(keyOfType 1 5, 10), (keyOfType 2 1, 20)]) ∧
    ReadAddressUnspentIndex twoTypesDB (Blob.zero 32) 1 =
      (true, [(unspentOfType 1, ⟨10, [], 5⟩), (unspentOfType 2, ⟨20, [], 1⟩)]) := by
  constructor
  · decide
  · decide

end Globe
