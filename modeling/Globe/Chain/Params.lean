import Globe.Arith.Uint256
import Globe.Primitives.Transaction

/-!
# Chain parameters and block indices

The parts of `CChainParams`, `Consensus::Params` and `CBlockIndex` that the
target and difficulty rules read.  A block index is the header data of a block
with a link to its predecessor; `pprev = none` is the genesis block.

`mainParams` are the values `CMainParams` sets in `chainparams.cpp`; its last
height of the import phase is the largest height among the imported coinbase
transactions of `chain/chainparamsimport.h`.
-/

namespace Globe

open ByteCodec

/-- The chain and consensus parameters the modelled rules read.  The target
spacing divides the target timespan, so it is positive. -/
structure ChainParams where
  nTargetSpacing : UInt32
  nTargetTimespan : UInt32
  nLastImportHeight : UInt32
  powLimit : arith_uint256
  smsg_min_difficulty : UInt32
  smsg_difficulty_max_delta : UInt32
  smsg_difficulty_time : UInt32
  nTargetSpacing_pos : 0 < nTargetSpacing.toNat

/-- `CMainParams`. -/
def mainParams : ChainParams where
  nTargetSpacing := 120
  nTargetTimespan := 24 * 60
  nLastImportHeight := 68
  powLimit := 0x7fffffffffffffffffffffffffffffffffffffffffffffffffffffffffffff
  smsg_min_difficulty := 0x1effffff
  smsg_difficulty_max_delta := 0xffff
  smsg_difficulty_time := 0x5D2DBC40
  nTargetSpacing_pos := by decide

/-- `UintToArith256`: the 32 bytes of a `uint256` as a little-endian number. -/
def UintToArith256 (a : uint256) : arith_uint256 := BitVec.ofNat 256 (leValue a.bytes)

theorem toNat_uintToArith256 (a : uint256) : (UintToArith256 a).toNat = leValue a.bytes := by
  have hlt : leValue a.bytes < 2 ^ 256 := by
    have h := leValue_lt a.bytes
    rwa [a.length_eq, show (256 : Nat) ^ 32 = 2 ^ 256 from rfl] at h
  rw [UintToArith256, BitVec.toNat_ofNat, Nat.mod_eq_of_lt hlt]

/-- A block index: height, header time and bits, the stake modifier, and the
predecessor. -/
structure CBlockIndex where
  nHeight : Int
  nTime : UInt32
  nBits : UInt32
  bnStakeModifier : uint256
  pprev : Option CBlockIndex

/-- `GetBlockTime()`: the header time as an `int64_t`. -/
def CBlockIndex.GetBlockTime (b : CBlockIndex) : Int := b.nTime.toNat

end Globe
