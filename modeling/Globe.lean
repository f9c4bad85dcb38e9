import Globe.Lib.Bytes
import Globe.Lib.Reader
import Globe.Lib.Undefined
import Globe.Serialize
import Globe.Primitives.Transaction
import Globe.Arith.Uint256
import Globe.Chain.Params
import Globe.Pos.Difficulty
import Globe.Pos.Kernel
import Globe.Smsg.Difficulty
import Globe.Primitives.CoinStakeData
import Globe.Key.ExtKey
import Globe.Key.ExtKeyPath
import Globe.Key.ExtKeyAccount
import Globe.Key.AccountInvariants
import Globe.Insight.AddressIndex
import Globe.Key.Stealth
import Globe.Key.Mnemonic
import Globe.Key.MnemonicRoundTrip
import Globe.Key.AddChecksum
import Globe.Primitives.TransactionCodec
import Globe.Script.ColdStake
import Globe.Consensus.TxVerify
import Globe.Smsg.Inventory
import Globe.Blind.RangeProof
import Globe.Consensus.TxInputs
import Globe.Consensus.TxBalance
import Globe.Chain.Treasury
import Globe.Lib.CyclicField
import Globe.Key.Shamir39
import Globe.Key.Shamir39Field
import Globe.Key.Shamir39RoundTrip
import Globe.Lib.Positional
import Globe.Codec.Base58
import Globe.Codec.Bech32
