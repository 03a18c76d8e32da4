import Rcpu.PrefixCode
import Rcpu.ByteStream
import Rcpu.Checks
import Rcpu.WeightedMap
import Rcpu.Pedersen
import Rcpu.Serialize
import Rcpu.Confidential
import Rcpu.Transaction
import Rcpu.TransactionWire
import Rcpu.TxCheck
import Rcpu.ConfidentialValidation
import Rcpu.Script
import Rcpu.Coins
import Rcpu.TxVerify
import Rcpu.Validation
import Rcpu.Supply
import Rcpu.ExplicitAmounts
import Rcpu.AncestorClosure
import Rcpu.Mempool
import Rcpu.Compressor
import Rcpu.Undo
import Rcpu.Disconnect
import Rcpu.ChainActivation
import Rcpu.Blind
import Rcpu.Policy
import Rcpu.WalletSpend
import Rcpu.WalletBalance
import Rcpu.RangeProof
import Rcpu.Interpreter
import Rcpu.ScriptCode
import Rcpu.SigHash
import Rcpu.CoinStats
import Rcpu.ArithUint256
import Rcpu.Pow
import Rcpu.PowDispatch
import Rcpu.Difficulty
import Rcpu.ParentPass
import Rcpu.BlockIndex
import Rcpu.Solver
import Rcpu.Codeword
import Rcpu.Bech32
import Rcpu.ConfidentialAddress
import Rcpu.Unblind
import Rcpu.WalletReceive
import Rcpu.Tally
import Rcpu.ForkedLog
import Rcpu.CoinSums
import Rcpu.CoinIndex
import Rcpu.IndexedChain
import Rcpu.CoinIndexRuns
import Rcpu.TxFees
import Rcpu.IndexRewards
import Rcpu.Json
import Rcpu.CoreWrite
import Rcpu.BlockStats
import Rcpu.UtxoStats
import Rcpu.WriteBack
import Rcpu.CoinsCache
import Rcpu.CoinsStack
import Rcpu.CoinsUsage
import Rcpu.HashChain
import Rcpu.HeadersSync
import Rcpu.HeadersSyncRuns
import Rcpu.HeadersSyncComplete
import Rcpu.SwapList
import Rcpu.Orphanage
import Rcpu.OrphanageRuns
import Rcpu.ExceptRel
import Rcpu.WalletCache
import Rcpu.WalletRecords
import Rcpu.WalletAnswers
import Rcpu.WalletLock
import Rcpu.WalletCoherence
import Rcpu.WalletUnlock
import Rcpu.WalletFeeLoop
import Rcpu.FloorScale
import Rcpu.CompactTarget
import Rcpu.Asert
import Rcpu.TargetRange
import Rcpu.ShareHash
import Rcpu.Radix
import Rcpu.BaseUint
import Rcpu.CompactWords
import Rcpu.BinaryPower
import Rcpu.EtchashPrime
import Rcpu.CheckedMemory
import Rcpu.Etchash
import Rcpu.EtchashExact
import Rcpu.Sponge
import Rcpu.Keccak
import Rcpu.Recency
import Rcpu.LruCache
import Rcpu.TokenBucket
import Rcpu.PeerBudgets
import Rcpu.PairedLoop
import Rcpu.SquareSum
import Rcpu.QHash
