import BitBay.Library.Apportion
import BitBay.Library.Shares
import BitBay.Library.SortedMap
import BitBay.Library.Run
import BitBay.Base.Text
import BitBay.Base.Types
import BitBay.Base.Script
import BitBay.Peg.Fractions
import BitBay.Peg.Ratio
import BitBay.Peg.Standard
import BitBay.Peg.InputSteps
import BitBay.Peg.Pools
import BitBay.Peg.OutputSteps
import BitBay.Peg.Conservation
import BitBay.Peg.Reserve
import BitBay.Peg.Cold
import BitBay.Peg.Level
import BitBay.Peg.Exchange
import BitBay.Peg.Cycle
import BitBay.Chain.BestChain
import BitBay.Chain.Publish
import BitBay.Bridge.Compressed
import BitBay.Bridge.LeafAmounts
import BitBay.Bridge.Mint
import BitBay.Peg.Staking
import BitBay.Peg.Failures
import BitBay.Chain.SupplyIndex
import BitBay.Chain.Predictions
import BitBay.Peg.Moves
import BitBay.Governance.Tally
import BitBay.Governance.BlockVotes
import BitBay.Chain.FetchInputs
import BitBay.Chain.BridgePools
import BitBay.Chain.ConnectBlock
import BitBay.Chain.IndexEntries
import BitBay.Chain.NodeRun
import BitBay.Chain.MissingFractions
import BitBay.Chain.DoubleMint
import BitBay.Chain.FractionEntries
import BitBay.Chain.PoolRecords
import BitBay.Chain.MintAdmission
import BitBay.Chain.SpentMarks
import BitBay.Base.Base64
import BitBay.Library.Windows
import BitBay.Library.Decode
import BitBay.Library.Wire
import BitBay.Peg.Codec
import BitBay.Peg.PreviousFormats
import BitBay.Peg.CurrentFormat
import BitBay.Bridge.HexText
import BitBay.Bridge.Draw
import BitBay.Bridge.MintBounds
import BitBay.Bridge.RepeatedDraw
import BitBay.Chain.BridgeBurns
import BitBay.Chain.ReturnOutputs
import BitBay.Chain.BurnCredits
import BitBay.Chain.Mempool
import BitBay.Chain.MempoolIndex
import BitBay.Library.CrossRatio
import BitBay.Peg.LevelOrder
import BitBay.Bridge.Pushes
import BitBay.Bridge.MintCodec
import BitBay.Library.HashTree
import BitBay.Bridge.MerkleTree
import BitBay.Chain.BridgeMerkle
import BitBay.Governance.MapItems
import BitBay.Governance.Notary
import BitBay.Governance.NotaryForms
import BitBay.Governance.OnBehalf
import BitBay.Chain.ExchangeTx
import BitBay.Governance.NotaryText
import BitBay.Library.MapEntries
import BitBay.Governance.Effect
import BitBay.Governance.StateData
import BitBay.Governance.Storage
import BitBay.Wallet.WalletTx
import BitBay.Wallet.PegView
import BitBay.Peg.RatioLoops
import BitBay.Wallet.CoinSelection
import BitBay.Peg.LevelStamps
import BitBay.Wallet.WalletSync
import BitBay.Wallet.SpentFlags
import BitBay.Wallet.SpentCoins
import BitBay.Wallet.StoredFractions
import BitBay.Chain.ForkChoice
import BitBay.Library.Ledger
import BitBay.Chain.MoneySupply
import BitBay.Library.PendingWrites
import BitBay.Database.PointReads
import BitBay.Database.Ranges
import BitBay.Peg.LevelSplit
import BitBay.Peg.ShiftConsume
import BitBay.Peg.UnpackContents
import BitBay.Peg.PreviousContents
import BitBay.Peg.FormatPurity
import BitBay.Peg.LevelText
import BitBay.Chain.VoteWeight
import BitBay.Library.Positional
import BitBay.Base.Base58
import BitBay.Wallet.Destination
import BitBay.Wallet.CoinsToUse
import BitBay.Wallet.Maintenance
import BitBay.Peg.Withdraw
import BitBay.Chain.NotaryScript
import BitBay.Chain.WithdrawTx
import BitBay.Library.LevelTree
import BitBay.Chain.MerkleBranch
import BitBay.Peg.StdExpansion
import BitBay.Library.SortedMultimap
import BitBay.Library.WorkQueue
import BitBay.Chain.OrphanBlocks
import BitBay.Chain.OrphanPool
import BitBay.Chain.OrphanRuns
import BitBay.Library.Scan
import BitBay.Library.Matching
import BitBay.Script.Checks
import BitBay.Script.Machine
import BitBay.Script.Effects
import BitBay.Script.Limits
import BitBay.Script.Templates
import BitBay.Script.Multisig
import BitBay.Script.SignedKeys
import BitBay.Library.BigEndian
import BitBay.Script.Signatures
import BitBay.Script.Permits
import BitBay.Chain.AcceptTwice
import BitBay.Script.Payments
import BitBay.Script.Signing
import BitBay.Script.Combine
import BitBay.Script.SignRaw
import BitBay.Library.BackIndex
import BitBay.Library.Slots
import BitBay.Network.NetAddr
import BitBay.Network.AddrMan
import BitBay.Network.AddrTables
import BitBay.Network.AddrSteps
import BitBay.Network.AddrCalls
import BitBay.Network.AddrCheck
import BitBay.Network.AddrRuns
