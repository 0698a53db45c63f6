import HdacNode.PermissionRecovery
import HdacNode.AssetConservation
import HdacNode.EntityRecovery
import HdacNode.ScriptProgress
import HdacNode.DisconnectedIndexes
import HdacNode.UndoRecords
import HdacNode.PermissionJournal
import HdacNode.PermissionTraces
import HdacNode.CandidateOrder
import HdacNode.FailingActions
import HdacNode.WindowVerdicts
import HdacNode.SignedTemplates
import HdacNode.RetargetProducts
import HdacNode.OpaquePayloads
import HdacNode.ScannerProgress
import HdacNode.ScannedOpcodes
import HdacNode.MempoolIndexes
import HdacNode.ReplayList
import HdacNode.NameBuffers
import HdacNode.MetadataRoundTrip
import HdacNode.PermissionKeyRows
import HdacNode.GovernanceSearch
import HdacNode.EntityReorg
import HdacNode.EntityUniqueness
import HdacNode.EntityIssues
import HdacNode.UbjsonRobustness
import HdacNode.UbjsonRoundTrip
import HdacNode.DroppedElements
import HdacNode.TemplateOrder
import HdacNode.NumberedRows
import HdacNode.WalletListBlocks
import HdacNode.WalletListPages
import HdacNode.PermissionNames
import HdacNode.MiningDiversity
import HdacNode.UpgradeApprovals
import HdacNode.PermissionLogRuns
import HdacNode.RequiredVotes
import HdacNode.PermissionListing
import HdacNode.PermissionListOpening
import HdacNode.PermissionListAnswers
import HdacNode.PermissionListAgreement
import HdacNode.OpenWindows
import HdacNode.LinkedBuckets
import HdacNode.AssetGroups
import HdacNode.AssetGroupRows
import HdacNode.AssetGroupInvariant
import HdacNode.AssetGroupSteps
import HdacNode.AssetGroupResize
import HdacNode.AssetGroupAdding
import HdacNode.AssetGroupRuns
import HdacNode.MerkleBranches
import HdacNode.SkipPointers
import HdacNode.SignatureElements
import HdacNode.DetailsCodec
import HdacNode.AssetQuantityCodec
import HdacNode.FollowOnRuns
import HdacNode.HeaderRuns
import HdacNode.BufferMemory
import HdacNode.BufferIndex
import HdacNode.PositionalDigits
import HdacNode.Base58
import HdacNode.Base58Address
import HdacNode.WordNumbers
import HdacNode.BaseUint
import HdacNode.BlockProof
import HdacNode.ParamList
import HdacNode.ParamBlob
import HdacNode.VarInts
import HdacNode.CompressedOutputs
import HdacNode.CoinsRecord
import HdacNode.KeyedWrites
import HdacNode.CoinsCache
import HdacNode.CoinsCacheFits
import HdacNode.CoinsCacheSteps
import HdacNode.CoinsCacheRuns
import HdacNode.TipCoins
