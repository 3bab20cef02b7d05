import NebularOs.PercentCoding
import NebularOs.BlobFilenames
import NebularOs.BlobPaths
import NebularOs.RequestPrograms
import NebularOs.TaskPools
import NebularOs.EngineState
import NebularOs.WritePath
import NebularOs.OperationRules
import NebularOs.SwapRules
import NebularOs.CommitRollback
import NebularOs.FallbackCrash
import NebularOs.Listing
import NebularOs.Chunks
import NebularOs.PagedRemoval
import NebularOs.PrefixDeletion
import NebularOs.BlobOnlyDeletion
import NebularOs.BlobFormats
import NebularOs.SharedBlocks
import NebularOs.BlobEncoding
import NebularOs.BlobDecoding
import NebularOs.IndexedReading
import NebularOs.BlobRoundTrip
import NebularOs.BodyStreams
import NebularOs.TaskHistories
import NebularOs.UrlEncoding
import NebularOs.Signatures
import NebularOs.SigV4
import NebularOs.CanonicalRequests
import NebularOs.PresignedUrls
import NebularOs.Multipart
import NebularOs.MultipartAssembly
import NebularOs.ReplicatedNode
import NebularOs.ReplicatedCluster
import NebularOs.ClusterSafety
import NebularOs.ClusterRuns
import NebularOs.ConditionalWrites
import NebularOs.Tombstones
import NebularOs.ReplicaAgreement
import NebularOs.RestoredContents
import NebularOs.Backfill
import NebularOs.CrashedChanges
import NebularOs.LayoutAgreement
import NebularOs.DecoderAgreement
import NebularOs.EncoderAgreement
import NebularOs.BlockReferences
import NebularOs.CheckedReading
import NebularOs.HostileContainers
import NebularOs.FilenameDecoding
import NebularOs.ForwardedMetadata
import NebularOs.DeliveryWorker
import NebularOs.BackfillDelivery
import NebularOs.TombstoneRetention
import NebularOs.DeliveredEvents
import NebularOs.RangeRequests
import NebularOs.PeerLists
import NebularOs.BatchDeletion
import NebularOs.MultipartAdmission
import NebularOs.StreamLengths
import NebularOs.Scrubbing
import NebularOs.BlobOnlyReads
import NebularOs.PrefixCounts
import NebularOs.CursorWalks
import NebularOs.KeyPages
import NebularOs.ScrubPasses
import NebularOs.BlobMaintenance
import NebularOs.GrowingBlocks
import NebularOs.MaintenanceWalks
import NebularOs.BlockCaches
import NebularOs.BlockTables
import NebularOs.DictStores
import NebularOs.KeyLocks
import NebularOs.RangedReads
import NebularOs.UploadBudgets
