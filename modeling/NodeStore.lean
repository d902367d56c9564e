import NodeStore.Main
import NodeStore.Proofs.AppliedUpdates
import NodeStore.Proofs.AtomicUpdates
import NodeStore.Proofs.BatchOrder
import NodeStore.Proofs.BatchSize
import NodeStore.Proofs.CheckpointHistory
import NodeStore.Proofs.Checkpoints
import NodeStore.Proofs.ClusterHistory
import NodeStore.Proofs.CommitForms
import NodeStore.Proofs.CommitRecords
import NodeStore.Proofs.CommitsAdded
import NodeStore.Proofs.CommutingSweeps
import NodeStore.Proofs.Completeness
import NodeStore.Proofs.ContendedEntry
import NodeStore.Proofs.CorrectedDocument
import NodeStore.Proofs.CorrectionCounts
import NodeStore.Proofs.Corrections
import NodeStore.Proofs.CrashRecovery
import NodeStore.Proofs.DecisionTable
import NodeStore.Proofs.Delivery
import NodeStore.Proofs.Entries
import NodeStore.Proofs.GuardedUpdates
import NodeStore.Proofs.Interleaving
import NodeStore.Proofs.JsonText
import NodeStore.Proofs.MemberSweep
import NodeStore.Proofs.MergeRevisions
import NodeStore.Proofs.PathGrammar
import NodeStore.Proofs.PathText
import NodeStore.Proofs.PathTree
import NodeStore.Proofs.ProgressReports
import NodeStore.Proofs.RacingCorrections
import NodeStore.Proofs.RacingDelivery
import NodeStore.Proofs.RecordedCheckpoints
import NodeStore.Proofs.RecoverySweep
import NodeStore.Proofs.RejectedCorrections
import NodeStore.Proofs.RepeatedCorrection
import NodeStore.Proofs.RevisionText
import NodeStore.Proofs.Safety
import NodeStore.Proofs.Snapshots
import NodeStore.Proofs.StoreKeys
import NodeStore.Proofs.SweepBookkeeping
import NodeStore.Proofs.SweepOutcomes
import NodeStore.Proofs.SweepRun
import NodeStore.Proofs.UnchangedStore
import NodeStore.Proofs.UpdateHistory
import NodeStore.Proofs.UpdateText
import NodeStore.Proofs.VectorText
import NodeStore.Proofs.WriteHistory
import NodeStore.Proofs.WriteOrder
import NodeStore.Sweep.Trial
