import FeOS.Proofs.AttachedPlaces
import FeOS.Proofs.AttachedProcess
import FeOS.Proofs.BakeSnapshot
import FeOS.Proofs.BodyRedacted
import FeOS.Proofs.Bookings
import FeOS.Proofs.BudgetActor
import FeOS.Proofs.ChainsLoad
import FeOS.Proofs.ChunksBacked
import FeOS.Proofs.Coalescing
import FeOS.Proofs.DeletedPod
import FeOS.Proofs.EnvHistory
import FeOS.Proofs.EvictionOrder
import FeOS.Proofs.FramesRedacted
import FeOS.Proofs.HibernateOrResume
import FeOS.Proofs.HibernationKeeps
import FeOS.Proofs.HoldKeeps
import FeOS.Proofs.JobsOnce
import FeOS.Proofs.LogAccounted
import FeOS.Proofs.LogPages
import FeOS.Proofs.LogRedacted
import FeOS.Proofs.LongestRoute
import FeOS.Proofs.ManifestFaithful
import FeOS.Proofs.QuotaLimits
import FeOS.Proofs.ReleaseOrder
import FeOS.Proofs.RowMachine
import FeOS.Proofs.SealIdentity
import FeOS.Proofs.SetUpdates
import FeOS.Proofs.SplitInvisible
import FeOS.Proofs.StopResumed
import FeOS.Proofs.SweepHeads
import FeOS.Proofs.SweepReport
import FeOS.Proofs.SyncsCover
import FeOS.Proofs.TombstoneSpares
import FeOS.Proofs.VolumeOwners
