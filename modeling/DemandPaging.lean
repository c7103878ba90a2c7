import DemandPaging.File.Memory
import DemandPaging.File.Journal
import DemandPaging.Lock
import DemandPaging.Machine.Operation
import DemandPaging.Proofs.Access
import DemandPaging.Proofs.Bitmap
import DemandPaging.Proofs.Pool
import DemandPaging.Proofs.Program
import DemandPaging.Proofs.SwapImage
import DemandPaging.Proofs.View
import DemandPaging.Proofs.Custody
import DemandPaging.Proofs.Effect
import DemandPaging.Proofs.Eviction
import DemandPaging.Proofs.PageIn
import DemandPaging.Proofs.Mapping
import DemandPaging.Proofs.Fault
import DemandPaging.Proofs.Operation
import DemandPaging.Proofs.UserMemory
import DemandPaging.Proofs.Reachable
import DemandPaging.Proofs.Residency
import DemandPaging.Proofs.Sources
import DemandPaging.Proofs.Halts
import DemandPaging.Proofs.Honest
import DemandPaging.Proofs.Image
import DemandPaging.Proofs.Contents
import DemandPaging.Proofs.Memory
import DemandPaging.Proofs.Transparency
import DemandPaging.Proofs.Writes
import DemandPaging.Proofs.MappedFile
import DemandPaging.Proofs.Unmapping
import DemandPaging.Proofs.Recency
import DemandPaging.Proofs.Progress
import DemandPaging.Proofs.Outline
import DemandPaging.Proofs.Discreet
import DemandPaging.Proofs.Blind
import DemandPaging.Proofs.Asks
import DemandPaging.Proofs.Exit
import DemandPaging.Proofs.SecondChance
import DemandPaging.Proofs.Pinned
import DemandPaging.Proofs.Entrusted
import DemandPaging.Proofs.WholeMapping
import DemandPaging.Proofs.FailedArrival
import DemandPaging.Proofs.FaultDecision
import DemandPaging.Proofs.UserCopy
import DemandPaging.Proofs.NonInterference
import DemandPaging.Proofs.BytewiseAccess
import DemandPaging.Proofs.PageStore
import DemandPaging.Proofs.UserString
import DemandPaging.Proofs.Estate
import DemandPaging.Proofs.IndexSet
import DemandPaging.Proofs.SectorArrays
import DemandPaging.Proofs.Lending
import DemandPaging.Proofs.FrameNumbers
import DemandPaging.Proofs.Rounds
