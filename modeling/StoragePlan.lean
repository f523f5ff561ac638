import StoragePlan.Main
import StoragePlan.Proofs.Agreement
import StoragePlan.Proofs.ImportOrder
import StoragePlan.Proofs.Promises
import StoragePlan.Proofs.Restoration
import StoragePlan.Proofs.Retry
import StoragePlan.Proofs.ImportPath
import StoragePlan.Proofs.Insertions
import StoragePlan.Proofs.Moments
import StoragePlan.Proofs.AddressMap
import StoragePlan.Proofs.Denotation
import StoragePlan.Proofs.Frames
import StoragePlan.Proofs.Levels
import StoragePlan.Proofs.Accretion
import StoragePlan.Proofs.RecordedTypes
import StoragePlan.Proofs.Independence
import StoragePlan.Proofs.Spelling
import StoragePlan.Proofs.Recognition
import StoragePlan.Proofs.InitialValues
import StoragePlan.Proofs.Interning
import StoragePlan.Proofs.Termination
import StoragePlan.Proofs.Tiling
import StoragePlan.Proofs.PackedSizes
import StoragePlan.Proofs.Precedence
import StoragePlan.Proofs.Printing
import StoragePlan.Proofs.Rereading
import StoragePlan.Proofs.TypeClosure
import StoragePlan.Proofs.Lines
import StoragePlan.Proofs.Exits
import StoragePlan.Proofs.Concatenation
import StoragePlan.Proofs.Seams
import StoragePlan.Proofs.Addresses
import StoragePlan.Proofs.Meanings
import StoragePlan.Proofs.Rounds
import StoragePlan.Proofs.Reordering
