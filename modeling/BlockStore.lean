import BlockStore.Device.File
import BlockStore.Keeper.Scripted
import BlockStore.Main
import BlockStore.Proofs.Accounting
import BlockStore.Proofs.AppendOnly
import BlockStore.Proofs.BlockSet
import BlockStore.Proofs.Boundary
import BlockStore.Proofs.CatalogKeeper
import BlockStore.Proofs.ChunkImages
import BlockStore.Proofs.CopyOnWrite
import BlockStore.Proofs.CrashSafety
import BlockStore.Proofs.Damage
import BlockStore.Proofs.Lowering
import BlockStore.Proofs.Maintenance
import BlockStore.Proofs.NewChunk
import BlockStore.Proofs.Refinement
import BlockStore.Proofs.Shelter
import BlockStore.Proofs.CommitFailure
import BlockStore.Proofs.WriteFailure
import BlockStore.Proofs.Gain
import BlockStore.Proofs.ImageReading
import BlockStore.Proofs.Shrinking
import BlockStore.Proofs.IndexSet
import BlockStore.Proofs.Fragmentation
import BlockStore.Proofs.Backends
import BlockStore.Proofs.Agreement
import BlockStore.Proofs.Files
import BlockStore.Proofs.ScriptedKeeper
