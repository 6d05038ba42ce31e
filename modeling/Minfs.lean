import Minfs.Format
import Minfs.AllocationState
import Minfs.BlockMap
import Minfs.Allocator
import Minfs.Vfs
import Minfs.File
import Minfs.Write
import Minfs.Reachable
import Minfs.Proofs.Swap
import Minfs.Proofs.Commit
import Minfs.Proofs.DirtyBytes
import Minfs.Proofs.BlockCount
import Minfs.Steps
import Minfs.Proofs.Sizes
import Minfs.Proofs.Steps
import Minfs.Proofs.Ownership
import Minfs.Proofs.Accounting
import Minfs.Proofs.Reserve
import Minfs.Proofs.Frame
import Minfs.Proofs.Truncate
import Minfs.Proofs.WriteThrough
import Minfs.Proofs.View
import Minfs.Proofs.Content
