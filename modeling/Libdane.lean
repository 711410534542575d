import Libdane.Memory.LinearSavepoints
import Libdane.Memory.LinearRewind
import Libdane.Memory.LinearCommit
import Libdane.Memory.PoolFrame
import Libdane.Memory.PoolValidation
import Libdane.Utils.DarrayRuns
import Libdane.Platform.StaticLifeCycle
import Libdane.Filesystem.PathDotFree
import Libdane.Filesystem.PathInputEnd
import Libdane.Filesystem.PathLowEnd
import Libdane.Filesystem.PathCapacity
import Libdane.Filesystem.PathIdempotence
import Libdane.Filesystem.PathPlacement
import Libdane.Memory.LinearGrowth
import Libdane.Utils.ArraySizing
import Libdane.Utils.ArrayInsertion
import Libdane.Filesystem.PathLargerBuffer
import Libdane.Platform.SequentialCalls
import Libdane.Platform.BufferRelease
import Libdane.Platform.SlotIsolation
import Libdane.Framework.BlockHeap
import Libdane.Utils.ArrayCalls
import Libdane.Utils.ArrayStore
import Libdane.Utils.ArrayPointers
import Libdane.Memory.PoolOrder
import Libdane.Testing.Registry
import Libdane.Errors.ErrorIsolation
import Libdane.Memory.LinearArena
import Libdane.Filesystem.FilepathAllocator
import Libdane.Filesystem.PathComposition
import Libdane.Filesystem.CharEquality
import Libdane.Filesystem.PathPeak
import Libdane.Filesystem.PathRelative
import Libdane.Framework.FileTree
import Libdane.Filesystem.PathMeaning
import Libdane.Filesystem.PathOutput
import Libdane.Memory.PoolObjects
