import Sbunix.Ahci
import Sbunix.ArchiveIndex
import Sbunix.Boot
import Sbunix.Clock
import Sbunix.CommandLine
import Sbunix.CommandMemory
import Sbunix.Concatenation
import Sbunix.CopyOnWrite
import Sbunix.Descriptors
import Sbunix.DirtyFrames
import Sbunix.Echo
import Sbunix.Execve
import Sbunix.Fairness
import Sbunix.FileTree
import Sbunix.ForkFrame
import Sbunix.FormatLoops
import Sbunix.HeaderWalk
import Sbunix.HeapContents
import Sbunix.HeapRequests
import Sbunix.IdentityWindow
import Sbunix.IndexBounds
import Sbunix.InputBuffer
import Sbunix.Isolation
import Sbunix.KernelHalf
import Sbunix.KernelImage
import Sbunix.KernelStack
import Sbunix.Kmalloc
import Sbunix.Lib.Copying
import Sbunix.MemoryCopy
import Sbunix.MemoryMap
import Sbunix.MissingFile
import Sbunix.MissingProgram
import Sbunix.NameComparers
import Sbunix.Numerals
import Sbunix.PathScan
import Sbunix.Printf
import Sbunix.ProcessIds
import Sbunix.ProcessList
import Sbunix.ProgramImage
import Sbunix.Reading
import Sbunix.SegmentPages
import Sbunix.ShellTables
import Sbunix.ShiftKey
import Sbunix.SizeFields
import Sbunix.Switching
import Sbunix.TaskStrings
import Sbunix.Tokenizer
import Sbunix.UserHeap
import Sbunix.VmaList
import Sbunix.Waitpid
import Sbunix.WorkingDirectory
