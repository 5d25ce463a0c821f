import OpenkalMusl.Bits.Mask
import OpenkalMusl.Transition.Run
import OpenkalMusl.Transition.Answers
import OpenkalMusl.Transition.History
import OpenkalMusl.Transition.Ownership
import OpenkalMusl.Probing.Table
import OpenkalMusl.Ranges.Ordered
import OpenkalMusl.Lexical.Reduction
import OpenkalMusl.Names.Agreement
import OpenkalMusl.Names.Volumes
import OpenkalMusl.Names.NullDevice
import OpenkalMusl.Names.InPlace
import OpenkalMusl.Descriptors.Calls
import OpenkalMusl.Descriptors.Ledger
import OpenkalMusl.Descriptors.Duplicating
import OpenkalMusl.Descriptors.DirectoryNames
import OpenkalMusl.Descriptors.WorkingDirectory
import OpenkalMusl.Descriptors.Listing
import OpenkalMusl.Descriptors.Rewinding
import OpenkalMusl.Spawn.FileActions
import OpenkalMusl.Spawn.Grants
import OpenkalMusl.Spawn.Starting
import OpenkalMusl.Spawn.Searching
import OpenkalMusl.Spawn.Releasing
import OpenkalMusl.Spawn.Vectors
import OpenkalMusl.Spawn.Reaping
import OpenkalMusl.Spawn.Performed
import OpenkalMusl.Threads.ContextTable
import OpenkalMusl.Threads.NormalMutex
import OpenkalMusl.Threads.Wakeups
import OpenkalMusl.Threads.ContextMap
import OpenkalMusl.Threads.TableLock
import OpenkalMusl.Threads.Numbers
import OpenkalMusl.Threads.Outliving
import OpenkalMusl.Memory.Regions
import OpenkalMusl.Memory.Unmapping
import OpenkalMusl.Memory.Shown
import OpenkalMusl.Memory.FileParts
import OpenkalMusl.Input.Fork
import OpenkalMusl.Input.Selection
import OpenkalMusl.Input.Gathered
import OpenkalMusl.Files.Transfers
import OpenkalMusl.Files.CopyKept
import OpenkalMusl.Files.RecordLocks
import OpenkalMusl.Files.Stamps
import OpenkalMusl.Files.Removing
import OpenkalMusl.Net.Accepting
import OpenkalMusl.Net.Addresses
import OpenkalMusl.Rights.Confinement
import OpenkalMusl.Malloc.Places
import OpenkalMusl.Images.Placed
import OpenkalMusl.Images.Exports
import OpenkalMusl.Environ.Options
import OpenkalMusl.Strings.Loads
import OpenkalMusl.Time.Bounds
import OpenkalMusl.Bits.Marked
import OpenkalMusl.Threads.Semaphores
import OpenkalMusl.Files.Gathered
import OpenkalMusl.Stdio.Buffers
import OpenkalMusl.Stdio.Refines
import OpenkalMusl.Threads.ReadersWriter
import OpenkalMusl.Threads.InternalLock
import OpenkalMusl.Threads.Once
import OpenkalMusl.Threads.Reached
