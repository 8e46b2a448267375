import Rhythmos.Library.ByteMemory
import Rhythmos.Library.LinkedChain
import Rhythmos.Library.DyadicTiling
import Rhythmos.Library.Fallible
import Rhythmos.Buddy.Model
import Rhythmos.Buddy.FreeLists
import Rhythmos.Buddy.Invariant
import Rhythmos.Buddy.Moves
import Rhythmos.Buddy.Alloc
import Rhythmos.Buddy.Free
import Rhythmos.Buddy.Sessions
import Rhythmos.Constants
import Rhythmos.Libc.Memmove
import Rhythmos.Library.DoublyLinked
import Rhythmos.Library.Ledger
import Rhythmos.Library.RefCount
import Rhythmos.Paging.Model
import Rhythmos.Paging.Ownership
import Rhythmos.Paging.Holders
import Rhythmos.Paging.Tables
import Rhythmos.Paging.Mapping
import Rhythmos.Paging.Ranges
import Rhythmos.Paging.Segments
import Rhythmos.Paging.Release
import Rhythmos.Paging.Translations
import Rhythmos.Kernel.Processes
import Rhythmos.Kernel.Calls
import Rhythmos.Kernel.Machine
import Rhythmos.Kernel.Scheduling
import Rhythmos.Kernel.Invariant
import Rhythmos.Kernel.Wakeups
import Rhythmos.Kernel.Transfer
import Rhythmos.Kernel.Descriptors
import Rhythmos.Kernel.Opening
import Rhythmos.Kernel.Files
import Rhythmos.Kernel.Messages
import Rhythmos.Kernel.Children
import Rhythmos.Kernel.Creation
import Rhythmos.Kernel.Death
import Rhythmos.Kernel.Memory
import Rhythmos.Kernel.Dispatch
import Rhythmos.Kernel.Runs
import Rhythmos.Kernel.Events
import Rhythmos.Kernel.SchedulerSafety
import Rhythmos.Kernel.Progress
import Rhythmos.Kernel.ResourceSafety
import Rhythmos.Kernel.PipeStreams
import Rhythmos.Kernel.Confinement
import Rhythmos.Buddy.Requests
import Rhythmos.Kernel.Failures
import Rhythmos.Kernel.Traps
import Rhythmos.Kernel.Switching
import Rhythmos.Kernel.Attendance
import Rhythmos.Kernel.Nesting
import Rhythmos.Kernel.Restarts
import Rhythmos.Filesystem.Paths
import Rhythmos.Filesystem.Chains
import Rhythmos.Kernel.Lookups
import Rhythmos.Kernel.RoundRobin
import Rhythmos.Libc.Formats
import Rhythmos.Filesystem.Catalogues
import Rhythmos.Kernel.Listings
import Rhythmos.Filesystem.PathBuffers
import Rhythmos.Kernel.FileReads
import Rhythmos.Library.PackedStrings
import Rhythmos.Paging.Contents
import Rhythmos.Kernel.Arguments
import Rhythmos.Kernel.Programs
import Rhythmos.Kernel.Execve
import Rhythmos.Kernel.Snapshots
import Rhythmos.Libc.Strings
import Rhythmos.Libc.Tokens
import Rhythmos.Libc.FormatScans
import Rhythmos.Libc.Printing
import Rhythmos.Libc.Numbers
import Rhythmos.Library.SplitLines
import Rhythmos.Shell.Input
import Rhythmos.Shell.CommandLines
import Rhythmos.Shell.SharedInput
import Rhythmos.Kernel.Console
import Rhythmos.Kernel.Keyboard
import Rhythmos.Kernel.ValidStrings
import Rhythmos.Fstool.Builder
import Rhythmos.Fstool.Trees
import Rhythmos.Fstool.Encoding
import Rhythmos.Fstool.Lookups
import Rhythmos.Fstool.Dumps
import Rhythmos.Fstool.Sessions
import Rhythmos.Library.Labels
import Rhythmos.Fstool.Reproducibility
import Rhythmos.Kernel.HostFiles
import Rhythmos.Library.Histories
import Rhythmos.Kernel.Backstage
import Rhythmos.Kernel.Inductions
import Rhythmos.Kernel.Registrations
import Rhythmos.Kernel.ExitStatus
import Rhythmos.Kernel.Mailboxes
import Rhythmos.Kernel.Deliveries
import Rhythmos.Paging.Isolation
import Rhythmos.Kernel.Isolation
