import Barnix.Lib.Bytes
import Barnix.Lib.Program
import Barnix.Lib.Nearest
import Barnix.Lib.Fibers
import Barnix.Lib.Rings
import Barnix.Lib.Clients
import Barnix.Lib.Decimal
import Barnix.Lib.Arrays
import Barnix.Lib.FirstFit
import Barnix.Lib.Batches
import Barnix.Lib.OnesComplement
import Barnix.Path
import Barnix.Text.Utf8
import Barnix.Text.Numbers
import Barnix.Text.Boundaries
import Barnix.Shell.Parse
import Barnix.Password
import Barnix.Ext2.State
import Barnix.Ext2.Lookup
import Barnix.Ext2.Engine
import Barnix.Ext2.Mount
import Barnix.Ext2.View
import Barnix.Ext2.Directory
import Barnix.Ext2.Listing
import Barnix.Ext2.Import
import Barnix.Ext2.ImportBounds
import Barnix.Vfs.Namespace
import Barnix.Vfs.Normalize
import Barnix.Usb.Ports
import Barnix.Usb.Media
import Barnix.Disk.Devices
import Barnix.Disk.Selection
import Barnix.Disk.Partitions
import Barnix.Disk.Faithful
import Barnix.Disk.BootRecord
import Barnix.Disk.Capacity
import Barnix.Linux.State
import Barnix.Linux.Tables
import Barnix.Linux.Elf
import Barnix.Linux.ElfFormat
import Barnix.Linux.Paging
import Barnix.Linux.Window
import Barnix.Linux.Exec
import Barnix.Linux.Syscalls
import Barnix.Linux.Tasks
import Barnix.Linux.References
import Barnix.Linux.Calls
import Barnix.Linux.Scheduler
import Barnix.Linux.Accounts
import Barnix.Linux.Streams
import Barnix.Linux.Readiness
import Barnix.Linux.Progress
import Barnix.Vfs.Permissions
import Barnix.Vfs.Files
import Barnix.Vfs.Passages
import Barnix.Vfs.Calls
import Barnix.Vfs.Machine
import Barnix.Usb.Hub
import Barnix.Vfs.Accounts
import Barnix.Shell.Sessions
import Barnix.Shell.Placed
import Barnix.Shell.Identity
import Barnix.Vfs.Trees
import Barnix.Vfs.World
import Barnix.Shell.Programs
import Barnix.Vfs.Table
import Barnix.Vfs.Matched
import Barnix.Vfs.Mounting
import Barnix.Vfs.Remembering
import Barnix.Usb.Safety
import Barnix.Usb.Runs
import Barnix.Usb.Pointer
import Barnix.Usb.Hid
import Barnix.Vfs.Changes
import Barnix.Vfs.Copy
import Barnix.Vfs.Removals
import Barnix.Acl.Records
import Barnix.Acl.Moves
import Barnix.Acl.Rename
import Barnix.Acl.Setting
import Barnix.Acl.Users
import Barnix.Acl.Runs
import Barnix.Acl.Carried
import Barnix.Acl.Failures
import Barnix.Acl.Policy
import Barnix.Acl.Locks
import Barnix.Acl.Lines
import Barnix.Acl.Confined
import Barnix.Acl.Accounts
import Barnix.Lib.Words
import Barnix.Net.Packets
import Barnix.Net.Parsers
import Barnix.Net.Replies
import Barnix.Net.Protocols
import Barnix.Net.Traffic
import Barnix.Net.Leases
import Barnix.Lib.Flood
import Barnix.Lib.GridLine
import Barnix.Apps.Paint
import Barnix.Apps.Line
import Barnix.Apps.Macro
import Barnix.Lib.Sha256
import Barnix.Shell.Password
import Barnix.Pci.Transfer
import Barnix.Lib.Restarts
import Barnix.Pci.Bars
import Barnix.Pci.Relocation
import Barnix.Pci.BootMemory
import Barnix.Pci.Nvme
import Barnix.Usb.Ring
import Barnix.Stdio.Format
import Barnix.Lib.Overwrite
import Barnix.Stdio.Streams
import Barnix.Stdio.Positions
import Barnix.Apps.Bcc
import Barnix.Lib.WriteBack
import Barnix.Ext2.Commit
import Barnix.Ext2.Transaction
import Barnix.Ext2.Layout
import Barnix.Ext2.Careful
import Barnix.Ext2.Inodes
import Barnix.Ext2.Allocation
import Barnix.Ext2.FileBlocks
import Barnix.Ext2.Writing
import Barnix.Ext2.Truncation
import Barnix.Ext2.Content
import Barnix.Ext2.Scans
import Barnix.Ext2.Insertion
import Barnix.Ext2.Creation
import Barnix.Ext2.Removal
import Barnix.Ext2.Reading
import Barnix.Ext2.Outcomes
