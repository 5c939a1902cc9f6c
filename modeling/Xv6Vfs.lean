import Xv6Vfs.Lib.Run
import Xv6Vfs.Lib.Orbit
import Xv6Vfs.Lib.Count
import Xv6Vfs.Vfs.Vnode
import Xv6Vfs.Vfs.Lookup
import Xv6Vfs.Vfs.Namei
import Xv6Vfs.Vfs.Mount
import Xv6Vfs.Vfs.Table
import Xv6Vfs.Vfs.MountRun
import Xv6Vfs.Vfs.Crossing
import Xv6Vfs.Vfs.Components
import Xv6Vfs.Vfs.Resolve
import Xv6Vfs.Vfs.Parent
import Xv6Vfs.Vfs.Elements
import Xv6Vfs.Vfs.NameiSim
import Xv6Vfs.Vfs.Updown
import Xv6Vfs.Vfs.Dotdot
import Xv6Vfs.Vfs.DotdotLaw
import Xv6Vfs.Vfs.Open
import Xv6Vfs.Vfs.Balance
import Xv6Vfs.Vfs.Effect
import Xv6Vfs.Vfs.Tidy
import Xv6Vfs.Vfs.MountTable
import Xv6Vfs.Vfs.WalkLaw
import Xv6Vfs.Vfs.Follow
import Xv6Vfs.Vfs.Visible
import Xv6Vfs.Vfs.World
import Xv6Vfs.Vfs.Uncovered
import Xv6Vfs.Vfs.Sections
import Xv6Vfs.Vfs.Lives
import Xv6Vfs.Vfs.Lifecycle
import Xv6Vfs.Vfs.Canonical
import Xv6Vfs.Fd.File
import Xv6Vfs.Fd.Refs
import Xv6Vfs.Fd.Calls
import Xv6Vfs.Fd.Process
import Xv6Vfs.Fd.Consistency
import Xv6Vfs.Xv6fs.Write
import Xv6Vfs.Xv6fs.Append
import Xv6Vfs.Lib.Bytes
import Xv6Vfs.Lib.Tiles
import Xv6Vfs.Lib.Index
import Xv6Vfs.Lib.Redo
import Xv6Vfs.Log.Buf
import Xv6Vfs.Log.Commit
import Xv6Vfs.Log.Devices
import Xv6Vfs.Ext2.Disk
import Xv6Vfs.Ext2.Dir
import Xv6Vfs.Ext2.Driver
import Xv6Vfs.Ext2.Frame
import Xv6Vfs.Ext2.Slots
import Xv6Vfs.Ext2.Balloc
import Xv6Vfs.Ext2.Fields
import Xv6Vfs.Ext2.Space
import Xv6Vfs.Ext2.Inodes
import Xv6Vfs.Ext2.BlockMap
import Xv6Vfs.Ext2.Truncate
import Xv6Vfs.Ext2.Release
import Xv6Vfs.Ext2.MapRun
import Xv6Vfs.Ext2.Accounts
import Xv6Vfs.Ext2.Quiet
import Xv6Vfs.Ext2.Listing
import Xv6Vfs.Ext2.Rep
import Xv6Vfs.Ext2.Steps
import Xv6Vfs.Ext2.Data
import Xv6Vfs.Ext2.Entries
import Xv6Vfs.Ext2.Room
import Xv6Vfs.Ext2.Unlinked
import Xv6Vfs.Ext2.Places
import Xv6Vfs.Ext2.NameMap
import Xv6Vfs.Ext2.Readdir
import Xv6Vfs.Ext2.Ending
import Xv6Vfs.Ext2.Undone
import Xv6Vfs.Ext2.Regain
import Xv6Vfs.Ext2.NoLoss
import Xv6Vfs.Fat32.Name
import Xv6Vfs.Fat32.Disk
import Xv6Vfs.Fat32.Lookup
import Xv6Vfs.Fat32.Named
import Xv6Vfs.Fat32.Short
import Xv6Vfs.Fat32.Driver
import Xv6Vfs.Fat32.Geometry
import Xv6Vfs.Fat32.Buffers
import Xv6Vfs.Fat32.Readdir
import Xv6Vfs.Fat32.Layout
import Xv6Vfs.Fat32.Mirror
import Xv6Vfs.Fat32.Erased
import Xv6Vfs.Fat32.LfnBuffer
import Xv6Vfs.Fat32.Ending
import Xv6Vfs.Fat32.Chain
import Xv6Vfs.Fat32.Enter
import Xv6Vfs.Fat32.Frame
import Xv6Vfs.Fat32.Created
import Xv6Vfs.Fat32.Fresh
import Xv6Vfs.Fat32.Encode
import Xv6Vfs.Fat32.Spared
import Xv6Vfs.Fat32.Exclude
import Xv6Vfs.Fat32.Removed
import Xv6Vfs.Fat32.Reading
import Xv6Vfs.Fat32.Addressing
import Xv6Vfs.Fat32.Decode
import Xv6Vfs.Fat32.RoundTrip
import Xv6Vfs.Fat32.Unique
import Xv6Vfs.Fat32.HighBytes
import Xv6Vfs.Fat32.Enumerate
import Xv6Vfs.Fat32.Whole
import Xv6Vfs.Lib.Ring
import Xv6Vfs.Virtio.Driver
import Xv6Vfs.Virtio.Protocol
import Xv6Vfs.Lib.Radix
import Xv6Vfs.Vm.PageTable
import Xv6Vfs.Vm.Exec
import Xv6Vfs.Vm.Space
import Xv6Vfs.Vm.Layout
import Xv6Vfs.Vm.Load
import Xv6Vfs.Vm.Teardown
import Xv6Vfs.Vm.Total
import Xv6Vfs.Vm.Stuck
import Xv6Vfs.Vm.ExecTotal
import Xv6Vfs.Vm.Pte
import Xv6Vfs.Vm.Phys
import Xv6Vfs.Vm.Rep
import Xv6Vfs.Vm.Mapping
import Xv6Vfs.Vm.Refine
import Xv6Vfs.Vm.Fault
import Xv6Vfs.Vm.Translate
import Xv6Vfs.Vm.Fork
import Xv6Vfs.Tlb.Refill
import Xv6Vfs.Tlb.Agree
