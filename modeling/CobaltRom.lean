import CobaltRom.Lib.ByteBuf
import CobaltRom.Lib.Bitmap
import CobaltRom.Lib.WriteBack
import CobaltRom.Lib.SlotTree
import CobaltRom.Lib.LinkChain
import CobaltRom.Lib.Loop
import CobaltRom.Lib.HeapBlock
import CobaltRom.Lib.ByteArea
import CobaltRom.Lib.Forest
import CobaltRom.Lib.Ram
import CobaltRom.Lib.Simulates
import CobaltRom.Lib.WordBytes
import CobaltRom.Lib.Hoare
import CobaltRom.Crfs.Layout
import CobaltRom.Crfs.Freemap
import CobaltRom.Crfs.Allocator
import CobaltRom.Crfs.Cache
import CobaltRom.Crfs.Inode
import CobaltRom.Crfs.File
import CobaltRom.Crfs.Dir
import CobaltRom.Crfs.Mount
import CobaltRom.Crfs.Keeps
import CobaltRom.Crfs.CacheRefine
import CobaltRom.Crfs.Image
import CobaltRom.Crfs.Ledger
import CobaltRom.Crfs.Tree
import CobaltRom.Crfs.Namei
import CobaltRom.Crfs.Link
import CobaltRom.Crfs.Create
import CobaltRom.Crfs.Remove
import CobaltRom.Crfs.RmFile
import CobaltRom.Crfs.Write
import CobaltRom.Crfs.Read
import CobaltRom.Crfs.Cursor
import CobaltRom.Crfs.Mark
import CobaltRom.Crfs.Remount
import CobaltRom.Crfs.Format
import CobaltRom.Crfs.Session
import CobaltRom.Crfs.Recycle
import CobaltRom.Crfs.Shortage
import CobaltRom.Crfs.Filled
import CobaltRom.Crfs.FailedCreate
import CobaltRom.Crfs.Append
import CobaltRom.Crfs.Written
import CobaltRom.Crfs.Sequential
import CobaltRom.Crfs.Lookup
import CobaltRom.Crfs.Extend
import CobaltRom.Crfs.NoLoss
import CobaltRom.Crfs.Rounding
import CobaltRom.Crfs.MountWalk
import CobaltRom.Crfs.MountExact
import CobaltRom.Crfs.Directories
import CobaltRom.Crfs.Paths
import CobaltRom.Crfs.Slots
import CobaltRom.Crfs.InumRange
import CobaltRom.Lib.Separated
import CobaltRom.Crfs.Slashes
import CobaltRom.Crfs.Placed
import CobaltRom.Crfs.Proper
import CobaltRom.Crfs.OneOwner
import CobaltRom.Crfs.Views
import CobaltRom.Crfs.RoundTrip
import CobaltRom.Crfs.Crash
import CobaltRom.Crfs.CrashRemove
import CobaltRom.Crfs.Durable
import CobaltRom.Lib.IntelHex
import CobaltRom.Tools.Raw2hex
import CobaltRom.Lib.Spans
import CobaltRom.Tools.Buildbin
import CobaltRom.Tools.Wrapped
import CobaltRom.Console.Numerals
import CobaltRom.Cmos.Chip
import CobaltRom.Cmos.Settings
import CobaltRom.Cmos.Monitor
import CobaltRom.Cmos.Ports
import CobaltRom.Cmos.Checksum
import CobaltRom.Cmos.Operations
import CobaltRom.Cmos.Init
import CobaltRom.Cmos.Serial
import CobaltRom.Cmos.Repair
import CobaltRom.Cmos.Version
import CobaltRom.Cmos.Logo
import CobaltRom.Console.Strbuf
import CobaltRom.Console.StrbufOps
import CobaltRom.Console.StrbufMax
import CobaltRom.Console.RawRead
import CobaltRom.Console.LineEdit
import CobaltRom.Console.History
import CobaltRom.Console.Ctype
import CobaltRom.Console.SplitBuffer
import CobaltRom.Console.ArgCount
import CobaltRom.Console.Stoli
import CobaltRom.Console.Navigation
import CobaltRom.Console.Prevs
import CobaltRom.Console.Readline
import CobaltRom.Console.Scanning
import CobaltRom.Console.Expansion
import CobaltRom.Console.ScanSafety
import CobaltRom.Console.Quoting
import CobaltRom.Console.Unexpanded
import CobaltRom.Mptable.Table
import CobaltRom.Mptable.Sections
import CobaltRom.Mptable.Build
import CobaltRom.Mptable.Dump
import CobaltRom.Mptable.Hierarchy
import CobaltRom.Mptable.BusEntries
import CobaltRom.Lib.ByteSum
import CobaltRom.Acpi.Rsdp
import CobaltRom.Mptable.Checksums
import CobaltRom.Mptable.IntList
import CobaltRom.Pirq.Route
import CobaltRom.Pirq.Swizzle
import CobaltRom.Pci.Hardware
import CobaltRom.Pci.Scan
import CobaltRom.Pci.Enumerate
import CobaltRom.Pci.Numbering
import CobaltRom.Pci.Peer
import CobaltRom.Pci.TwoHosts
import CobaltRom.Lib.AlignMask
import CobaltRom.Pci.Region
import CobaltRom.Lib.Windows
import CobaltRom.Pci.Resource
import CobaltRom.Pci.Assign
import CobaltRom.Pci.Exhaustion
import CobaltRom.Pci.Granularity
import CobaltRom.Pci.Placement
import CobaltRom.Pci.RootMap
import CobaltRom.Console.Printf
import CobaltRom.Console.FormatScan
import CobaltRom.Console.DigitBuffer
import CobaltRom.Console.NumText
import CobaltRom.Console.PrintedNumerals
import CobaltRom.Console.FieldWidth
import CobaltRom.Console.PrintParse
import CobaltRom.Console.Emits
import CobaltRom.Console.Snprintf
import CobaltRom.Eeprom.IdEeprom
import CobaltRom.Eeprom.Macphyter
import CobaltRom.Boot.Elf
import CobaltRom.Boot.Segments
import CobaltRom.Flash.Routines
import CobaltRom.Flash.Polling
import CobaltRom.Flash.Restore
import CobaltRom.Flash.Chip
import CobaltRom.Flash.Blocks
import CobaltRom.Flash.Verify
import CobaltRom.Flash.Ignoring
import CobaltRom.Flash.WriteBlock
import CobaltRom.Flash.Init
import CobaltRom.Flash.WriteCommand
import CobaltRom.Flash.Programs
import CobaltRom.Lib.StuckBits
import CobaltRom.Memtest.Stride
import CobaltRom.Memtest.Block
import CobaltRom.Memtest.Agreement
import CobaltRom.Memory.Memfuncs
import CobaltRom.Pci.RegionList
import CobaltRom.Lib.BinarySplit
import CobaltRom.Cpu.Msr
import CobaltRom.Cpu.Mtrr
import CobaltRom.Cpu.RangeLoop
import CobaltRom.Cpu.Coverage
import CobaltRom.Cpu.L2Cache
import CobaltRom.I18n.Parse
import CobaltRom.I18n.RoundTrip
import CobaltRom.I18n.Octal
import CobaltRom.Lib.DoubleLink
import CobaltRom.Lib.Tiling
import CobaltRom.Malloc.Heap
import CobaltRom.Malloc.Shape
import CobaltRom.Malloc.Blocks
import CobaltRom.Malloc.Morecore
import CobaltRom.Malloc.Free
import CobaltRom.Malloc.Take
import CobaltRom.Malloc.Cells
import CobaltRom.Malloc.Nodes
import CobaltRom.Malloc.Fragments
import CobaltRom.Malloc.Allocate
import CobaltRom.Malloc.Resize
import CobaltRom.Malloc.Runs
