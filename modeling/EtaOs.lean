import EtaOs.Acpi.Lookup
import EtaOs.Acpi.Tables
import EtaOs.Allocator.Accounting
import EtaOs.Allocator.Bitmap
import EtaOs.Allocator.BitmapArray
import EtaOs.Allocator.Evolution
import EtaOs.Allocator.FreeSet
import EtaOs.Allocator.Init
import EtaOs.Allocator.LiveFrames
import EtaOs.Allocator.Marks
import EtaOs.Allocator.Model
import EtaOs.Allocator.Order
import EtaOs.Allocator.Paged
import EtaOs.Allocator.Ranges
import EtaOs.Allocator.Requests
import EtaOs.Allocator.Runs
import EtaOs.Allocator.Transparent
import EtaOs.Allocator.Undo
import EtaOs.Boot.Coverage
import EtaOs.Boot.Frontier
import EtaOs.Boot.Granted
import EtaOs.Boot.PrepareMem
import EtaOs.Boot.Reachable
import EtaOs.Boot.Run
import EtaOs.Boot.SplitMemory
import EtaOs.Boot.Supply
import EtaOs.Boot.TablesInv
import EtaOs.Bootloader.EfiMain
import EtaOs.Bootloader.Elf
import EtaOs.Bootloader.Failures
import EtaOs.Bootloader.Firmware
import EtaOs.Bootloader.Image
import EtaOs.Bootloader.Rsdp
import EtaOs.CStr.Decimal
import EtaOs.CStr.Hex
import EtaOs.CStr.Output
import EtaOs.Devices.Pit
import EtaOs.Heap.Accesses
import EtaOs.Heap.Growth
import EtaOs.Heap.HandsOut
import EtaOs.Heap.Header
import EtaOs.Heap.HeaderList
import EtaOs.Heap.Intact
import EtaOs.Heap.Kept
import EtaOs.Heap.LoggedRuns
import EtaOs.Heap.Malloc
import EtaOs.Heap.Merges
import EtaOs.Heap.Methods
import EtaOs.Heap.Model
import EtaOs.Heap.Payloads
import EtaOs.Heap.Runs
import EtaOs.Heap.Segments
import EtaOs.Heap.Sizes
import EtaOs.Heap.Splits
import EtaOs.Heap.Terminates
import EtaOs.Heap.Traced
import EtaOs.InitKernel
import EtaOs.Input.Interleaving
import EtaOs.Input.Keyboard
import EtaOs.Input.Typing
import EtaOs.Interrupts.Delivery
import EtaOs.Interrupts.Echo
import EtaOs.Interrupts.Idt
import EtaOs.Interrupts.KeyHandling
import EtaOs.Interrupts.Loaded
import EtaOs.Interrupts.Paged
import EtaOs.Interrupts.Remap
import EtaOs.Interrupts.Running
import EtaOs.Interrupts.System
import EtaOs.KernelHeap.Backing
import EtaOs.KernelHeap.BlockRuns
import EtaOs.KernelHeap.Blocks
import EtaOs.KernelHeap.BootImage
import EtaOs.KernelHeap.Drawing
import EtaOs.KernelHeap.Frames
import EtaOs.KernelHeap.HiddenBitmap
import EtaOs.KernelHeap.Isolation
import EtaOs.KernelHeap.MallocFree
import EtaOs.KernelHeap.Mirrors
import EtaOs.KernelHeap.Model
import EtaOs.KernelHeap.Moves
import EtaOs.KernelHeap.ObjectRuns
import EtaOs.KernelHeap.Objects
import EtaOs.KernelHeap.OnePage
import EtaOs.KernelHeap.OutOfFrames
import EtaOs.KernelHeap.Overlap
import EtaOs.KernelHeap.Pages
import EtaOs.KernelHeap.Refinement
import EtaOs.KernelHeap.Reserved
import EtaOs.KernelHeap.Room
import EtaOs.KernelHeap.Scanning
import EtaOs.KernelHeap.Screen
import EtaOs.KernelHeap.View
import EtaOs.Library.ByteMemory
import EtaOs.Library.CountedLoop
import EtaOs.Library.Emitting
import EtaOs.Library.Fallible
import EtaOs.Library.IntLoop
import EtaOs.Library.InterruptController
import EtaOs.Library.LinkedList
import EtaOs.Library.Numerals
import EtaOs.Library.Programs
import EtaOs.Library.RadixTree
import EtaOs.Library.Runs
import EtaOs.Library.Simulation
import EtaOs.Library.Terminal
import EtaOs.Library.Tiling
import EtaOs.Library.Visits
import EtaOs.Machine
import EtaOs.Paging.Entry
import EtaOs.Paging.Fields
import EtaOs.Paging.MapMem
import EtaOs.Paging.Refinement
import EtaOs.Paging.TableTree
import EtaOs.Pci.Accesses
import EtaOs.Pci.Enumeration
import EtaOs.Pci.Exact
import EtaOs.Pci.Names
import EtaOs.Pci.Paged
import EtaOs.Pci.Scan
import EtaOs.Renderer.Backspace
import EtaOs.Renderer.Cursor
import EtaOs.Renderer.Glyphs
import EtaOs.Renderer.Model
import EtaOs.Renderer.Paged
import EtaOs.Renderer.Panic
import EtaOs.Renderer.Stores
import EtaOs.Renderer.Terminal
