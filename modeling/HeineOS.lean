import HeineOS.Lib.Span
import HeineOS.Allocator.Layout
import HeineOS.Allocator.LinkedList
import HeineOS.Allocator.FreeList
import HeineOS.Lib.System
import HeineOS.Allocator.Heap
import HeineOS.Allocator.HeapRuns
import HeineOS.Allocator.Memory
import HeineOS.Allocator.Chain
import HeineOS.Allocator.World
import HeineOS.Lib.Program
import HeineOS.Library.Queue
import HeineOS.Thread.Scheduler
import HeineOS.Thread.Conservation
import HeineOS.Thread.Progress
import HeineOS.Library.Once
import HeineOS.Kernel.Code
import HeineOS.Kernel.Machine
import HeineOS.Kernel.Discipline
import HeineOS.Kernel.Invariant
import HeineOS.Kernel.Steps
import HeineOS.Kernel.Threads
import HeineOS.Kernel.Preservation
import HeineOS.Kernel.HandOff
import HeineOS.Kernel.Handlers
import HeineOS.Kernel.Orphans
import HeineOS.Kernel.Sequential
import HeineOS.Filesystem.Cursors
import HeineOS.Device.Pci
import HeineOS.Lib.Cpu
import HeineOS.Thread.Switch
import HeineOS.Thread.Transparency
import HeineOS.Device.Framebuffer
import HeineOS.Device.Terminal
import HeineOS.Kernel.HeapLock
import HeineOS.Kernel.Tss
import HeineOS.Device.PacketQueue
import HeineOS.Lib.Conc
import HeineOS.Device.Rtl8139
import HeineOS.Device.Sections
import HeineOS.Device.Agreement
import HeineOS.Device.Wakeups
import HeineOS.Device.Arrivals
import HeineOS.Allocator.Detection
import HeineOS.Allocator.FirstFit
import HeineOS.Lib.Mark
import HeineOS.Paging.Pages
import HeineOS.Device.Key
import HeineOS.Device.Keyboard
import HeineOS.Device.Decoding
import HeineOS.Device.Modifiers
import HeineOS.Lib.Chunks
import HeineOS.Library.Bitmap
import HeineOS.Library.Parsing
import HeineOS.Library.RoundTrip
import HeineOS.Device.DrawBitmap
import HeineOS.Device.Clipping
import HeineOS.Library.Loading
import HeineOS.Device.BoundedFifo
import HeineOS.Device.RxBuffer
import HeineOS.Boot.Multiboot
import HeineOS.Paging.Live
import HeineOS.Device.ConfigAccess
import HeineOS.Device.ConfigWriters
import HeineOS.Allocator.Bump
import HeineOS.Device.Font8x8
import HeineOS.Device.Locks
import HeineOS.Boot.Gdt
import HeineOS.Device.Pic
import HeineOS.Interrupt.Dispatcher
import HeineOS.Syscall.Dispatcher
import HeineOS.Syscall.Threads
import HeineOS.Syscall.Transparency
import HeineOS.Coroutine.Coroutine
import HeineOS.Coroutine.Ring
import HeineOS.Lib.BoundedQueue
import HeineOS.Device.KeyEvents
import HeineOS.Device.KeyboardPort
import HeineOS.Device.Pit
import HeineOS.Thread.Preemption
import HeineOS.Demo.PeanutGb
import HeineOS.Device.Logger
import HeineOS.Device.Attach
import HeineOS.Device.Console
import HeineOS.Device.Sharing
