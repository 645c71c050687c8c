import Tomorrow.Core.Checked
import Tomorrow.Core.Tiling
import Tomorrow.Core.Bitmap
import Tomorrow.Core.PhaseRing
import Tomorrow.Core.History
import Tomorrow.Core.Asm
import Tomorrow.Core.Tape
import Tomorrow.Core.Logged
import Tomorrow.Core.Ghost
import Tomorrow.Core.RoundRobin
import Tomorrow.Core.Loops
import Tomorrow.Core.Intrusive
import Tomorrow.Core.Interleave
import Tomorrow.Core.UserAsm
import Tomorrow.Memory.Heap
import Tomorrow.Memory.FirstFit
import Tomorrow.Memory.HeapMemory
import Tomorrow.Memory.Pmm
import Tomorrow.Memory.Ranges
import Tomorrow.Memory.Vmm
import Tomorrow.Memory.Mapping
import Tomorrow.Memory.Walk
import Tomorrow.Files.Ramfs
import Tomorrow.Files.Initrd
import Tomorrow.Files.Directory
import Tomorrow.Files.Extent
import Tomorrow.Shell.Console
import Tomorrow.Shell.Decimal
import Tomorrow.Shell.LineDiscipline
import Tomorrow.Shell.Keyboard
import Tomorrow.Shell.Editing
import Tomorrow.Shell.Font
import Tomorrow.Shell.Framebuffer
import Tomorrow.Process.Scheduler
import Tomorrow.Kernel.State
import Tomorrow.Kernel.Syscall
import Tomorrow.Kernel.Run
import Tomorrow.Kernel.RoundRobin
import Tomorrow.Kernel.ProcessTable
import Tomorrow.Kernel.Lifecycle
import Tomorrow.Kernel.UserMappings
import Tomorrow.Kernel.UserAccess
import Tomorrow.Kernel.Layout
import Tomorrow.Kernel.FileStep
import Tomorrow.Kernel.Grants
import Tomorrow.Kernel.Reads
import Tomorrow.Kernel.FdTable
import Tomorrow.Kernel.Writes
import Tomorrow.Kernel.Confinement
import Tomorrow.Kernel.Noninterference
import Tomorrow.Kernel.TimerAsm
import Tomorrow.Kernel.SyscallAsm
import Tomorrow.Kernel.Preemption
import Tomorrow.Kernel.UserProgram
import Tomorrow.Kernel.ReadProgram
import Tomorrow.Kernel.WriteProgram
import Tomorrow.Kernel.UnlinkProgram
import Tomorrow.Kernel.CheckProgram
import Tomorrow.Usb.Ring
import Tomorrow.Usb.EventRing
import Tomorrow.Usb.Completion
import Tomorrow.Usb.Descriptor
import Tomorrow.Usb.Driver
import Tomorrow.Usb.Pages
import Tomorrow.Usb.Frame
import Tomorrow.Usb.Enumeration
import Tomorrow.Usb.Routes
import Tomorrow.Usb.HidState
import Tomorrow.Usb.Keys
import Tomorrow.Boot.Tables
import Tomorrow.Boot.Aml
