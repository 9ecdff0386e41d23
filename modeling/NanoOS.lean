import NanoOS.Lib.Ring
import NanoOS.Lib.Trans
import NanoOS.Lib.Fair
import NanoOS.Lib.RoundRobin
import NanoOS.Lib.Queue
import NanoOS.Lib.Semaphore
import NanoOS.Lib.BoundedBuffer
import NanoOS.Lib.Rpc
import NanoOS.Lib.LineStream
import NanoOS.Lib.Editor
import NanoOS.Lib.Calendar
import NanoOS.Lib.Image
import NanoOS.Lib.NullList
import NanoOS.Lib.Numeral
import NanoOS.Lib.Resume
import NanoOS.Lib.BitField
import NanoOS.Lib.X86
import NanoOS.Lib.Congruential
import NanoOS.Adt.List
import NanoOS.Process.Sched
import NanoOS.Process.SchedInv
import NanoOS.Process.RoundRobin
import NanoOS.Process.Message
import NanoOS.Process.MailInv
import NanoOS.Process.Mailbox
import NanoOS.Process.Buffer
import NanoOS.Process.TokenRing
import NanoOS.Process.Kthread
import NanoOS.Process.KthreadLists
import NanoOS.Process.Switch
import NanoOS.Kernel.Machine
import NanoOS.Kernel.Base
import NanoOS.Kernel.Context
import NanoOS.Kernel.Guard
import NanoOS.Kernel.LockDepth
import NanoOS.Kernel.Exclusion
import NanoOS.Kernel.Semaphore
import NanoOS.Kernel.MailSem
import NanoOS.Kernel.SendRace
import NanoOS.Kernel.ProdCons
import NanoOS.Kernel.IrqHandle
import NanoOS.Kernel.InterruptFlag
import NanoOS.Drivers.Hal
import NanoOS.Drivers.Registry
import NanoOS.Drivers.Plain
import NanoOS.Drivers.Ide.Cache
import NanoOS.Drivers.Ide.Driver
import NanoOS.Drivers.Ide.Task
import NanoOS.Drivers.Ide.Thread
import NanoOS.Drivers.Ide.Progress
import NanoOS.Drivers.Ide.Writeback
import NanoOS.Drivers.Ide.Port
import NanoOS.Drivers.Ide.OnPorts
import NanoOS.Drivers.Tty.Screen
import NanoOS.Drivers.Tty.Terminal
import NanoOS.Drivers.Tty.Colour
import NanoOS.Drivers.Tty.Console
import NanoOS.Drivers.Tty.Line
import NanoOS.Drivers.Tty.Cursor
import NanoOS.Drivers.Tty.Rows
import NanoOS.Drivers.Tty.Editor
import NanoOS.Drivers.Tty.Echo
import NanoOS.Drivers.Tty.Keyboard
import NanoOS.Drivers.Tty.Ttyd
import NanoOS.Drivers.Tty.Cooked
import NanoOS.Drivers.Tty.Modifiers
import NanoOS.Drivers.Timer.Timer
import NanoOS.Drivers.Timer.Clock
import NanoOS.Drivers.Timer.Alarm
import NanoOS.Drivers.Tty.Vga
import NanoOS.Drivers.Random
import NanoOS.Drivers.System
import NanoOS.Drivers.Works
import NanoOS.Drivers.OwnReply
import NanoOS.Drivers.Getty
import NanoOS.Memory.Paging
import NanoOS.Memory.Bytes
import NanoOS.Memory.InitPage
import NanoOS.Memory.Segment
import NanoOS.Kernel.Trap
import NanoOS.Service.Mm
import NanoOS.Service.AddressSpace
import NanoOS.Service.Alias
import NanoOS.Service.Fm
import NanoOS.Service.FileTable
import NanoOS.Service.FileRead
import NanoOS.Service.Pm
import NanoOS.Service.Load
import NanoOS.Service.KernelMap
import NanoOS.Service.CreateProcess
import NanoOS.Service.UserProgram
import NanoOS.Boot.Main
import NanoOS.Boot.Kernel
import NanoOS.Boot.Disk
import NanoOS.Printk.Number
import NanoOS.Printk.Format
import NanoOS.Printk.Overrun
