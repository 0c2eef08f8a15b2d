import HuskyKernel.Logic.Wp
import HuskyKernel.Logic.Scan
import HuskyKernel.Logic.Steps
import HuskyKernel.Logic.Arena
import HuskyKernel.Logic.Lines
import HuskyKernel.Logic.Page
import HuskyKernel.Logic.Service
import HuskyKernel.Logic.Span
import HuskyKernel.Logic.Frames
import HuskyKernel.Logic.Walk
import HuskyKernel.Logic.Runs
import HuskyKernel.Logic.Trace
import HuskyKernel.System.Heap
import HuskyKernel.System.Bytes
import HuskyKernel.System.Memory
import HuskyKernel.System.Words
import HuskyKernel.System.Strtok
import HuskyKernel.System.Pages
import HuskyKernel.System.Mappings
import HuskyKernel.Drivers.Disk
import HuskyKernel.Drivers.Command
import HuskyKernel.Drivers.Rebase
import HuskyKernel.Drivers.Pci
import HuskyKernel.Drivers.Acpi
import HuskyKernel.Drivers.SoftOff
import HuskyKernel.Drivers.Keyboard
import HuskyKernel.BuiltIn.Machine
import HuskyKernel.BuiltIn.Eval
import HuskyKernel.BuiltIn.Execute
import HuskyKernel.BuiltIn.Frame
import HuskyKernel.BuiltIn.Run
import HuskyKernel.BuiltIn.Cursor
import HuskyKernel.BuiltIn.Names
import HuskyKernel.BuiltIn.Syntax
import HuskyKernel.BuiltIn.Assign
import HuskyKernel.BuiltIn.Statements
import HuskyKernel.BuiltIn.Layouts
import HuskyKernel.Kernel.Buffer
import HuskyKernel.Kernel.Editor
import HuskyKernel.Kernel.Prompt
import HuskyKernel.Kernel.Typing
import HuskyKernel.Kernel.Sessions
import HuskyKernel.Kernel.Screen
import HuskyKernel.Kernel.CommandLine
import HuskyKernel.Kernel.LineEditors
import HuskyKernel.Kernel.Disks
import HuskyKernel.Kernel.DiskList
import HuskyKernel.System.Strings
import HuskyKernel.BuiltIn.Meaning
import HuskyKernel.BuiltIn.Denote
import HuskyKernel.BuiltIn.Assignments
import HuskyKernel.Kernel.Modes
import HuskyKernel.Drivers.Slots
import HuskyKernel.Drivers.Fis
import HuskyKernel.Kernel.Arguments
import HuskyKernel.BuiltIn.Chains
import HuskyKernel.BuiltIn.Keywords
import HuskyKernel.BuiltIn.Moves
import HuskyKernel.System.Overlaps
import HuskyKernel.BuiltIn.Stops
import HuskyKernel.BuiltIn.Blocks
import HuskyKernel.BuiltIn.Pointers
import HuskyKernel.BuiltIn.StringArgs
import HuskyKernel.BuiltIn.Joins
import HuskyKernel.BuiltIn.Outcomes
import HuskyKernel.BuiltIn.OutOfMemory
import HuskyKernel.Drivers.ConfigPorts
import HuskyKernel.Drivers.Handshake
import HuskyKernel.Drivers.Tables
import HuskyKernel.Drivers.Usb
import HuskyKernel.Drivers.UsbKeyboard
import HuskyKernel.Kernel.Ring
import HuskyKernel.Kernel.Display
import HuskyKernel.Drivers.PortScan
import HuskyKernel.Drivers.SoftOffReads
import HuskyKernel.Logic.Reversal
import HuskyKernel.System.Atoi
import HuskyKernel.System.Itoa
import HuskyKernel.System.Movsb
import HuskyKernel.System.Printk
import HuskyKernel.Kernel.Verbatim
import HuskyKernel.System.Time
import HuskyKernel.Drivers.Completion
import HuskyKernel.Drivers.Engine
import HuskyKernel.Kernel.Console
import HuskyKernel.Kernel.Dispatch
import HuskyKernel.Kernel.Locked
import HuskyKernel.BuiltIn.Calculator
import HuskyKernel.BuiltIn.Budget
import HuskyKernel.Kernel.Shutdown
