import NewXv6.Lib.Prog
import NewXv6.Lib.Store
import NewXv6.Lib.Run
import NewXv6.Lib.Walk
import NewXv6.Log.Model
import NewXv6.Log.Run
import NewXv6.Log.Crash
import NewXv6.Log.Group
import NewXv6.Log.Reserve
import NewXv6.Fs.Model
import NewXv6.Fs.Files
import NewXv6.Fs.View
import NewXv6.Fs.Alloc
import NewXv6.Fs.Cache
import NewXv6.Fs.Free
import NewXv6.Fs.Map
import NewXv6.Fs.Content
import NewXv6.Fs.Dir
import NewXv6.Fs.Refs
import NewXv6.Sys.Model
import NewXv6.Lib.Count
import NewXv6.Fs.Call
import NewXv6.Sys.Spec
import NewXv6.Sys.Calls
import NewXv6.Sys.Boot
import NewXv6.Sys.Blocks
import NewXv6.Sys.Refs
import NewXv6.Sys.Balance
import NewXv6.Proc.Reap
import NewXv6.Proc.Kill
import NewXv6.Proc.Switch
import NewXv6.Lib.Ring
import NewXv6.Lib.Adds
import NewXv6.Pipe.Model
import NewXv6.Pipe.Run
import NewXv6.Vm.Model
import NewXv6.Vm.Own
import NewXv6.Vm.Calls
import NewXv6.Mkfs.Model
import NewXv6.Mkfs.Bitmap
import NewXv6.Mkfs.Place
import NewXv6.Mkfs.Append
import NewXv6.Mkfs.Files
import NewXv6.Mkfs.Read
import NewXv6.Mkfs.Boot
import NewXv6.Lib.Links
import NewXv6.Gui.Model
import NewXv6.Gui.List
import NewXv6.Gui.Spec
import NewXv6.Gui.Order
import NewXv6.Lib.Reach
import NewXv6.Gui.Calls
import NewXv6.Lib.Monitor
import NewXv6.Gui.Null
import NewXv6.Gui.Bounds
import NewXv6.Gui.Fifo
import NewXv6.Gui.Paint
import NewXv6.Gui.Relay
import NewXv6.Gui.Screen
import NewXv6.Gui.Exit
import NewXv6.Lib.Updates
import NewXv6.Gui.Active
import NewXv6.Sys.Memory
import NewXv6.Vm.Safe
import NewXv6.Lib.Path
import NewXv6.Log.Race
import NewXv6.Gui.Interrupt
import NewXv6.Gui.Kept
import NewXv6.Gui.Drag
import NewXv6.Lib.Circle
import NewXv6.Bio.Model
import NewXv6.Bio.Cache
import NewXv6.Bio.Room
import NewXv6.Sound.Model
import NewXv6.Sound.Queue
import NewXv6.Sound.Stream
import NewXv6.User.Model
import NewXv6.User.Copy
import NewXv6.Vm.Exact
import NewXv6.Vm.Undo
import NewXv6.Vm.Failed
import NewXv6.Vm.Undone
import NewXv6.Vm.Tail
import NewXv6.Vm.Copyout
import NewXv6.Vm.Sbrk
import NewXv6.Vm.Argv
import NewXv6.Fs.Shared
import NewXv6.Bio.Ide
import NewXv6.Sh.Parse
import NewXv6.Fs.Names
import NewXv6.Fs.Lookup
import NewXv6.Lib.Bits
import NewXv6.Sound.Kwrite
import NewXv6.Sound.Reservoir
import NewXv6.Console.Model
import NewXv6.Console.Serial
import NewXv6.Mouse.Model
import NewXv6.Mouse.Cursor
import NewXv6.Mouse.Clicks
import NewXv6.Cal.Model
import NewXv6.Cal.Reduce
import NewXv6.Cal.Parse
import NewXv6.Lib.Total
import NewXv6.Fs.Overlay
import NewXv6.Fs.Reads
import NewXv6.Lib.Cyclic
import NewXv6.Umalloc.Model
import NewXv6.Umalloc.Free
import NewXv6.Umalloc.Malloc
import NewXv6.Umalloc.Run
import NewXv6.Console.History
import NewXv6.Console.Keyboard
import NewXv6.Console.Edit
import NewXv6.Lib.Buffer
import NewXv6.Grep.Match
import NewXv6.ShellGui.Model
import NewXv6.ShellGui.Rows
import NewXv6.ShellGui.Prompt
import NewXv6.User.Splice
import NewXv6.Grep.Lines
import NewXv6.Grep.Chunks
import NewXv6.Editor.Model
import NewXv6.Editor.Commands
import NewXv6.Editor.Save
import NewXv6.Bitmap.Load
import NewXv6.Bitmap.Headers
import NewXv6.Finder.Model
import NewXv6.Finder.Areas
import NewXv6.Sh.Words
import NewXv6.Memmove
import NewXv6.Finder.Size
import NewXv6.Drawing.Model
import NewXv6.Drawing.Line
import NewXv6.Drawing.Rect
import NewXv6.Clickables.Model
import NewXv6.Clickables.Dispatch
import NewXv6.Paging.Model
import NewXv6.Paging.Mappages
import NewXv6.Lib.Blind
import NewXv6.Fs.Inside
import NewXv6.Sys.Inside
import NewXv6.Log.Recover
import NewXv6.Sys.Crash
import NewXv6.Sys.Restart
import NewXv6.Sh.Plain
import NewXv6.Sh.Jobs
import NewXv6.Sh.Wiring
import NewXv6.Sh.Progress
import NewXv6.Spin.Model
import NewXv6.Spin.Exclusion
import NewXv6.Fs.Tree
import NewXv6.Fs.Link
import NewXv6.User.Disk
import NewXv6.Vm.Runs
