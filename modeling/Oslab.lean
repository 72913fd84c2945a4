import Oslab.Lib.Prog
import Oslab.Lib.Bytes
import Oslab.Lib.Transition
import Oslab.Lib.Refs
import Oslab.Disk
import Oslab.FsOps
import Oslab.Kernel
import Oslab.Syscall
import Oslab.Machine
import Oslab.Tables
import Oslab.Processes
import Oslab.Scheduler
import Oslab.Ledger
import Oslab.Reaping
import Oslab.Lists
import Oslab.Semaphores
import Oslab.Philosophers
import Oslab.Terminal
import Oslab.Credits
import Oslab.Vme
import Oslab.VmeSpec
import Oslab.Isolation
import Oslab.Loader
import Oslab.LoaderSpec
import Oslab.Spaces
import Oslab.SpacesSpec
import Oslab.Heap
import Oslab.Mkfs
import Oslab.Copying
import Oslab.Protection
import Oslab.Arguments
import Oslab.Executable
import Oslab.Lib.Fields
import Oslab.Cache
import Oslab.Elements
import Oslab.Pool
import Oslab.Queues
import Oslab.Scanf
import Oslab.Lines
import Oslab.Boot
import Oslab.Xargs
import Oslab.XargsSpec
import Oslab.MkfsSpec
import Oslab.Steps
import Oslab.Runs
import Oslab.Bindings
import Oslab.Pwd
import Oslab.Sharing
import Oslab.Contents
import Oslab.ReadBack
import Oslab.Shell
import Oslab.ShellSpec
import Oslab.Booting
import Oslab.UserSemaphores
