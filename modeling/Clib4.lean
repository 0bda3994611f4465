import Clib4.Args.Execve
import Clib4.Args.QuoteVector
import Clib4.Args.ScriptLine
import Clib4.Base.Gregorian
import Clib4.Base.Interleaving
import Clib4.Base.Linked
import Clib4.Base.LinkedGroups
import Clib4.Base.Loop
import Clib4.Base.Machine
import Clib4.Base.Pieces
import Clib4.Base.PushBack
import Clib4.Base.Splice
import Clib4.Base.Tape
import Clib4.Base.Walk
import Clib4.Errno
import Clib4.Dos
import Clib4.Arith
import Clib4.Fd
import Clib4.FdPosition
import Clib4.FdTable
import Clib4.FdAliases
import Clib4.Descriptors
import Clib4.RecordLocking
import Clib4.LockExclusion
import Clib4.LockRequests
import Clib4.LockRelease
import Clib4.Stdio.Iob
import Clib4.Stdio.Output
import Clib4.Stdio.Input
import Clib4.Stdio.Position
import Clib4.Stdio.Session
import Clib4.Stdio.Writing
import Clib4.Stdio.WriteCalls
import Clib4.Stdio.Reading
import Clib4.Stdio.Seeking
import Clib4.Stdio.StreamCalls
import Clib4.Stdio.UpdateStream
import Clib4.Path.Meaning
import Clib4.Path.StripDoubleSlash
import Clib4.Path.UnixToAmiga
import Clib4.Path.Canonical
import Clib4.Path.DoubleDots
import Clib4.Path.UnixMeaning
import Clib4.Path.AmigaToUnix
import Clib4.Path.AmigaMeaning
import Clib4.Path.PathBounds
import Clib4.Scanf.Format
import Clib4.Scanf.Scan
import Clib4.Scanf.Steps
import Clib4.Scanf.Readers
import Clib4.Scanf.Scanset
import Clib4.Scanf.DigitLoop
import Clib4.Scanf.Integers
import Clib4.Scanf.StreamScan
import Clib4.Scanf.StringIob
import Clib4.Scanf.Refill
import Clib4.Scanf.CharCount
import Clib4.Scanf.OnText
import Clib4.SysV.Semop
import Clib4.SysV.SemValues
import Clib4.SysV.SemProtocol
import Clib4.SysV.SemQueues
import Clib4.SysV.SemRemoval
import Clib4.SysV.Undo
import Clib4.SysV.SemSection
import Clib4.SysV.SemWakeups
import Clib4.SysV.SemProgress
import Clib4.SysV.MsgQueue
import Clib4.SysV.MsgDelivery
import Clib4.SysV.MsgRules
import Clib4.Pthread.Once
import Clib4.Pthread.Cond
import Clib4.Pthread.Semaphore
import Clib4.Pthread.Barrier
import Clib4.Pthread.Create
import Clib4.Pthread.Cleanup
import Clib4.Pthread.JoinSystem
import Clib4.Pthread.ErrorCheck
import Clib4.Pthread.Join
import Clib4.Time.Calendar
import Clib4.Time.LocalTime
import Clib4.Time.Weekday
import Clib4.Time.Stamps
import Clib4.Stdio.Ungetc
import Clib4.Strings
import Clib4.Stdlib.StrToInt
import Clib4.Stdlib.ExitHandlers
import Clib4.Stdlib.Mktemp
import Clib4.Socket.SelectTimeout
import Clib4.SysV.ShmAccounts
import Clib4.Wchar.Restart
import Clib4.Wchar.Wcstombs
import Clib4.Unistd.Getopt
