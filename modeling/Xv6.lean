import Xv6.FreeRange
import Xv6.SpaceRuns
import Xv6.FaultRuns
import Xv6.ShortWrite
import Xv6.PipeRead
import Xv6.CleanSlots
import Xv6.Cpus
import Xv6.Random
import Xv6.SleepLock
import Xv6.PipeRun
import Xv6.Console
import Xv6.BioView
import Xv6.LogAdmit
import Xv6.Nesting
import Xv6.PathLookup
import Xv6.MkfsPath
import Xv6.MkfsRun
import Xv6.ShellGrammar
import Xv6.GrepLines
import Xv6.MallocBytes
