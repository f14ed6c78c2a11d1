import RetroOs.Browser.RawTextLosses
import RetroOs.Browser.CssSheets
import RetroOs.Browser.CssStyles
import RetroOs.Kernel.Timers
import RetroOs.Kernel.HeapRequests
import RetroOs.Kernel.SlabRuns
import RetroOs.Kernel.PmmRuns
import RetroOs.Kernel.PagingOwnership
import RetroOs.Kernel.Confinement
import RetroOs.Kernel.SegmentWindows
import RetroOs.Kernel.Exec
import RetroOs.Drivers.Fat16Readdir
import RetroOs.Net.TcpFin
import RetroOs.Net.TcpWindow
import RetroOs.Net.TcpSlots
import RetroOs.Net.SocketBuffer
import RetroOs.Net.DnsRuns
import RetroOs.Net.DhcpOptions
import RetroOs.Net.Http
import RetroOs.Kernel.User
import RetroOs.Kernel.SignalReturn
import RetroOs.Kernel.PipeRuns
import RetroOs.Kernel.PipeEndRuns
import RetroOs.Kernel.NamedObjectRuns
import RetroOs.Kernel.RwLock
import RetroOs.Kernel.Barrier
import RetroOs.Kernel.Pthread
import RetroOs.Kernel.Semaphore
import RetroOs.Kernel.UserBuffers
import RetroOs.Kernel.UnveilConfined
import RetroOs.Apps.MallocRuns
import RetroOs.Net.Receive
import RetroOs.Kernel.KernelFsReads
import RetroOs.Kernel.KernelFsDirs
import RetroOs.Kernel.PhaseAFiles
import RetroOs.Kernel.PhaseALookups
import RetroOs.Kernel.PhaseC
import RetroOs.Kernel.VfsLayers
import RetroOs.Net.DnsResponses
import RetroOs.Net.DnsRoundTrip
import RetroOs.Kernel.MemoryGrowth
import RetroOs.Kernel.Mprotect
import RetroOs.Apps.Regex
import RetroOs.Apps.Glob
import RetroOs.Apps.Base64
import RetroOs.Apps.Digests
import RetroOs.Kernel.StringCopies
import RetroOs.Apps.Qsort
import RetroOs.Kernel.Itoa
import RetroOs.Kernel.Division
import RetroOs.Kernel.Pty
import RetroOs.Apps.Crc32
