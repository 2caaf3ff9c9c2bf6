import Sengoo.Portable.NativeWidth
import Sengoo.Portable.Leb128
import Sengoo.Typeck.Match
import Sengoo.Sgpm.GraphWellFormed
import Sengoo.Sgpm.ContentChecksum
import Sengoo.Runtime.SchedulerWakeup
import Sengoo.Runtime.ThreadPool
import Sengoo.Runtime.RwLockSafety
import Sengoo.Runtime.ChannelDelivery
import Sengoo.Net.ByteStreamProcess
import Sengoo.Runtime.ExecutorProgress
import Sengoo.Net.HttpConnection
import Sengoo.Sgc.Closure
import Sengoo.Stdlib.HandleTable
import Sengoo.Stdlib.Containers
import Sengoo.Stdlib.JsonDeepCopy
import Sengoo.Stdlib.CommandLine
import Sengoo.Stdlib.Base64
import Sengoo.Stdlib.Glob
import Sengoo.Parser.Text
import Sengoo.Parser.FStringFaithful
import Sengoo.Typeck.Rollback
import Sengoo.Typeck.Origins
import Sengoo.Typeck.Canonical
import Sengoo.Typeck.AutoMarker
import Sengoo.Hir.TypeNaming
