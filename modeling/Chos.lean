import Chos.Kernel.Isolation
import Chos.Kernel.Inheritance
import Chos.Kernel.Agreement
import Chos.Kernel.Access
import Chos.Kernel.Wrapping
import Chos.Kernel.MemorySafety
import Chos.Kernel.Uninterrupted
import Chos.Kernel.Incarnations
import Chos.Kernel.Namespaces
import Chos.Kernel.Loading
import Chos.Kernel.PageWrites
import Chos.Kernel.TableRange
import Chos.Kernel.TextOwnership
import Chos.Kernel.Truthful
import Chos.Kernel.Sizing
import Chos.Kernel.TrappedExit
import Chos.Kernel.ValidList
import Chos.Kernel.Reload
import Chos.Kernel.Trampoline
import Chos.Kernel.Granted
import Chos.Kernel.RegionLocks
import Chos.Kernel.RegionSafety
import Chos.Kernel.Waiting
import Chos.Kernel.Capabilities
import Chos.Kernel.Linearizable
import Chos.User.SameTree
import Chos.User.LoadValid
import Chos.User.LoginEnv
import Chos.User.LongLines
import Chos.User.Main
import Chos.User.Contract
import Chos.User.InTree
import Chos.User.Deployment
