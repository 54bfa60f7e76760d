import Fluxa.Slots
import Fluxa.Inline
import Fluxa.LoopTiers
import Fluxa.FailFast
import Fluxa.Fixed
import Fluxa.AssignLaw
import Fluxa.Truncation
import Fluxa.Restart
import Fluxa.Arguments
import Fluxa.Versions
import Fluxa.CabiMessage
import Fluxa.Rescue
import Fluxa.IpcVariables
import Fluxa.Danger
import Fluxa.CallDepth
import Fluxa.Namespaces
import Fluxa.Cache
import Fluxa.FsRead
import Fluxa.WsFraming
import Fluxa.WsHandles
import Fluxa.WsFrames
import Fluxa.MethodLocals
import Fluxa.SharedCounter
import Fluxa.ThreadStop
import Fluxa.MessageDelivery
import Fluxa.Sweep
import Fluxa.CsvFields
import Fluxa.Strings
import Fluxa.Raster
import Fluxa.JsonCursor
import Fluxa.JsonObjects
import Fluxa.FfiFrame
import Fluxa.Lexer
import Fluxa.LibErrors
import Fluxa.ResolverWalk
import Fluxa.Migration
import Fluxa.RegisterFile
import Fluxa.Dispatch
import Fluxa.InlineCache
import Fluxa.ArrayTiers
