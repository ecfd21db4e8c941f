import FreeUnit.Pipelining
import FreeUnit.ResponseRoundTrip
import FreeUnit.PeerStream
import FreeUnit.UriEncode
import FreeUnit.ConfHistory
import FreeUnit.NumericQueue
import FreeUnit.AppIdle
import FreeUnit.AppSlots
import FreeUnit.PortRoundTrip
import FreeUnit.PortSend
import FreeUnit.PortOrder
import FreeUnit.ShmChunks
import FreeUnit.ResponseMessage
import FreeUnit.RequestMessage
import FreeUnit.StaticRange
import FreeUnit.KeyedTables
import FreeUnit.ForwardedFor
import FreeUnit.CompNegotiate
import FreeUnit.RouteHandler
import FreeUnit.WsStream
import FreeUnit.ControllerSerial
import FreeUnit.RequestReplay
import FreeUnit.AddrPatternText
import FreeUnit.DetachedPorts
import FreeUnit.CompStream
import FreeUnit.SockAddrText
import FreeUnit.QueueWakeup
import FreeUnit.CloneMap
import FreeUnit.VersionOrder
import FreeUnit.ChrootMatch
import FreeUnit.VaryMerge
