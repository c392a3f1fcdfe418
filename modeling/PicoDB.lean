import PicoDB.Codec
import PicoDB.Connection
import PicoDB.Decoders
import PicoDB.Delivery
import PicoDB.Drain
import PicoDB.DriverApi
import PicoDB.Exchange
import PicoDB.Framing
import PicoDB.Headers
import PicoDB.Json
import PicoDB.JsonErrors
import PicoDB.JsonGrammar
import PicoDB.JsonNumbers
import PicoDB.JsonReader
import PicoDB.JsonText
import PicoDB.JsonTokens
import PicoDB.JsonUnicode
import PicoDB.JsonValues
import PicoDB.JsonWindow
import PicoDB.JsonWriter
import PicoDB.Lib.Decimal
import PicoDB.Lib.Linearization
import PicoDB.Lib.Lts
import PicoDB.Lib.Marker
import PicoDB.Lib.PrefixCode
import PicoDB.Lib.Rounding
import PicoDB.Lib.Shelf
import PicoDB.LockStep
import PicoDB.Message
import PicoDB.MessageText
import PicoDB.Notifier
import PicoDB.OffsetManager
import PicoDB.Polling
import PicoDB.QueueOrder
import PicoDB.ReadBuffers
import PicoDB.Reader
import PicoDB.Record
import PicoDB.RecordMemory
import PicoDB.RequestProcessor
import PicoDB.Responses
import PicoDB.Returns
import PicoDB.Server
import PicoDB.Session
import PicoDB.System
import PicoDB.Tasks
import PicoDB.ThreadPool
import PicoDB.Utils
import PicoDB.Vector
import PicoDB.VectorCalls
import PicoDB.VectorElements
import PicoDB.VectorProgress
import PicoDB.WakeUps
import PicoDB.Wire
