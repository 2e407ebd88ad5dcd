import MyWebSocket.Library.Transducer
import MyWebSocket.Library.Entries
import MyWebSocket.Library.Log
import MyWebSocket.Library.Machine
import MyWebSocket.Library.Ledger
import MyWebSocket.Library.Http11
import MyWebSocket.Library.Percent
import MyWebSocket.Library.Clock
import MyWebSocket.Library.Registry
import MyWebSocket.Library.OrderedMap
import MyWebSocket.Library.Regex
import MyWebSocket.Library.RegexSyntax
import MyWebSocket.Parser.Frame
import MyWebSocket.Parser.Parse
import MyWebSocket.Parser.ByteStep
import MyWebSocket.Parser.Wire
import MyWebSocket.Parser.Decoding
import MyWebSocket.Parser.Messages
import MyWebSocket.Parser.Interleave
import MyWebSocket.Parser.Acceptance
import MyWebSocket.Parser.Limit
import MyWebSocket.Parser.Delivery
import MyWebSocket.Parser.Recovery
import MyWebSocket.Parser.Provenance
import MyWebSocket.Parser.Loop
import MyWebSocket.Core.FileReader
import MyWebSocket.Core.Heap
import MyWebSocket.Core.FileContent
import MyWebSocket.Core.RecvBuf
import MyWebSocket.WebSocket.Session
import MyWebSocket.WebSocket.Steps
import MyWebSocket.WebSocket.Release
import MyWebSocket.WebSocket.Closing
import MyWebSocket.WebSocket.Finality
import MyWebSocket.WebSocket.Sending
import MyWebSocket.WebSocket.Masking
import MyWebSocket.WebSocket.Pong
import MyWebSocket.Http.Request
import MyWebSocket.Http.Pieces
import MyWebSocket.Http.Router
import MyWebSocket.Http.Template
import MyWebSocket.Http.Parameters
import MyWebSocket.Http.Groups
import MyWebSocket.Http.Routes
import MyWebSocket.Http.Isolation
import MyWebSocket.Http.Query
import MyWebSocket.Http.Execute
import MyWebSocket.Http.ZeroRead
import MyWebSocket.Http.ParseError
import MyWebSocket.Http.Response
import MyWebSocket.Http.Grammar
import MyWebSocket.Http.Session
import MyWebSocket.Http.Steps
import MyWebSocket.Http.KeepAlive
import MyWebSocket.Http.Upgrade
import MyWebSocket.Http.Timer
import MyWebSocket.Http.Line
import MyWebSocket.Http.Ordering
import MyWebSocket.Http.SendFile
import MyWebSocket.Http.Release
import MyWebSocket.Library.Fragments
import MyWebSocket.HttpParser.Chars
import MyWebSocket.HttpParser.Execute
import MyWebSocket.HttpParser.ByteStep
import MyWebSocket.HttpParser.Agreement
import MyWebSocket.HttpParser.Phases
import MyWebSocket.HttpParser.Reads
import MyWebSocket.HttpParser.Cuts
import MyWebSocket.HttpParser.Streams
import MyWebSocket.Library.Numerals
import MyWebSocket.HttpParser.Names
import MyWebSocket.HttpParser.Values
import MyWebSocket.HttpParser.Fields
import MyWebSocket.HttpParser.Wire
import MyWebSocket.HttpParser.RequestLine
import MyWebSocket.HttpParser.FieldLines
import MyWebSocket.HttpParser.Payloads
import MyWebSocket.HttpParser.RoundTrip
import MyWebSocket.Server.Connections
import MyWebSocket.Server.Places
import MyWebSocket.Server.Release
import MyWebSocket.Server.Buffers
import MyWebSocket.Server.FileLength
import MyWebSocket.Json.Value
import MyWebSocket.Json.Parse
import MyWebSocket.Json.Progress
import MyWebSocket.Json.Reading
import MyWebSocket.Json.RoundTrip
import MyWebSocket.Json.Weight
import MyWebSocket.Json.Message
import MyWebSocket.Library.JsonText
import MyWebSocket.Library.JsonGrammar
import MyWebSocket.Json.Grammar
import MyWebSocket.Json.Refusal
import MyWebSocket.Json.TextReading
import MyWebSocket.Json.Denotation
import MyWebSocket.Util.Jwt
import MyWebSocket.Util.JwtRoundTrip
