import MyWebSocket.Http.Request
import MyWebSocket.Core.FileReader

namespace MyWebSocket

/-!
# HTTP responses

`httpResp` without its connection: the content of a response, and the buffers `send` makes of
it.
-/

/-- `httpStatus`. -/
inductive HttpStatus
  | switchingProtocols | ok | created | accepted | noContent | movedPermanently | found
  | notModified | badRequest | unauthorized | forbidden | notFound | internalServerError
  | notImplemented | badGateway | serviceUnavailable | gatewayTimeout
deriving DecidableEq, Repr

/-- `httpStatus_str`. -/
def httpStatusStr : HttpStatus → Bytes
  | .switchingProtocols => str "101 Web Socket Protocol Handshake"
  | .ok => str "200 OK"
  | .created => str "201 Created"
  | .accepted => str "202 Accepted"
  | .noContent => str "204 No Content"
  | .movedPermanently => str "301 Moved Permanently"
  | .found => str "302 Found"
  | .notModified => str "304 Not Modified"
  | .badRequest => str "400 Bad Request"
  | .unauthorized => str "401 Unauthorized"
  | .forbidden => str "403 Forbidden"
  | .notFound => str "404 Not Found"
  | .internalServerError => str "500 Internal Server Error"
  | .notImplemented => str "501 Not Implemented"
  | .badGateway => str "502 Bad Gateway"
  | .serviceUnavailable => str "503 Service Unavailable"
  | .gatewayTimeout => str "504 Gateway Timeout"

/-- `std::filesystem::path(path).extension()`: from the last dot of the file name, unless the
    name is `.` or `..` or the dot is its first character. -/
def extension (path : Bytes) : Bytes :=
  let name := (path.reverse.takeWhile (· != 0x2F)).reverse
  let ext := (name.reverse.takeWhile (· != 0x2E)).reverse
  if name = str "." ∨ name = str ".." ∨ name.length ≤ ext.length + 1 then [] else 0x2E :: ext

/-- The table of `getMimeType`. -/
def mimeTypes : List (Bytes × Bytes) :=
  [(str ".html", str "text/html"), (str ".htm", str "text/html"), (str ".css", str "text/css"),
   (str ".js", str "application/javascript"), (str ".json", str "application/json"),
   (str ".txt", str "text/plain"), (str ".map", str "application/json"),
   (str ".ttf", str "font/ttf"), (str ".woff", str "font/woff"), (str ".woff2", str "font/woff2"),
   (str ".eot", str "application/vnd.ms-fontobject"), (str ".otf", str "font/otf"),
   (str ".png", str "image/png"), (str ".jpg", str "image/jpeg"), (str ".jpeg", str "image/jpeg"),
   (str ".gif", str "image/gif"), (str ".svg", str "image/svg+xml"), (str ".ico", str "image/x-icon"),
   (str ".webp", str "image/webp"), (str ".mp3", str "audio/mpeg"), (str ".mp4", str "video/mp4")]

/-- `getMimeType`. -/
def getMimeType (path : Bytes) : Bytes :=
  (mimeTypes.lookup (extension path)).getD (str "application/octet-stream")

/-- `httpResp::SendType`. -/
inductive SendType
  | none | str | json | file
deriving DecidableEq, Repr

/-- What `m_onSent` has been set to: the callback of `initResp` or that of `upgradeToWs`. -/
inductive OnSent
  | session | upgrade
deriving DecidableEq, Repr

/-- `httpResp`; `m_reader` is the number of a file reader. -/
structure HttpResp where
  body : Bytes
  status : HttpStatus
  headers : HeaderMap
  filePath : Bytes
  sendType : SendType
  reader : Option Nat
  onSent : OnSent
deriving DecidableEq

namespace HttpResp

/-- `httpResp::httpResp` with the callback `initResp` gives it. -/
def init : HttpResp :=
  { body := [], status := .ok, headers := ∅, filePath := [], sendType := .none, reader := none,
    onSent := .session }

/-- `httpResp::setHeader`. -/
def setHeader (r : HttpResp) (key value : Bytes) : HttpResp :=
  { r with headers := r.headers.insert key value }

/-- `httpResp::setStatus`. -/
def setStatus (r : HttpResp) (status : HttpStatus) : HttpResp := { r with status := status }

/-- `httpResp::sendStr` up to the call of `send`. -/
def setStr (r : HttpResp) (body : Bytes) : HttpResp :=
  { r.setHeader (str "Content-Type") (str "text/plain") with body := body, sendType := .str }

/-- `httpResp::sendJson` up to the call of `send`; `text` is what `stringify` gives. -/
def setJson (r : HttpResp) (text : Bytes) : HttpResp :=
  { r.setHeader (str "Content-Type") (str "application/json") with body := text, sendType := .json }

/-- `httpResp::sendFile` up to the start of the file reader. -/
def setFile (r : HttpResp) (path : Bytes) (reader : Nat) : HttpResp :=
  { r.setHeader (str "Content-Type") (getMimeType path) with
    filePath := path, sendType := .file, reader := some reader }

/-- `httpResp::clearContent`. -/
def clearContent (r : HttpResp) : HttpResp :=
  { r with body := [], headers := ∅, status := .ok, sendType := .none, filePath := [] }

/-- `httpResp::sendErr` up to the call of `send`. -/
def setErr (r : HttpResp) : HttpResp :=
  ({ r with body := [], headers := ∅ }.setStatus .internalServerError).setStr
    (httpStatusStr .internalServerError)

/-- `HttpServer::handle_errReq` up to the call of `send`. -/
def setNotFound (r : HttpResp) : HttpResp := (r.setStatus .notFound).setStr (str "404 Not Found")

/-- `Session::upgradeToWs` up to the call of `send`. -/
def setUpgrade (r : HttpResp) (acceptKey : Bytes) : HttpResp :=
  let r := r.setStatus .switchingProtocols
  let r := r.setHeader (str "upgrade") (str "websocket")
  let r := r.setHeader (str "connection") (str "Upgrade")
  let r := r.setHeader (str "sec-websocket-accept") acceptKey
  { r with onSent := .upgrade }.setStr []

/-- The head `httpResp::send` builds.  `headerOrder` is the order in which the header map is
    iterated. -/
def head (r : HttpResp) (headerOrder : HeaderMap → List (Bytes × Bytes)) (contentLength : Nat) :
    Bytes :=
  str "HTTP/1.1 " ++ httpStatusStr r.status ++ str "\r\n" ++
    (headerOrder r.headers).flatMap (fun h => h.1 ++ str ": " ++ h.2 ++ str "\r\n") ++
    (str "Content-Length: " ++ str (toString contentLength) ++ str "\r\n") ++ str "\r\n"

/-- The buffers `httpResp::send` hands to `uv_write`, given the response's file reader. -/
def buffers (r : HttpResp) (headerOrder : HeaderMap → List (Bytes × Bytes))
    (reader : Option FileReader) : List Bytes :=
  if r.sendType = .file then
    r.head headerOrder (reader.elim 0 FileReader.getReadByte) ::
      reader.elim [] FileReader.appendToBuff
  else [r.head headerOrder r.body.length, r.body]

end HttpResp

end MyWebSocket
