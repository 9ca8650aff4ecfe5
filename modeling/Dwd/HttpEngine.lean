import Dwd.HttpTask

/-! The workers of the three HTTP engines: `http` over hyper, `http/raw` over a plain TCP stream, and
`http3` over QUIC. Addresses, payload contents and the handles of the transport libraries are left out:
no branch of a worker depends on them. -/

namespace Dwd

/-- `RequestsPerSocket`, the generator of request quotas. -/
inductive RequestsPerSocket where
  | fixed (requestsPerSocket : ℕ)
  | uniform (min max : ℕ)

namespace RequestsPerSocket

/-- `RequestsPerSocket::uniform`, with saturating bounds. -/
def ofDeviation (requestsPerSocket deviation : ℕ) : RequestsPerSocket :=
  .uniform (requestsPerSocket - deviation) (min (requestsPerSocket + deviation) (2 ^ 64 - 1))

/-- The next quota. The random generator is a number of the environment, taken into the range. -/
def next (random : ℕ) : RequestsPerSocket → ℕ
  | .fixed requestsPerSocket => requestsPerSocket
  | .uniform min max => min + random % (max - min + 1)

end RequestsPerSocket

/-- `RequestsPerConn` of the HTTP/3 engine is the same generator. -/
abbrev RequestsPerConn : Type := RequestsPerSocket

namespace Http

/-- The await points of a worker. -/
inductive Point where
  | connect
  | tlsConnect
  | handshake
  | sendRequest
  | frame
  deriving DecidableEq, Repr

/-- A reading of the TCP information of a socket. -/
structure TcpInfo where
  bytesAcked : ℕ
  bytesReceived : ℕ
  totalRetrans : ℕ

namespace TcpInfo

def default : TcpInfo := { bytesAcked := 0, bytesReceived := 0, totalRetrans := 0 }

end TcpInfo

/-- The answers of the outside: whether each call succeeds, the status of the response head, the next
body frame (if there is one, and whether it is an error), the random number for a quota, and the
readings that an update and the drop of a stream take. -/
structure Answers where
  newSocket : Bool
  bind : Bool
  connect : Bool
  setNodelay : Bool
  setLinger : Bool
  tlsConnect : Bool
  handshake : Bool
  sendRequest : Option ℕ
  frame : Option Bool
  random : ℕ
  tcpInfo : TcpInfo
  tcpInfoDropped : TcpInfo

/-- An outside in which every call succeeds, the status is 200 and there is no body. -/
def Answers.allOk : Answers where
  newSocket := true
  bind := true
  connect := true
  setNodelay := true
  setLinger := true
  tlsConnect := true
  handshake := true
  sendRequest := some 200
  frame := none
  random := 0
  tcpInfo := .default
  tcpInfoDropped := .default

/-- `TcpStatMonitor`: the reading of the last update. -/
structure TcpStatMonitor where
  tcpInfo : TcpInfo

namespace TcpStatMonitor

def new : TcpStatMonitor := { tcpInfo := .default }

/-- The effects of `update`, which reads `tcpi`. -/
def update (tcpi : TcpInfo) (m : TcpStatMonitor) : List Effect :=
  [.stat (.onSend (tcpi.bytesAcked - m.tcpInfo.bytesAcked)),
    .stat (.onRecv (tcpi.bytesReceived - m.tcpInfo.bytesReceived)),
    .stat (.onRetransmits (tcpi.totalRetrans - m.tcpInfo.totalRetrans))]

/-- A monitor updates once more when it is dropped. -/
def drop (m : TcpStatMonitor) (moment : Moment Answers) : List Effect :=
  m.update moment.answer.tcpInfoDropped

end TcpStatMonitor

/-- A stream is its monitor; the request sender has no data of its own. -/
abbrev TcpStream : Type := TcpStatMonitor

structure CoroWorker where
  tls : Bool
  stream : Option TcpStream
  requestsPerSockLeft : ℕ
  requestsPerSockGen : RequestsPerSocket
  tcpLinger : Option ℕ
  tcpNoDelay : Bool

namespace CoroWorker

def new (tls : Bool) (requestsPerSockGen : RequestsPerSocket) (tcpLinger : Option ℕ)
    (tcpNoDelay : Bool) (random : ℕ) : CoroWorker :=
  { tls := tls
    stream := none
    requestsPerSockLeft := requestsPerSockGen.next random
    requestsPerSockGen := requestsPerSockGen
    tcpLinger := tcpLinger
    tcpNoDelay := tcpNoDelay }

abbrev Worker (α : Type) : Type := Job Point Answers CoroWorker α

/-- `reconnect`. The monitor exists from the bound socket on. -/
def reconnect : Worker TcpStream := do
  Job.require Answers.newSocket
  Job.require Answers.bind
  let stat := TcpStatMonitor.new
  Coro.owning stat.drop do
    Job.awaitOk .connect Answers.connect
    let self ← Coro.get
    Job.when self.tcpNoDelay (Job.require Answers.setNodelay)
    Job.when self.tcpLinger.isSome (Job.require Answers.setLinger)
    Job.update .onSockCreated
    Job.when self.tls (Job.awaitOk .tlsConnect Answers.tlsConnect)
    Job.awaitOk .handshake Answers.handshake
    return stat

def currSock : Worker TcpStream := do
  let self ← Coro.get
  Coro.modify fun self => { self with stream := none }
  match self.stream with
  | some stream => return stream
  | none => reconnect

/-- `while let Some(next) = resp.frame().await { next?; }`, and then the code. -/
def frames (code : ℕ) : Worker ℕ :=
  Coro.awaitLoop Point.frame (fun _ m self =>
    match m.answer.frame with
    | some true => (self, [], .inl ())
    | some false => (self, [], .inr none)
    | none => (self, [], .inr (some code))) ()

/-- `perform_request`: the request is counted when the head of the response has come. -/
def performRequest (_ : TcpStream) : Worker ℕ := do
  let code ← Job.await .sendRequest Answers.sendRequest
  Job.update (.onRequests 1)
  frames code

/-- The end of `do_execute`, after a response. -/
def settle (sock : TcpStream) : Worker Unit := do
  Coro.modify fun self => { self with requestsPerSockLeft := self.requestsPerSockLeft - 1 }
  let self ← Coro.get
  let tcpi ← Coro.ask fun m => m.answer.tcpInfo
  let updates := self.requestsPerSockLeft % 32 = 0
  Coro.emitAll (if updates then sock.update tcpi else [])
  let sock : TcpStream := if updates then { tcpInfo := tcpi } else sock
  if 0 < self.requestsPerSockLeft then Coro.modify fun self => { self with stream := some sock }
  else
    let random ← Coro.ask fun m => m.answer.random
    Coro.modify fun self =>
      { self with requestsPerSockLeft := self.requestsPerSockGen.next random }
    let dropped ← Coro.ask sock.drop
    Coro.emitAll dropped

def doExecute : Worker Unit := Job.doExecute currSock performRequest TcpStatMonitor.drop settle

end CoroWorker

end Http

namespace HttpRaw

inductive Point where
  | connect
  | writeAll
  | readBuf
  deriving DecidableEq, Repr

/-- The answers of the outside: the length of the request to send, and the bytes of the next read, none
being the end of the stream. -/
structure Answers where
  newSocket : Bool
  bind : Bool
  connect : Bool
  setNodelay : Bool
  setLinger : Bool
  requestLen : ℕ
  writeAll : Bool
  readBuf : Option (List UInt8)

/-- What `httparse` finds in a buffer. -/
inductive Parsed where
  | complete (code : Option ℕ)
  | unfinished
  | error

/-- The stream has no data that the worker looks at. -/
structure TcpStream where

structure CoroWorker where
  stream : Option TcpStream
  buf : List UInt8
  requestsPerSock : ℕ
  requestsPerSockDone : ℕ
  tcpLinger : Option ℕ
  tcpNoDelay : Bool

namespace CoroWorker

def new (requestsPerSock : ℕ) (tcpLinger : Option ℕ) (tcpNoDelay : Bool) : CoroWorker :=
  { stream := none
    buf := []
    requestsPerSock := requestsPerSock
    requestsPerSockDone := 0
    tcpLinger := tcpLinger
    tcpNoDelay := tcpNoDelay }

abbrev Worker (α : Type) : Type := Job Point Answers CoroWorker α

def reconnect : Worker TcpStream := do
  Job.require Answers.newSocket
  Job.require Answers.bind
  Job.awaitOk .connect Answers.connect
  let self ← Coro.get
  Job.when self.tcpNoDelay (Job.require Answers.setNodelay)
  Job.when self.tcpLinger.isSome (Job.require Answers.setLinger)
  Job.update .onSockCreated
  return {}

def currSock : Worker TcpStream := do
  let self ← Coro.get
  Coro.modify fun self => { self with stream := none }
  match self.stream with
  | some stream => return stream
  | none => reconnect

variable (parse : List UInt8 → Parsed)

/-- The loop of `perform_request`: read, and parse all that has been read. -/
def readResponse : Worker ℕ :=
  Coro.awaitLoop Point.readBuf (fun _ m self =>
    match m.answer.readBuf with
    | none => (self, [], .inr none)
    | some chunk =>
        let self := { self with buf := self.buf ++ chunk }
        match parse self.buf with
        | .error => (self, [], .inr none)
        | .unfinished => (self, [], .inl ())
        | .complete code => (self, [.stat (.onRecv chunk.length)], .inr (some (code.getD 0)))) ()

def performRequest (_ : TcpStream) : Worker ℕ := do
  let requestLen ← Coro.ask fun m => m.answer.requestLen
  Job.awaitOk .writeAll Answers.writeAll
  Job.update (.onRequests 1)
  Job.update (.onSend requestLen)
  Coro.modify fun self => { self with buf := [] }
  readResponse parse

/-- The end of `do_execute`, after a response. -/
def settle (sock : TcpStream) : Worker Unit := do
  Coro.modify fun self => { self with requestsPerSockDone := self.requestsPerSockDone + 1 }
  let self ← Coro.get
  if self.requestsPerSockDone < self.requestsPerSock then
    Coro.modify fun self => { self with stream := some sock }
  else Coro.modify fun self => { self with requestsPerSockDone := 0 }

def doExecute : Worker Unit := Job.doExecute currSock (performRequest parse) (fun _ _ => []) settle

end CoroWorker

end HttpRaw

namespace Http3

inductive Point where
  | connecting
  | newClient
  | sendRequest
  | finish
  | recvResponse
  | recvData
  deriving DecidableEq, Repr

/-- The answers of the outside: among them the next piece of the body, which is an error, the end of
the body, or a number of bytes. -/
structure Answers where
  endpoint : Bool
  connect : Bool
  connecting : Bool
  newClient : Bool
  sendRequest : Bool
  finish : Bool
  recvResponse : Option ℕ
  recvData : Option (Option ℕ)
  random : ℕ

/-- The connection has no data that the worker looks at. -/
structure Http3Connection where

structure CoroWorker where
  endpoint : Bool
  conn : Option Http3Connection
  requestsPerConnLeft : ℕ
  requestsPerConnGen : RequestsPerConn

namespace CoroWorker

def new (requestsPerConnGen : RequestsPerConn) (random : ℕ) : CoroWorker :=
  { endpoint := false
    conn := none
    requestsPerConnLeft := requestsPerConnGen.next random
    requestsPerConnGen := requestsPerConnGen }

abbrev Worker (α : Type) : Type := Job Point Answers CoroWorker α

/-- `endpoint`: it is created on first use, which may fail. -/
def getEndpoint : Worker Unit := do
  let self ← Coro.get
  if self.endpoint then return ()
  else
    Job.require Answers.endpoint
    Coro.modify fun self => { self with endpoint := true }

def reconnect : Worker Http3Connection := do
  getEndpoint
  Job.require Answers.connect
  Job.awaitOk .connecting Answers.connecting
  Job.update .onSockCreated
  Job.awaitOk .newClient Answers.newClient
  return {}

def currConn : Worker Http3Connection := do
  let self ← Coro.get
  Coro.modify fun self => { self with conn := none }
  match self.conn with
  | some conn => return conn
  | none => reconnect

/-- The loop that drains the body, counting its bytes. -/
def drain (code : ℕ) : Worker ℕ :=
  Coro.awaitLoop Point.recvData (fun bytesRx m self =>
    match m.answer.recvData with
    | none => (self, [], .inr none)
    | some (some n) => (self, [], .inl (bytesRx + n))
    | some none =>
        (self, if 0 < bytesRx then [.stat (.onRecv bytesRx)] else [], .inr (some code))) 0

def performRequest (_ : Http3Connection) : Worker ℕ := do
  Job.awaitOk .sendRequest Answers.sendRequest
  Job.update (.onRequests 1)
  Job.awaitOk .finish Answers.finish
  let code ← Job.await .recvResponse Answers.recvResponse
  drain code

/-- The end of `do_execute`, after a response. -/
def settle (conn : Http3Connection) : Worker Unit := do
  Coro.modify fun self => { self with requestsPerConnLeft := self.requestsPerConnLeft - 1 }
  let self ← Coro.get
  if 0 < self.requestsPerConnLeft then Coro.modify fun self => { self with conn := some conn }
  else
    let random ← Coro.ask fun m => m.answer.random
    Coro.modify fun self =>
      { self with requestsPerConnLeft := self.requestsPerConnGen.next random }

def doExecute : Worker Unit := Job.doExecute currConn performRequest (fun _ _ => []) settle

end CoroWorker

end Http3

end Dwd
