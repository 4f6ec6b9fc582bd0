import IsaacP2P.Lib.Runs
import IsaacP2P.Relay.State

/-!
# The relay server

The functions of `server/main.cpp`. A reference into `g_connections` is the key
of the entry it refers to, and using it after the entry was erased is undefined
behaviour: the functions that hold references return `none` there.
-/

namespace IsaacP2P.Relay

/-- `epoll_ctl(EPOLL_CTL_MOD)`; every caller discards the result. -/
def updateEpollEvents (k : Kernel) (fd : Fd) (wantWrite : Bool) (s : Server) : Bool × Server :=
  let ok := k.epollCtl s.trace.length fd
  (ok, s.log (.epollMod fd wantWrite ok))

/-- `g_connections` and `g_mark_to_fd` after the connection of `fd` is dropped. -/
def Server.dropConn (fd : Fd) (s : Server) : Server :=
  match s.gConnections.lookup fd with
  | some conn =>
    { s with
      gMarkToFd := if conn.registered then s.gMarkToFd.erase (markToKey conn.mark) else s.gMarkToFd
      gConnections := s.gConnections.erase fd }
  | none => s

def closeConnection (fd : Fd) (s : Server) : Server :=
  ((s.dropConn fd).log (.epollDel fd)).log (.close fd)

/-- The `while` loop of `flush_send_buffer` and the call behind it. Each round
takes at least one byte off the buffer, so its length bounds the rounds. -/
def flushLoop (k : Kernel) (ref : Fd) : Nat → Server → Option Server
  | 0, s => do
    let conn ← s.gConnections.lookup ref
    some (updateEpollEvents k conn.fd false s).2
  | n + 1, s => do
    let conn ← s.gConnections.lookup ref
    if conn.sendBuf.isEmpty then some (updateEpollEvents k conn.fd false s).2
    else match k.write s.trace.length conn.fd with
      | .wrote m =>
        let sent := min (m + 1) conn.sendBuf.length
        flushLoop k ref n ((s.log (.write conn.fd (conn.sendBuf.take sent))).setConn ref
          { conn with sendBuf := conn.sendBuf.drop sent })
      | .again => some (updateEpollEvents k conn.fd true (s.log (.writeAgain conn.fd))).2
      | .fail => some (closeConnection conn.fd (s.log (.writeFail conn.fd)))

def flushSendBuffer (k : Kernel) (ref : Fd) (s : Server) : Option Server := do
  let conn ← s.gConnections.lookup ref
  if conn.fd < 0 then some s
  else if conn.sendBuf.isEmpty then some (updateEpollEvents k conn.fd false s).2
  else flushLoop k ref conn.sendBuf.length s

def handleClientWrite (k : Kernel) (fd : Fd) (s : Server) : Option Server :=
  match s.gConnections.lookup fd with
  | none => some (closeConnection fd s)
  | some _ => flushSendBuffer k fd s

/-- The kernel hands out free descriptor numbers only. -/
def handleNewConnection (k : Kernel) (s : Server) : Server :=
  match k.accept.filter s.free with
  | none => s
  | some clientFd =>
    let s := s.log (.accept clientFd)
    if s.gConnections.entries.length ≥ maxConnections then s.log (.close clientFd)
    else if !k.setNonblocking clientFd then s.log (.close clientFd)
    else
      let ok := k.epollCtl s.trace.length clientFd
      let s := s.log (.epollAdd clientFd ok)
      if !ok then s.log (.close clientFd)
      else { s with gConnections := s.gConnections.insert clientFd (.ofSocket clientFd) }

def readPacketLength (b0 b1 b2 b3 : UInt8) : UInt32 :=
  b0.toUInt32 ||| (b1.toUInt32 <<< 8) ||| (b2.toUInt32 <<< 16) ||| (b3.toUInt32 <<< 24)

def writePacketLength (len : UInt32) : List UInt8 :=
  [(len &&& 0xFF).toUInt8, ((len >>> 8) &&& 0xFF).toUInt8, ((len >>> 16) &&& 0xFF).toUInt8,
    ((len >>> 24) &&& 0xFF).toUInt8]

/-- `process_packet` for the connection `ref` refers to; `data` is the packet,
so `data_len` is its length. -/
def processPacket (k : Kernel) (ref : Fd) (data : List UInt8) (s : Server) :
    Option (Bool × Server) := do
  let conn ← s.gConnections.lookup ref
  let fd := conn.fd
  let s := s.log (.packet fd data)
  if !conn.registered then
    if data.length ≠ markSize then some (false, s)
    else
      -- the mark is copied before it is looked up, so a rejected connection keeps it
      let conn := { conn with mark := data.take markSize }
      let key := markToKey conn.mark
      let s := s.setConn ref conn
      if (s.gMarkToFd.lookup key).isSome then some (false, s)
      else
        let s := s.setConn ref { conn with registered := true }
        let s := { s with gMarkToFd := s.gMarkToFd.insert key fd }
        some (true, s.log (.register fd conn.mark))
  else if data.length < markSize then some (true, s)
  else match s.gMarkToFd.lookup (markToKey data) with
    | none => some (true, s)
    | some targetFd =>
      let payload := data.drop markSize
      if payload.length > 0 then
        match s.gConnections.lookup targetFd with
        | none => some (true, s)
        | some target => do
          let s := s.setConn targetFd { target with
            sendBuf := target.sendBuf ++ writePacketLength (UInt32.ofNat payload.length) ++ payload }
          let s ← flushSendBuffer k targetFd s
          some (true, s)
      else some (true, s)

/-- The three-part test on a packet length, in 32-bit arithmetic. -/
def illegalLength (packetLen : UInt32) : Bool :=
  packetLen == 0 || packetLen > UInt32.ofNat maxPacketSize ||
    UInt32.ofNat lengthSize + packetLen > UInt32.ofNat bufferSize

/-- The packet loop of `handle_client_data`, on the connection `ref` refers to.
Each round takes at least five bytes off the buffer, so its length bounds the
rounds. -/
def packetLoop (k : Kernel) (ref : Fd) : Nat → Server → Option Server
  | 0, s => some s
  | n + 1, s => do
    let conn ← s.gConnections.lookup ref
    match conn.recvBuf with
    | b0 :: b1 :: b2 :: b3 :: packetData =>
      let packetLen := readPacketLength b0 b1 b2 b3
      if illegalLength packetLen then some (closeConnection ref s)
      else
        let totalLen := UInt32.ofNat lengthSize + packetLen
        if conn.recvBuf.length < totalLen.toNat then some s
        else do
          let (more, s) ← processPacket k ref (packetData.take packetLen.toNat) s
          if !more then some (closeConnection ref s)
          else do
            let conn ← s.gConnections.lookup ref
            packetLoop k ref n (s.setConn ref (conn.consume totalLen.toNat))
    | _ => some s

def handleClientData (k : Kernel) (fd : Fd) (s : Server) : Option Server :=
  match s.gConnections.lookup fd with
  | none => some (closeConnection fd s)
  | some conn =>
    let available := bufferSize - conn.recvBuf.length
    if available = 0 then some (closeConnection fd s)
    else match k.read fd with
      | .bytes b =>
        -- `read()` returns at most the bytes asked for; nothing is end of file
        let b := b.take available
        let s := s.log (.read fd b)
        if b.isEmpty then some (closeConnection fd s)
        else
          let conn := { conn with recvBuf := conn.recvBuf ++ b }
          packetLoop k fd conn.recvBuf.length (s.setConn fd conn)
      | .again => some (s.log (.read fd []))
      | .fail => some (closeConnection fd (s.log (.read fd [])))

/-! ## The event loop -/

/-- One entry of the array `epoll_wait` fills: `errHup` is `EPOLLERR | EPOLLHUP`. -/
structure Event where
  fd : Fd
  errHup : Bool := false
  input : Bool := false
  output : Bool := false
  deriving DecidableEq

/-- The body of the dispatch loop of `main`. -/
def dispatch (k : Kernel) (ev : Event) (s : Server) : Option Server :=
  if ev.fd = s.listenFd then some (handleNewConnection k s)
  else
    (if ev.errHup then some (closeConnection ev.fd s)
      else if ev.input then handleClientData k ev.fd s
      else some s).bind fun s =>
    if ev.output then handleClientWrite k ev.fd s else some s

/-- One step of the server: the next event, and the kernel's answers meanwhile.
Any sequence of batches of `epoll_wait` is a sequence of such steps. -/
def step (i : Kernel × Event) (s : Server) : Option Server := dispatch i.1 i.2 s

/-- The server when it enters the main loop. -/
def start (listenFd epfd : Fd) : Server := { listenFd, epfd }

/-- Reached from the start by some run of the event loop. -/
def Reachable (s : Server) : Prop :=
  ∃ listenFd epfd, Runs.Reachable step (start listenFd epfd) s

end IsaacP2P.Relay
