import IsaacP2P.Client.State

/-!
# The connection manager

The functions of `connection_manager.cpp`. A `Connection&` is the key of its
entry in `m_connections`. The functions that run the connection callback while
they hold a reference or an iterator return `none` where the callback has
invalidated it.
-/

namespace IsaacP2P.Client

variable {υ : Type}

/-! ## Sockets -/

def Manager.nowMs (k : Kernel) (m : Manager) : UInt64 × Manager :=
  let now := k.nowMs m.trace.length
  (now, m.log (.clock now))

/-- `socket()`; the kernel hands out free handles only. -/
def Manager.openSocket (k : Kernel) (m : Manager) : SocketHandle × Manager :=
  let h := k.socket m.trace.length
  if m.free h then (h, m.log (.socket h))
  else (invalidSocketHandle, m.log (.socket invalidSocketHandle))

/-- `send(h, buf.data(), static_cast<int>(buf.size()), 0)` -/
def Manager.send (k : Kernel) (h : SocketHandle) (buf : List UInt8) (m : Manager) :
    Sent × Manager :=
  let len := Int.bmod buf.length (2 ^ 32)
  let r := match k.send m.trace.length h with
    | .sent n => .took (buf.take (min n len.toNat))
    | .again => .again
    | .fail => .fail
  (r, m.log (.send h buf.length len r))

/-- The timeout of 2000 ms is an argument of `select()` only. -/
def connectWithTimeout (k : Kernel) (ip : Text) (m : Manager) : SocketHandle × Manager :=
  let (sock, m) := m.openSocket k
  if sock == invalidSocketHandle then (invalidSocketHandle, m)
  else
    let shake := k.handshake m.trace.length
    if !k.inetPton ip then (invalidSocketHandle, m.closeSocket sock)
    else if shake.connect == .done then (sock, m)
    else if shake.connect != .wouldBlock then (invalidSocketHandle, m.closeSocket sock)
    else if !shake.select then (invalidSocketHandle, m.closeSocket sock)
    else if shake.except then (invalidSocketHandle, m.closeSocket sock)
    else if !shake.getsockopt then (invalidSocketHandle, m.closeSocket sock)
    else if shake.soError != 0 then (invalidSocketHandle, m.closeSocket sock)
    else (sock, m)

/-! ## Set-up -/

def initializeManager (k : Kernel) (m : Manager) : Bool × Manager :=
  if m.mInitialized then (true, m)
  else if !k.startup then (false, m)
  else (true, { m with mInitialized := true })

def stopListen (m : Manager) : Manager :=
  if m.mListenSocket != invalidSocketHandle then
    { m.closeSocket m.mListenSocket with mListenSocket := invalidSocketHandle, mListenPort := 0 }
  else m

def shutdown (m : Manager) : Manager :=
  if !m.mInitialized then m
  else
    let m := stopListen m
    let m := m.mConnections.entries.foldl (fun m e => m.closeSocket e.2.socket) m
    { m with mConnections := ∅, mPendingRemove := [], mInitialized := false }

def listen (k : Kernel) (port : UInt16) (m : Manager) : Bool × Manager :=
  if !m.mInitialized then (false, m)
  else
    let (sock, m) := (stopListen m).openSocket k
    let m := { m with mListenSocket := sock }
    if sock == invalidSocketHandle then (false, m)
    else if !k.bind m.trace.length || !k.listen m.trace.length then
      (false, { m.closeSocket sock with mListenSocket := invalidSocketHandle })
    else (true, { m with mListenPort := port })

def setConnectionCallback (m : Manager) : Manager := { m with mConnectionCallback := true }

def allocatePeerID (m : Manager) : PeerID × Manager :=
  (m.mNextPeerID, { m with mNextPeerID := m.mNextPeerID + 1 })

def setAutoReconnect (peer : PeerID) (enable : Bool) (baseDelayMs maxDelayMs : UInt32)
    (m : Manager) : Manager :=
  match m.mConnections.lookup peer with
  | none => m
  | some conn => m.setConn peer { conn with
      autoReconnect := enable
      reconnectBaseDelayMs := baseDelayMs
      reconnectMaxDelayMs := maxDelayMs
      reconnectAttempt := 0
      nextReconnectAtMs := 0 }

/-! ## Packets -/

def createSendFrame (data : List UInt8) : List UInt8 :=
  let size := UInt32.ofNat data.length
  [(size &&& 0xFF).toUInt8, ((size >>> 8) &&& 0xFF).toUInt8, ((size >>> 16) &&& 0xFF).toUInt8,
    ((size >>> 24) &&& 0xFF).toUInt8] ++ data

/-- `data` is `none` for a null pointer; its length is `size`. -/
def sendPacket (k : Kernel) (peer : PeerID) (data : Option (List UInt8)) (m : Manager) :
    Bool × Manager :=
  match data with
  | none => (false, m)
  | some data =>
    if UInt32.ofNat data.length == 0 then (false, m)
    else match m.mConnections.lookup peer with
    | none => (false, m)
    | some conn =>
      if !conn.connected then (false, m)
      else
        let frame := createSendFrame data
        let (r, m) := (m.log (.packet conn.socket data)).send k conn.socket frame
        match r with
        | .again => (true, m.setConn peer { conn with sendBuffer := conn.sendBuffer ++ frame })
        | .fail => (false, (m.setConn peer { conn with connected := false }).pushPending peer)
        | .took bytes =>
          if bytes.length < frame.length then
            (true, m.setConn peer
              { conn with sendBuffer := conn.sendBuffer ++ frame.drop bytes.length })
          else (true, m)

/-- The first connection with a packet waiting, in the order of the map. -/
def firstWaiting (m : Manager) : Option (UInt32 × PeerID) :=
  m.mConnections.entries.findSome? fun e => (PacketQueue.peek e.2.receiveQueue).map (·, e.1)

/-- `*outSize` and `*outPeerID`, if a packet is available. -/
def isPacketAvailable (peer : PeerID) (m : Manager) : Option (UInt32 × PeerID) :=
  if peer != invalidPeerID then
    match m.mConnections.lookup peer with
    | none => none
    | some conn => (PacketQueue.peek conn.receiveQueue).map (·, peer)
  else firstWaiting m

/-- The packet copied to the buffer and its peer. `buffer` says whether the
pointer is not null. -/
def readPacket (peer : PeerID) (buffer : Bool) (bufferSize : UInt32) (m : Manager) :
    Option (Packet × PeerID) × Manager :=
  if !buffer || bufferSize == 0 then (none, m)
  else
    let source := if peer != invalidPeerID then some peer else (firstWaiting m).map (·.2)
    match source with
    | none => (none, m)
    | some source =>
      match m.mConnections.lookup source with
      | none => (none, m)
      | some conn =>
        match PacketQueue.pop conn.receiveQueue with
        | none => (none, m)
        | some (packet, rest) =>
          let m := m.setConn source { conn with receiveQueue := rest }
          if packet.size > bufferSize then (none, m) else (some (packet, source), m)

def getPeerCount (m : Manager) : UInt32 := UInt32.ofNat m.mConnections.entries.length

/-- The IDs written to `outPeerIDs`; `buffer` says whether the pointer is not null. -/
def getConnectedPeers (buffer : Bool) (maxCount : UInt32) (m : Manager) : List PeerID :=
  if !buffer || maxCount == 0 then []
  else ((m.mConnections.entries.filter (·.2.connected)).map (·.1)).take maxCount.toNat

/-! ## Reading and writing -/

def recvBufferSize : Nat := 65536

/-- The connection is marked for removal. -/
def Manager.drop (peer : PeerID) (conn : Connection) (m : Manager) : Manager :=
  (m.setConn peer { conn with connected := false }).pushPending conn.peerID

/-- The loop of `processRead`, one round for each call of `recv()`. -/
def readLoop (peer : PeerID) : List (List UInt8) → RecvEnd → Connection → Manager → Manager
  | [], .again, _, m => m
  | [], .closed, conn, m => (m.log (.recvEnd conn.socket)).drop peer conn
  | [], .fail, conn, m => (m.log (.recvFail conn.socket)).drop peer conn
  | b :: bs, last, conn, m =>
    let b := b.take recvBufferSize
    if b.isEmpty then (m.log (.recvEnd conn.socket)).drop peer conn
    else
      let m := m.log (.recv conn.socket b)
      let buf := ReceiveBuffer.append b conn.recvBuffer
      let (queue, buf) := ReceiveBuffer.drain buf.length conn.receiveQueue buf
      let m := m.log (.pushed conn.socket (queue.drop conn.receiveQueue.length))
      let conn := { conn with receiveQueue := queue, recvBuffer := buf }
      readLoop peer bs last conn (m.setConn peer conn)

def processRead (k : Kernel) (peer : PeerID) (conn : Connection) (m : Manager) : Manager :=
  let (chunks, last) := k.recv m.trace.length conn.socket
  readLoop peer chunks last conn m

def processWrite (k : Kernel) (peer : PeerID) (conn : Connection) (m : Manager) : Manager :=
  if conn.sendBuffer.isEmpty then m
  else
    let (r, m) := m.send k conn.socket conn.sendBuffer
    match r with
    | .took bytes =>
      if bytes.length > 0 then
        m.setConn peer { conn with sendBuffer := conn.sendBuffer.drop bytes.length }
      else m
    | .again => m
    | .fail => m.drop peer conn

/-! ## Events -/

def notifyConnectionEvent (cb : Callback υ) (k : Kernel) (peer : PeerID) (event : ConnectionEvent)
    (w : World υ) : Option (World υ) :=
  if w.mgr.mConnectionCallback then cb k peer event (w.onMgr (·.log (.notify peer event)))
  else some w

/-- The peer ID stored through `outPeerID`, if the connection was made. -/
def connect (cb : Callback υ) (k : Kernel) (ip : Option Text) (port : UInt16) (w : World υ) :
    Option (Option PeerID × World υ) :=
  match ip with
  | none => some (none, w)
  | some ip =>
    if !w.mgr.mInitialized then some (none, w)
    else
      let (sock, m) := connectWithTimeout k ip w.mgr
      if sock == invalidSocketHandle then some (none, { w with mgr := m })
      else
        let (peer, m) := allocatePeerID m
        let m := m.emplace peer
          { socket := sock, peerID := peer, remoteIP := ip, remotePort := port, connected := true }
        (notifyConnectionEvent cb k peer .connected { w with mgr := m }).map (some peer, ·)

/-- `conn.nextReconnectAtMs = nowMs() + conn.reconnectBaseDelayMs` after a loss. -/
def scheduleReconnect (k : Kernel) (peer : PeerID) (conn : Connection) (m : Manager) : Manager :=
  let (now, m) := m.nowMs k
  m.setConn peer { conn with
    reconnectAttempt := 0
    nextReconnectAtMs := now + conn.reconnectBaseDelayMs.toUInt64 }

/-- `m` has an entry that `old` had not. -/
def Manager.entered (old m : Manager) : Bool :=
  m.mConnections.keys.any (· ∉ old.mConnections.keys)

/-- What follows the notification of a loss: the entry is kept for a reconnect,
or erased. A connection entered since the manager was `old`, from the callback, may
have the map rehashed, which invalidates the iterator given to `erase`. -/
def afterLoss (k : Kernel) (peer : PeerID) (old : Manager) (w : World υ) : Option (World υ) := do
  let conn ← w.mgr.mConnections.lookup peer
  if conn.autoReconnect then some (w.onMgr (scheduleReconnect k peer conn))
  else if old.entered w.mgr then none
  else some (w.onMgr (·.erase peer))

def disconnect (cb : Callback υ) (k : Kernel) (peer : PeerID) (w : World υ) : Option (World υ) :=
  match w.mgr.mConnections.lookup peer with
  | none => some w
  | some conn => do
    let w' ← notifyConnectionEvent cb k peer .disconnected
      (w.onMgr fun m => (m.closeSocket conn.socket).setConn peer conn.down)
    afterLoss k peer w.mgr w'

/-- The rounds of `removeDisconnected`. A `push_back` by the callback
invalidates the iterators of the loop over `m_pendingRemove`. -/
def removeLoop (cb : Callback υ) (k : Kernel) : List PeerID → World υ → Option (World υ)
  | [], w => some w
  | peer :: rest, w =>
    match w.mgr.mConnections.lookup peer with
    | none => removeLoop cb k rest w
    | some conn => do
      let w' ← notifyConnectionEvent cb k peer .disconnected
        (w.onMgr fun m => (m.closeSocket conn.socket).setConn peer conn.down)
      if w'.mgr.mPendingRemove != w.mgr.mPendingRemove then none
      else do
        let w' ← afterLoss k peer w.mgr w'
        removeLoop cb k rest w'

def removeDisconnected (cb : Callback υ) (k : Kernel) (w : World υ) : Option (World υ) := do
  let ids := (w.mgr.mPendingRemove.insertionSort (· ≤ ·)).destutter (· ≠ ·)
  let w ← removeLoop cb k ids (w.onMgr fun m => { m with mPendingRemove := ids })
  some (w.onMgr fun m => { m with mPendingRemove := [] })

/-- The doubling loop of `attemptReconnects`, `attempt` rounds at most. -/
def backoffDelay (maxDelay : UInt64) : Nat → UInt64 → UInt64
  | 0, delay => delay
  | attempt + 1, delay =>
    let delay := delay * 2
    if delay ≥ maxDelay then maxDelay else backoffDelay maxDelay attempt delay

/-- A failed attempt: it is counted, and the next one scheduled. -/
def retryLater (peer : PeerID) (conn : Connection) (now : UInt64) (m : Manager) : Manager :=
  let attempt := conn.reconnectAttempt
  let delay := backoffDelay conn.reconnectMaxDelayMs.toUInt64 attempt.toNat
    conn.reconnectBaseDelayMs.toUInt64
  m.setConn peer { conn with
    reconnectAttempt := if attempt == 0xFFFFFFFF then attempt else attempt + 1
    nextReconnectAtMs := now + delay }

/-- The four tests that skip an entry. -/
def Connection.reconnectDue (conn : Connection) (now : UInt64) : Bool :=
  conn.autoReconnect && !conn.connected && !(conn.remoteIP.isEmpty || conn.remotePort == 0) &&
    !(conn.nextReconnectAtMs == 0 || now < conn.nextReconnectAtMs)

/-- The rounds of `attemptReconnects`. Entering or erasing entries from the
callback invalidates the iterators of the loop over `m_connections`. -/
def reconnectLoop (cb : Callback υ) (k : Kernel) (now : UInt64) :
    List PeerID → World υ → Option (World υ)
  | [], w => some w
  | peer :: rest, w => do
    let conn ← w.mgr.mConnections.lookup peer
    if !conn.reconnectDue now then reconnectLoop cb k now rest w
    else
      let (sock, m) := connectWithTimeout k conn.remoteIP w.mgr
      if sock != invalidSocketHandle then
        let m := m.setConn peer { conn with
          socket := sock, connected := true, reconnectAttempt := 0, nextReconnectAtMs := 0 }
        let w' ← notifyConnectionEvent cb k peer .connected { w with mgr := m }
        if w'.mgr.mConnections.keys != w.mgr.mConnections.keys then none
        else reconnectLoop cb k now rest w'
      else reconnectLoop cb k now rest { w with mgr := retryLater peer conn now m }

def attemptReconnects (cb : Callback υ) (k : Kernel) (w : World υ) : Option (World υ) :=
  let (now, m) := w.mgr.nowMs k
  reconnectLoop cb k now m.mConnections.keys { w with mgr := m }

/-- The loop of `acceptNewConnections`, one round for each connection accepted. -/
def acceptLoop (cb : Callback υ) (k : Kernel) :
    List (SocketHandle × Text × UInt16) → World υ → Option (World υ)
  | [], w => some w
  | (clientSocket, ip, port) :: rest, w =>
    if w.mgr.mListenSocket == invalidSocketHandle || !w.mgr.free clientSocket then some w
    else do
      let (peer, m) := allocatePeerID (w.mgr.log (.accept clientSocket))
      let m := m.emplace peer
        { socket := clientSocket, peerID := peer, remoteIP := ip, remotePort := port,
          connected := true }
      let w ← notifyConnectionEvent cb k peer .connected { w with mgr := m }
      acceptLoop cb k rest w

def acceptNewConnections (cb : Callback υ) (k : Kernel) (w : World υ) : Option (World υ) :=
  if w.mgr.mListenSocket == invalidSocketHandle then some w
  else acceptLoop cb k (k.accept w.mgr.trace.length) w

/-- `FD_SETSIZE`; `FD_SET` on a full set does nothing. -/
def fdSetSize : Nat := 64

/-- The sockets of the live connections that `p` holds of, as far as they fit into an `fd_set`. -/
def fdSet (p : Connection → Bool) (m : Manager) : List SocketHandle :=
  ((m.mConnections.entries.filter fun e =>
    e.2.socket != invalidSocketHandle && e.2.connected && p e.2).map (·.2.socket)).take fdSetSize

/-- The `fd_set`s of one call of `select()` and what it left in them. -/
structure Polled where
  readSet : List SocketHandle
  writeSet : List SocketHandle
  selected : Selected

/-- `FD_ISSET` after the call. -/
def Polled.excepted (p : Polled) (h : SocketHandle) : Bool :=
  p.readSet.contains h && p.selected.excepted h

def Polled.readable (p : Polled) (h : SocketHandle) : Bool :=
  p.readSet.contains h && p.selected.readable h

def Polled.writable (p : Polled) (h : SocketHandle) : Bool :=
  p.writeSet.contains h && p.selected.writable h

/-- One round of the loop over the connections after `select()`. -/
def serveConnection (k : Kernel) (p : Polled) (m : Manager) (peer : PeerID) : Manager :=
  match m.mConnections.lookup peer with
  | none => m
  | some conn =>
    if conn.socket == invalidSocketHandle || !conn.connected then m
    else if p.excepted conn.socket then
      ((m.log (.except conn.socket)).setConn peer { conn with connected := false }).pushPending peer
    else
      let m := if p.readable conn.socket then processRead k peer conn m else m
      if p.writable conn.socket then
        match m.mConnections.lookup peer with
        | none => m
        | some conn => processWrite k peer conn m
      else m

def processEvents (cb : Callback υ) (k : Kernel) (w : World υ) : Option (World υ) :=
  if !w.mgr.mInitialized then some w
  else do
    let w ← attemptReconnects cb k w
    let w ← acceptNewConnections cb k w
    let readSet := fdSet (fun _ => true) w.mgr
    let writeSet := fdSet (fun conn => !conn.sendBuffer.isEmpty) w.mgr
    let maxFd := (w.mgr.mConnections.entries.filter fun e =>
      e.2.socket != invalidSocketHandle && e.2.connected).foldl (fun fd e => max fd e.2.socket) 0
    if maxFd == 0 then do
      let w ← removeDisconnected cb k w
      attemptReconnects cb k w
    else do
      let p : Polled := { readSet, writeSet, selected := k.select w.mgr.trace.length }
      let w := w.onMgr (·.log .select)
      let w := if p.selected.result then
          w.onMgr fun m => m.mConnections.keys.foldl (serveConnection k p) m
        else w
      let w ← removeDisconnected cb k w
      attemptReconnects cb k w

end IsaacP2P.Client
