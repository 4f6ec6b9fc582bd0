import IsaacP2P.Client.Manager

/-!
# The C interface of the library

The functions of `p2p_network.cpp`. `g_manager` is null exactly while the
manager is not initialised: `P2P_Init` drops a manager it could not initialise,
and `P2P_Shutdown` drops the one it shut down. A null `g_manager` is the fresh
manager here, with the trace so far.
-/

namespace IsaacP2P.Client

variable {υ : Type}

inductive P2PResult where
  | ok
  | errorNotInitialized
  | errorAlreadyInitialized
  | errorInvalidPeer
  | errorConnectionFailed
  | errorSendFailed
  | errorBufferTooSmall
  | errorNoPacket
  | errorSocketError
  | errorInvalidParam
  | errorListenFailed
  deriving DecidableEq

/-- The application's `P2PConnectionCallback`. -/
abbrev UserCallback (υ : Type) := Kernel → PeerID → Bool → World υ → Option (World υ)

def internalConnectionCallback (user : UserCallback υ) : Callback υ := fun k peer event w =>
  if w.gUserCallback then user k peer (event == .connected) w else some w

def p2pInit (k : Kernel) (w : World υ) : P2PResult × World υ :=
  if w.mgr.mInitialized then (.errorAlreadyInitialized, w)
  else
    let (done, m) := initializeManager k { trace := w.mgr.trace }
    if !done then (.errorSocketError, w) else (.ok, { w with mgr := setConnectionCallback m })

def p2pShutdown (w : World υ) : World υ :=
  { w with mgr := { trace := (shutdown w.mgr).trace }, gUserCallback := false }

def p2pListen (k : Kernel) (port : UInt16) (w : World υ) : P2PResult × World υ :=
  if !w.mgr.mInitialized then (.errorNotInitialized, w)
  else
    let (done, m) := listen k port w.mgr
    (if !done then .errorListenFailed else .ok, { w with mgr := m })

def p2pStopListen (w : World υ) : World υ := w.onMgr stopListen

/-- The result and `*outPeerID`, which is stored on success only. `out` says
whether the pointer is not null. -/
def p2pConnect (user : UserCallback υ) (k : Kernel) (ip : Option Text) (port : UInt16) (out : Bool)
    (w : World υ) : Option (P2PResult × Option PeerID × World υ) :=
  if !w.mgr.mInitialized then some (.errorNotInitialized, none, w)
  else if ip.isNone || !out then some (.errorInvalidParam, none, w)
  else do
    let (peer, w) ← connect (internalConnectionCallback user) k ip port w
    match peer with
    | none => some (.errorConnectionFailed, none, w)
    | some peer => some (.ok, some peer, w)

def p2pSetAutoReconnect (peer : PeerID) (enable : Bool) (baseDelayMs maxDelayMs : UInt32)
    (w : World υ) : World υ :=
  if !w.mgr.mInitialized || peer == invalidPeerID then w
  else w.onMgr (setAutoReconnect peer enable baseDelayMs maxDelayMs)

def p2pDisconnect (user : UserCallback υ) (k : Kernel) (peer : PeerID) (w : World υ) :
    Option (World υ) :=
  if peer != invalidPeerID then disconnect (internalConnectionCallback user) k peer w else some w

def p2pSendPacket (k : Kernel) (peer : PeerID) (data : Option (List UInt8)) (w : World υ) :
    P2PResult × World υ :=
  if !w.mgr.mInitialized then (.errorNotInitialized, w)
  else if peer == invalidPeerID then (.errorInvalidPeer, w)
  else
    match data with
    | none => (.errorInvalidParam, w)
    | some bytes =>
      if UInt32.ofNat bytes.length == 0 then (.errorInvalidParam, w)
      else
        let (done, m) := sendPacket k peer data w.mgr
        (if !done then .errorSendFailed else .ok, { w with mgr := m })

def p2pIsPacketAvailable (peer : PeerID) (w : World υ) : Option (UInt32 × PeerID) :=
  if !w.mgr.mInitialized then none else isPacketAvailable peer w.mgr

/-- The result, and on success the packet copied to the buffer and its peer. -/
def p2pReadPacket (peer : PeerID) (buffer : Bool) (bufferSize : UInt32) (w : World υ) :
    P2PResult × Option (Packet × PeerID) × World υ :=
  if !w.mgr.mInitialized then (.errorNotInitialized, none, w)
  else if !buffer || bufferSize == 0 then (.errorInvalidParam, none, w)
  else
    match isPacketAvailable peer w.mgr with
    | none => (.errorNoPacket, none, w)
    | some (packetSize, _) =>
      if packetSize > bufferSize then (.errorBufferTooSmall, none, w)
      else
        let (packet, m) := readPacket peer buffer bufferSize w.mgr
        (if packet.isNone then .errorNoPacket else .ok, packet, { w with mgr := m })

def p2pRunCallbacks (user : UserCallback υ) (k : Kernel) (w : World υ) : Option (World υ) :=
  if w.mgr.mInitialized then processEvents (internalConnectionCallback user) k w else some w

def p2pSetConnectionCallback (w : World υ) : World υ := { w with gUserCallback := true }

def p2pGetPeerCount (w : World υ) : UInt32 :=
  if !w.mgr.mInitialized then 0 else getPeerCount w.mgr

def p2pGetConnectedPeers (buffer : Bool) (maxCount : UInt32) (w : World υ) : List PeerID :=
  if !w.mgr.mInitialized then [] else getConnectedPeers buffer maxCount w.mgr

end IsaacP2P.Client
