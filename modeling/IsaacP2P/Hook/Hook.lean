import IsaacP2P.Client.Network
import IsaacP2P.Lib.Runs

/-!
# The hook

The functions of `hook/hook.cpp`, over the client library whose application the
hook is. The original functions of the Steam interface have no effect on the
state modelled here; the hook overwrites or discards what they return, but for
the result of `SendP2PPacket`, which it hands on.

`step` is one atomic step of the injected process: of the injection thread, of
the pump thread, of the game through the hooked table, or of `DllMain`.
-/

namespace IsaacP2P.Hook

open Client

abbrev CSteamID := UInt64

/-- The eight bytes `memcpy` takes out of a `CSteamID`. -/
def steamIDBytes (id : CSteamID) : List UInt8 := LittleEndian.encode 8 id.toNat

/-- The `CSteamID` that `memcpy` fills with eight bytes. -/
def steamIDOf (bytes : List UInt8) : CSteamID := UInt64.ofNat (LittleEndian.decode bytes)

inductive Injection where
  | waiting
  | hooked
  | identified
  | done
  deriving DecidableEq

/-- What the hook did, as far as the game or the relay can tell. -/
inductive Ev where
  /-- `ConnectionCallback` was called for a new link, while `g_localSteamID` was `id`. -/
  | up (peer : PeerID) (id : CSteamID)
  | down (peer : PeerID)
  /-- `InjectionThread` handed over its registration packet. -/
  | registration (id : CSteamID)
  /-- `Hook_ReadP2PPacket` returned true: the ID stored and the bytes copied. -/
  | read (id : CSteamID) (bytes : List UInt8)
  deriving DecidableEq

structure Globals where
  gConnectedPeer : PeerID := invalidPeerID
  gStopPumpThread : Bool := false
  gTcpRecvBuffer : List UInt8 := []
  gHasTcpData : Bool := false
  gTcpRecvSteamID : CSteamID := 0
  gLocalSteamID : CSteamID := 0
  /-- The object's table pointer is `g_pNewVTable`. -/
  tableHooked : Bool := false
  injection : Injection := .waiting
  /-- Newest event first. -/
  log : List Ev := []
  deriving DecidableEq

abbrev Process := World Globals

def onHook (f : Globals → Globals) (w : Process) : Process := { w with user := f w.user }

@[simp] theorem onHook_mgr (f : Globals → Globals) (w : Process) : (onHook f w).mgr = w.mgr := rfl
@[simp] theorem onHook_user (f : Globals → Globals) (w : Process) : (onHook f w).user = f w.user := rfl
@[simp] theorem onHook_gUserCallback (f : Globals → Globals) (w : Process) :
    (onHook f w).gUserCallback = w.gUserCallback := rfl

def Globals.note (e : Ev) (s : Globals) : Globals := { s with log := e :: s.log }

/-- `memcpy(buf + off, src, n)`; writing behind the end of `buf` is undefined. -/
def memcpy (buf : List UInt8) (off : Nat) (src : List UInt8) : Option (List UInt8) :=
  if buf.length < off + src.length then none
  else some (buf.take off ++ src ++ buf.drop (off + src.length))

/-! ## The connection -/

def connectionCallback : UserCallback Globals := fun k peer connected w =>
  if connected then
    let id := w.user.gLocalSteamID
    let w := onHook (fun s => { s with gConnectedPeer := peer }.note (.up peer id)) w
    if id != 0 then some (p2pSendPacket k peer (some (steamIDBytes id)) w).2
    else some w
  else
    let w := onHook (·.note (.down peer)) w
    if w.user.gConnectedPeer == peer then
      some (onHook (fun s => { s with gConnectedPeer := invalidPeerID }) w)
    else some w

/-! ## The hooked functions -/

/-- The staging part of `Hook_IsP2PPacketAvailable`, entered while nothing is staged. -/
def stagePacket (w : Process) : Process :=
  match p2pIsPacketAvailable invalidPeerID w with
  | none => w
  | some (size, peer) =>
    match p2pReadPacket peer (size != 0) size w with
    | (.ok, some (packet, _), w) =>
      if packet.size ≥ 8 then
        onHook (fun s => { s with
          gTcpRecvSteamID := steamIDOf (packet.take 8)
          gTcpRecvBuffer := packet.drop 8
          gHasTcpData := true }) w
      else w
    | (_, _, w) => w

/-- The result, and the size stored if it is true. -/
def hookIsP2PPacketAvailable (k : Kernel) (w : Process) : Option (Option UInt32 × Process) := do
  let w ← p2pRunCallbacks connectionCallback k w
  let w := if !w.user.gHasTcpData then stagePacket w else w
  if w.user.gHasTcpData then some (some (UInt32.ofNat w.user.gTcpRecvBuffer.length), w)
  else some (none, w)

/-- What `Hook_ReadP2PPacket` stores through its pointers. -/
structure ReadResult where
  /-- The bytes copied to `pubDest`. -/
  copied : List UInt8
  /-- `*pcubMsgSize` -/
  size : UInt32
  /-- `*psteamIDRemote` -/
  steamID : CSteamID
  deriving DecidableEq

/-- `pubDest` says whether the pointer is not null; `cubDest` is never looked at. -/
def hookReadP2PPacket (pubDest : Bool) (_cubDest : UInt32) (w : Process) :
    Option ReadResult × Process :=
  if w.user.gHasTcpData then
    let copySize := UInt32.ofNat w.user.gTcpRecvBuffer.length
    let r : ReadResult :=
      { copied := if pubDest && copySize > 0 then w.user.gTcpRecvBuffer.take copySize.toNat else []
        size := copySize
        steamID := w.user.gTcpRecvSteamID }
    (some r, onHook (fun s =>
      { s with gHasTcpData := false, gTcpRecvBuffer := [], gTcpRecvSteamID := 0 }.note
        (.read r.steamID r.copied)) w)
  else (none, w)

/-- The buffer `Hook_SendP2PPacket` builds: target, sender, data. `src` is what
`pubData` points to, `none` for a null pointer. -/
def sendBufferFor (steamIDRemote localSteamID : CSteamID) (src : Option (List UInt8))
    (cubData : UInt32) : Option (List UInt8) := do
  let totalSize : UInt32 := 8 + 8 + cubData
  let sendBuffer := List.replicate totalSize.toNat 0
  let sendBuffer ← memcpy sendBuffer 0 (steamIDBytes steamIDRemote)
  let sendBuffer ← memcpy sendBuffer 8 (steamIDBytes localSteamID)
  match src with
  | none => some sendBuffer
  | some src =>
    if cubData = 0 then some sendBuffer
    else if src.length < cubData.toNat then none
    else memcpy sendBuffer 16 (src.take cubData.toNat)

def hookSendP2PPacket (k : Kernel) (steamIDRemote : CSteamID) (pubData : Option (List UInt8))
    (cubData : UInt32) (w : Process) : Option Process :=
  let targetPeer := w.user.gConnectedPeer
  if targetPeer != invalidPeerID then do
    let sendBuffer ← sendBufferFor steamIDRemote w.user.gLocalSteamID pubData cubData
    some (p2pSendPacket k targetPeer (some sendBuffer) w).2
  else some w

/-! ## The process -/

inductive Input where
  /-- `InjectionThread`: `HookVTable`, which succeeds or not. -/
  | hookVTable (ok : Bool)
  /-- `InjectionThread`: `g_localSteamID` is set to what `GetLocalSteamID` returns. -/
  | identify (id : CSteamID)
  /-- `InjectionThread`: the registration packet is handed over. -/
  | register
  /-- `PumpThread`: one round. -/
  | pump
  /-- The game calls through the hooked table. -/
  | isAvailable
  | read (pubDest : Bool) (cubDest : UInt32)
  | send (steamIDRemote : CSteamID) (pubData : Option (List UInt8)) (cubData : UInt32)
  /-- `DllMain` with `DLL_PROCESS_DETACH`. -/
  | detach

/-- `DllMain` with `DLL_PROCESS_ATTACH`, up to the start of the threads; `ip`
and `port` are what `LoadConfig` left. Without the library there is no hook. -/
def attach (k : Kernel) (ip : Text) (port : UInt16) : Option Process := do
  let (r, w) := p2pInit k { user := ({} : Globals) }
  if r != .ok then none
  else do
    let (r, peer, w) ← p2pConnect connectionCallback k (some ip) port true
      (p2pSetConnectionCallback w)
    match r, peer with
    | .ok, some peer =>
      let w := onHook (fun s => { s with gConnectedPeer := peer }) w
      some (p2pSetAutoReconnect peer true 500 (10 * 1000) w)
    | _, _ => some w

/-- The connection is given up for good. -/
def hangUp (k : Kernel) (w : Process) : Option Process :=
  if w.user.gConnectedPeer != invalidPeerID then do
    let w := p2pSetAutoReconnect w.user.gConnectedPeer false 0 0 w
    let w ← p2pDisconnect connectionCallback k w.user.gConnectedPeer w
    some (onHook (fun s => { s with gConnectedPeer := invalidPeerID }) w)
  else some w

/-- `DllMain` with `DLL_PROCESS_DETACH`. -/
def detach (k : Kernel) (w : Process) : Option Process := do
  let w ← hangUp k w
  some (p2pShutdown (onHook (fun s => { s with gStopPumpThread := true, tableHooked := false }) w))

/-- The last step of `InjectionThread`: the registration packet is handed over. -/
def register (k : Kernel) (w : Process) : Process :=
  let id := w.user.gLocalSteamID
  let w := onHook (fun s => { s with injection := .done }.note (.registration id)) w
  (p2pSendPacket k w.user.gConnectedPeer (some (steamIDBytes id)) w).2

/-- One step; `none` if it cannot be taken there, or is undefined. -/
def step (i : Kernel × Input) (w : Process) : Option Process :=
  match i.2 with
  | .hookVTable ok =>
    if w.user.injection = .waiting then
      some (onHook (fun s => { s with injection := .hooked, tableHooked := ok }) w)
    else none
  | .identify id =>
    if w.user.injection = .hooked then
      some (onHook (fun s => { s with injection := .identified, gLocalSteamID := id }) w)
    else none
  | .register =>
    if w.user.injection = .identified then some (register i.1 w) else none
  | .pump =>
    if !w.user.gStopPumpThread then p2pRunCallbacks connectionCallback i.1 w else none
  | .isAvailable =>
    if w.user.tableHooked then (hookIsP2PPacketAvailable i.1 w).map (·.2) else none
  | .read pubDest cubDest =>
    if w.user.tableHooked then some (hookReadP2PPacket pubDest cubDest w).2 else none
  | .send steamIDRemote pubData cubData =>
    if w.user.tableHooked then hookSendP2PPacket i.1 steamIDRemote pubData cubData w else none
  | .detach => detach i.1 w

end IsaacP2P.Hook
