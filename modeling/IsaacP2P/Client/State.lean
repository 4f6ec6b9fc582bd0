import IsaacP2P.Client.PacketQueue
import IsaacP2P.Lib.AssocList
import Mathlib.Data.List.Destutter
import Mathlib.Data.List.Sort

/-!
# The state of the client library

`Manager` holds the members of `ConnectionManager` and the trace of what the
library did so far, newest event first. The kernel's side of the sockets is read
off the trace: which handles are open (`isOpen`), which bytes `send()` has
accepted on a handle since it was opened (`sent`), which bytes `recv()` has
returned (`received`).

`framed` and `arrived` read the library's own doings off the same trace: the
packets `sendPacket` made frames of, and the packets pushed to the receive
queue.

A `World` is the manager with the rest of the process: `υ` is the state of the
application whose connection callback the library calls.
-/

namespace IsaacP2P.Client

abbrev PeerID := UInt32

/-- `P2P_INVALID_PEER_ID` -/
def invalidPeerID : PeerID := 0

abbrev SocketHandle := UInt64

/-- `INVALID_SOCKET_HANDLE`, all bits set -/
def invalidSocketHandle : SocketHandle := 0xFFFFFFFFFFFFFFFF

/-- The characters of a C string. -/
abbrev Text := List Char

structure Connection where
  socket : SocketHandle := invalidSocketHandle
  peerID : PeerID := invalidPeerID
  remoteIP : Text := []
  remotePort : UInt16 := 0
  connected : Bool := false
  autoReconnect : Bool := false
  reconnectBaseDelayMs : UInt32 := 500
  reconnectMaxDelayMs : UInt32 := 10 * 1000
  reconnectAttempt : UInt32 := 0
  nextReconnectAtMs : UInt64 := 0
  receiveQueue : PacketQueue := []
  recvBuffer : ReceiveBuffer := []
  sendBuffer : List UInt8 := []
  deriving DecidableEq

/-- What `disconnect` and `removeDisconnected` leave of a connection before they
notify the application. -/
def Connection.down (c : Connection) : Connection :=
  { c with
    socket := invalidSocketHandle
    connected := false
    recvBuffer := []
    receiveQueue := []
    sendBuffer := [] }

inductive ConnectionEvent where
  | connected
  | disconnected
  deriving DecidableEq

/-! ## The trace -/

/-- What `send()` did with the bytes offered. -/
inductive Sent where
  | took (bytes : List UInt8)
  | again
  | fail
  deriving DecidableEq

inductive Ev where
  /-- A reading of the steady clock, in milliseconds. -/
  | clock (now : UInt64)
  /-- `socket()` returned `h`. -/
  | socket (h : SocketHandle)
  | accept (h : SocketHandle)
  | close (h : SocketHandle)
  /-- `sendPacket` made a frame of `data` for the connection on `h`. -/
  | packet (h : SocketHandle) (data : List UInt8)
  /-- `send()` was called on a buffer of `size` bytes with the length argument `len`. -/
  | send (h : SocketHandle) (size : Nat) (len : Int) (r : Sent)
  | select
  /-- `select()` reported an exception on `h`. -/
  | except (h : SocketHandle)
  /-- `recv()` returned these bytes. -/
  | recv (h : SocketHandle) (bytes : List UInt8)
  /-- These packets were pushed to the receive queue of the connection on `h`. -/
  | pushed (h : SocketHandle) (packets : List Packet)
  /-- `recv()` returned 0. -/
  | recvEnd (h : SocketHandle)
  | recvFail (h : SocketHandle)
  /-- The connection callback was called. -/
  | notify (peer : PeerID) (event : ConnectionEvent)
  deriving DecidableEq

/-- The handle was obtained and has not been closed since. -/
def isOpen (h : SocketHandle) : List Ev → Bool
  | [] => false
  | .socket g :: tr => if g = h then true else isOpen h tr
  | .accept g :: tr => if g = h then true else isOpen h tr
  | .close g :: tr => if g = h then false else isOpen h tr
  | _ :: tr => isOpen h tr

/-- The bytes `send()` accepted on the handle since it was obtained. -/
def sent (h : SocketHandle) : List Ev → List UInt8
  | [] => []
  | .socket g :: tr => if g = h then [] else sent h tr
  | .accept g :: tr => if g = h then [] else sent h tr
  | .send g _ _ (.took bytes) :: tr => if g = h then sent h tr ++ bytes else sent h tr
  | _ :: tr => sent h tr

/-- The packets `sendPacket` made frames of for the handle since it was obtained. -/
def framed (h : SocketHandle) : List Ev → List Packet
  | [] => []
  | .socket g :: tr => if g = h then [] else framed h tr
  | .accept g :: tr => if g = h then [] else framed h tr
  | .packet g data :: tr => if g = h then framed h tr ++ [data] else framed h tr
  | _ :: tr => framed h tr

/-- The bytes `recv()` returned on the handle since it was obtained. -/
def received (h : SocketHandle) : List Ev → List UInt8
  | [] => []
  | .socket g :: tr => if g = h then [] else received h tr
  | .accept g :: tr => if g = h then [] else received h tr
  | .recv g bytes :: tr => if g = h then received h tr ++ bytes else received h tr
  | _ :: tr => received h tr

/-- The packets parsed out of them, in order. -/
def arrived (h : SocketHandle) : List Ev → List Packet
  | [] => []
  | .socket g :: tr => if g = h then [] else arrived h tr
  | .accept g :: tr => if g = h then [] else arrived h tr
  | .pushed g packets :: tr => if g = h then arrived h tr ++ packets else arrived h tr
  | _ :: tr => arrived h tr

/-! ## The manager -/

/-- `ConnectionManager`. The member `m_connectionCallback` is a parameter of the
functions that call it; `mConnectionCallback` says whether it is set. -/
structure Manager where
  mInitialized : Bool := false
  mListenSocket : SocketHandle := invalidSocketHandle
  mListenPort : UInt16 := 0
  mNextPeerID : PeerID := 1
  mConnections : AList fun _ : PeerID => Connection := ∅
  mPendingRemove : List PeerID := []
  mConnectionCallback : Bool := false
  /-- Newest event first. -/
  trace : List Ev := []

namespace Manager

def log (e : Ev) (m : Manager) : Manager := { m with trace := e :: m.trace }

/-- Assign through a reference into `m_connections`. -/
def setConn (peer : PeerID) (c : Connection) (m : Manager) : Manager :=
  { m with mConnections := m.mConnections.replace peer c }

/-- `m_connections.emplace`: an entry that is there stays. -/
def emplace (peer : PeerID) (c : Connection) (m : Manager) : Manager :=
  if peer ∈ m.mConnections then m else { m with mConnections := m.mConnections.insert peer c }

def erase (peer : PeerID) (m : Manager) : Manager :=
  { m with mConnections := m.mConnections.erase peer }

/-- `m_pendingRemove.push_back` -/
def pushPending (peer : PeerID) (m : Manager) : Manager :=
  { m with mPendingRemove := m.mPendingRemove ++ [peer] }

def closeSocket (h : SocketHandle) (m : Manager) : Manager :=
  if h != invalidSocketHandle then m.log (.close h) else m

/-- A handle the kernel may hand out. -/
def free (m : Manager) (h : SocketHandle) : Bool :=
  h != invalidSocketHandle && !isOpen h m.trace

@[simp] theorem log_mInitialized (e : Ev) (m : Manager) :
    (m.log e).mInitialized = m.mInitialized := rfl
@[simp] theorem log_mListenSocket (e : Ev) (m : Manager) :
    (m.log e).mListenSocket = m.mListenSocket := rfl
@[simp] theorem log_mConnections (e : Ev) (m : Manager) :
    (m.log e).mConnections = m.mConnections := rfl
@[simp] theorem log_mPendingRemove (e : Ev) (m : Manager) :
    (m.log e).mPendingRemove = m.mPendingRemove := rfl
@[simp] theorem log_mConnectionCallback (e : Ev) (m : Manager) :
    (m.log e).mConnectionCallback = m.mConnectionCallback := rfl
@[simp] theorem log_trace (e : Ev) (m : Manager) : (m.log e).trace = e :: m.trace := rfl

@[simp] theorem setConn_mInitialized (peer : PeerID) (c : Connection) (m : Manager) :
    (m.setConn peer c).mInitialized = m.mInitialized := rfl
@[simp] theorem setConn_mListenSocket (peer : PeerID) (c : Connection) (m : Manager) :
    (m.setConn peer c).mListenSocket = m.mListenSocket := rfl
@[simp] theorem setConn_mConnections (peer : PeerID) (c : Connection) (m : Manager) :
    (m.setConn peer c).mConnections = m.mConnections.replace peer c := rfl
@[simp] theorem setConn_mPendingRemove (peer : PeerID) (c : Connection) (m : Manager) :
    (m.setConn peer c).mPendingRemove = m.mPendingRemove := rfl
@[simp] theorem setConn_mConnectionCallback (peer : PeerID) (c : Connection) (m : Manager) :
    (m.setConn peer c).mConnectionCallback = m.mConnectionCallback := rfl
@[simp] theorem setConn_trace (peer : PeerID) (c : Connection) (m : Manager) :
    (m.setConn peer c).trace = m.trace := rfl

@[simp] theorem erase_mConnections (peer : PeerID) (m : Manager) :
    (m.erase peer).mConnections = m.mConnections.erase peer := rfl
@[simp] theorem erase_trace (peer : PeerID) (m : Manager) : (m.erase peer).trace = m.trace := rfl

@[simp] theorem pushPending_mInitialized (peer : PeerID) (m : Manager) :
    (m.pushPending peer).mInitialized = m.mInitialized := rfl
@[simp] theorem pushPending_mListenSocket (peer : PeerID) (m : Manager) :
    (m.pushPending peer).mListenSocket = m.mListenSocket := rfl
@[simp] theorem pushPending_mConnections (peer : PeerID) (m : Manager) :
    (m.pushPending peer).mConnections = m.mConnections := rfl
@[simp] theorem pushPending_mConnectionCallback (peer : PeerID) (m : Manager) :
    (m.pushPending peer).mConnectionCallback = m.mConnectionCallback := rfl
@[simp] theorem pushPending_trace (peer : PeerID) (m : Manager) :
    (m.pushPending peer).trace = m.trace := rfl

@[simp] theorem closeSocket_mInitialized (h : SocketHandle) (m : Manager) :
    (m.closeSocket h).mInitialized = m.mInitialized := by
  unfold closeSocket
  split <;> rfl
@[simp] theorem closeSocket_mListenSocket (h : SocketHandle) (m : Manager) :
    (m.closeSocket h).mListenSocket = m.mListenSocket := by
  unfold closeSocket
  split <;> rfl
@[simp] theorem closeSocket_mConnections (h : SocketHandle) (m : Manager) :
    (m.closeSocket h).mConnections = m.mConnections := by
  unfold closeSocket
  split <;> rfl
@[simp] theorem closeSocket_mPendingRemove (h : SocketHandle) (m : Manager) :
    (m.closeSocket h).mPendingRemove = m.mPendingRemove := by
  unfold closeSocket
  split <;> rfl
@[simp] theorem closeSocket_mConnectionCallback (h : SocketHandle) (m : Manager) :
    (m.closeSocket h).mConnectionCallback = m.mConnectionCallback := by
  unfold closeSocket
  split <;> rfl

@[simp] theorem setConn_setConn (peer : PeerID) (c c' : Connection) (m : Manager) :
    (m.setConn peer c).setConn peer c' = m.setConn peer c' := by
  simp only [setConn, AssocList.replace_replace]

theorem setConn_self {peer : PeerID} {c : Connection} {m : Manager}
    (h : m.mConnections.lookup peer = some c) : m.setConn peer c = m := by
  rw [setConn, AssocList.replace_self h]

theorem setConn_lookup_self {peer : PeerID} {c c' : Connection} {m : Manager}
    (h : m.mConnections.lookup peer = some c) :
    (m.setConn peer c').mConnections.lookup peer = some c' :=
  AssocList.lookup_replace_self _ (AssocList.mem_of_lookup h)

theorem setConn_lookup_some {peer p : PeerID} {c c' d : Connection} {m : Manager}
    (h : m.mConnections.lookup peer = some c)
    (hd : (m.setConn peer c').mConnections.lookup p = some d) :
    (p = peer ∧ d = c') ∨ (p ≠ peer ∧ m.mConnections.lookup p = some d) := by
  rw [setConn_mConnections, AssocList.lookup_replace h] at hd
  by_cases hp : p = peer
  · rw [if_pos hp] at hd
    cases hd
    exact .inl ⟨hp, rfl⟩
  · rw [if_neg hp] at hd
    exact .inr ⟨hp, hd⟩

end Manager

/-! ## The kernel and the application -/

/-- `send()`: it accepted `n` bytes or all there are, would block, or failed. -/
inductive SendResult where
  | sent (n : Nat)
  | again
  | fail
  deriving DecidableEq

/-- How a sequence of calls of `recv()` ends. -/
inductive RecvEnd where
  | closed
  | again
  | fail
  deriving DecidableEq

/-- `connect()` on a non-blocking socket. -/
inductive ConnectResult where
  | done
  | wouldBlock
  | fail
  deriving DecidableEq

/-- The calls `connectWithTimeout` makes on a fresh socket. -/
structure Handshake where
  connect : ConnectResult := .done
  /-- `select()` returned a positive number. -/
  select : Bool := true
  except : Bool := false
  getsockopt : Bool := true
  soError : Int := 0
  deriving DecidableEq

/-- What the zero-timeout `select()` of `processEvents` reports. -/
structure Selected where
  /-- It returned a positive number. -/
  result : Bool := true
  readable : SocketHandle → Bool := fun _ => false
  writable : SocketHandle → Bool := fun _ => false
  excepted : SocketHandle → Bool := fun _ => false

/-- What the operating system answers to the calls made during one step. Each
answer may depend on the length of the trace at the call, which tells one call
from the next. -/
structure Kernel where
  startup : Bool := true
  nowMs : Nat → UInt64 := fun _ => 0
  socket : Nat → SocketHandle := fun _ => invalidSocketHandle
  inetPton : Text → Bool := fun _ => true
  handshake : Nat → Handshake := fun _ => {}
  bind : Nat → Bool := fun _ => true
  listen : Nat → Bool := fun _ => true
  /-- The connections `accept()` returns until it fails, with the addresses they come from. -/
  accept : Nat → List (SocketHandle × Text × UInt16) := fun _ => []
  select : Nat → Selected := fun _ => {}
  /-- The bytes `recv()` returns, call by call, and how it ends. -/
  recv : Nat → SocketHandle → List (List UInt8) × RecvEnd := fun _ _ => ([], .again)
  send : Nat → SocketHandle → SendResult := fun _ _ => .again

structure World (υ : Type) where
  mgr : Manager := {}
  /-- `g_userCallback` of `p2p_network.cpp` is set. -/
  gUserCallback : Bool := false
  user : υ

variable {υ : Type}

def World.onMgr (f : Manager → Manager) (w : World υ) : World υ := { w with mgr := f w.mgr }

@[simp] theorem World.onMgr_mgr (f : Manager → Manager) (w : World υ) :
    (w.onMgr f).mgr = f w.mgr := rfl
@[simp] theorem World.onMgr_user (f : Manager → Manager) (w : World υ) :
    (w.onMgr f).user = w.user := rfl
@[simp] theorem World.onMgr_gUserCallback (f : Manager → Manager) (w : World υ) :
    (w.onMgr f).gUserCallback = w.gUserCallback := rfl

/-- The application's reaction to a connection event; `none` is undefined behaviour. -/
abbrev Callback (υ : Type) := Kernel → PeerID → ConnectionEvent → World υ → Option (World υ)

end IsaacP2P.Client
