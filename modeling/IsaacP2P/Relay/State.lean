import IsaacP2P.Lib.AssocList
import IsaacP2P.Lib.LengthPrefixed
import Mathlib.Data.UInt

/-!
# The state of the relay server

`Server` holds the two global maps of `server/main.cpp` and the trace of what
the process did so far, newest event first. The kernel's side of the sockets
is read off the trace: which descriptors are open (`isOpen`), which bytes
`write()` has accepted on a descriptor since it was opened (`written`), which
bytes `read()` has returned (`consumed`).

`handled`, `markOf` and `forwarded` read the relay's contract off the same
trace: the packets `process_packet` was called with, the mark a descriptor is
registered under, and the frames a registered connection is owed.
-/

namespace IsaacP2P.Relay

open LengthPrefixed (frame)

abbrev Fd := Int

def maxConnections : Nat := 4
def bufferSize : Nat := 65536
def maxPacketSize : Nat := 65535
def lengthSize : Nat := 4
def markSize : Nat := 8

/-- `struct Connection`. `recvBuf` is the received part `recv_buf[0 .. recv_len)`
of the array, so `recv_len` is its length. -/
structure Connection where
  fd : Fd := -1
  mark : List UInt8 := List.replicate markSize 0
  registered : Bool := false
  sendBuf : List UInt8 := []
  recvBuf : List UInt8 := []
  deriving DecidableEq

/-- `explicit Connection(int socket_fd)`. -/
def Connection.ofSocket (socketFd : Fd) : Connection := { fd := socketFd }

def Connection.consume (c : Connection) (len : Nat) : Connection :=
  if len ≥ c.recvBuf.length then { c with recvBuf := [] }
  else { c with recvBuf := c.recvBuf.drop len }

theorem Connection.consume_eq (c : Connection) (len : Nat) :
    c.consume len = { c with recvBuf := c.recvBuf.drop len } := by
  unfold Connection.consume
  split
  · rename_i h
    rw [List.drop_eq_nil_of_le h]
  · rfl

/-- The eight bytes of a mark copied into a `uint64_t`. -/
def markToKey (mark : List UInt8) : UInt64 :=
  UInt64.ofNat (LittleEndian.decode (mark.take markSize))

theorem markToKey_take (mark : List UInt8) : markToKey (mark.take markSize) = markToKey mark := by
  rw [markToKey, markToKey, List.take_take, Nat.min_self]

theorem markToKey_inj {m m' : List UInt8} (hm : m.length = markSize) (hm' : m'.length = markSize)
    (h : markToKey m = markToKey m') : m = m' := by
  have h1 := LittleEndian.decode_lt m
  have h2 := LittleEndian.decode_lt m'
  simp only [hm, hm', markSize] at h1 h2
  have e := congrArg UInt64.toNat h
  simp only [markToKey, markSize] at e hm hm'
  rw [List.take_of_length_le (by omega), List.take_of_length_le (by omega), UInt64.toNat_ofNat',
    UInt64.toNat_ofNat', Nat.mod_eq_of_lt (by omega), Nat.mod_eq_of_lt (by omega)] at e
  exact LittleEndian.decode_inj (by omega) e

/-! ## The trace -/

/-- What the process does, as far as the other side of a system call or its own
log can see it. -/
inductive Ev where
  /-- `accept()` returned `fd`. -/
  | accept (fd : Fd)
  | epollAdd (fd : Fd) (ok : Bool)
  | epollMod (fd : Fd) (wantWrite ok : Bool)
  | epollDel (fd : Fd)
  | close (fd : Fd)
  /-- `read()` returned these bytes; none at end of file, on `EAGAIN` and on an error. -/
  | read (fd : Fd) (bytes : List UInt8)
  /-- `write()` accepted these bytes. -/
  | write (fd : Fd) (bytes : List UInt8)
  | writeAgain (fd : Fd)
  | writeFail (fd : Fd)
  /-- `process_packet` was entered for the connection of `fd`. -/
  | packet (fd : Fd) (data : List UInt8)
  /-- The connection of `fd` was registered under `mark`. -/
  | register (fd : Fd) (mark : List UInt8)
  deriving DecidableEq

/-- The descriptor was accepted and has not been closed since. -/
def isOpen (f : Fd) : List Ev → Bool
  | [] => false
  | .accept g :: tr => if g = f then true else isOpen f tr
  | .close g :: tr => if g = f then false else isOpen f tr
  | _ :: tr => isOpen f tr

/-- How often the descriptor number was handed out by `accept()`. -/
def incarnation (f : Fd) : List Ev → Nat
  | [] => 0
  | .accept g :: tr => if g = f then incarnation f tr + 1 else incarnation f tr
  | _ :: tr => incarnation f tr

/-- The bytes `write()` accepted on the descriptor since it was last accepted. -/
def written (f : Fd) : List Ev → List UInt8
  | [] => []
  | .accept g :: tr => if g = f then [] else written f tr
  | .write g bytes :: tr => if g = f then written f tr ++ bytes else written f tr
  | _ :: tr => written f tr

/-- The bytes `read()` returned on the descriptor since it was last accepted. -/
def consumed (f : Fd) : List Ev → List UInt8
  | [] => []
  | .accept g :: tr => if g = f then [] else consumed f tr
  | .read g bytes :: tr => if g = f then consumed f tr ++ bytes else consumed f tr
  | _ :: tr => consumed f tr

/-- The packets `process_packet` was called with for the connection of the
descriptor since it was last accepted, in the order of the calls. -/
def handled (f : Fd) : List Ev → List (List UInt8)
  | [] => []
  | .accept g :: tr => if g = f then [] else handled f tr
  | .packet g data :: tr => if g = f then handled f tr ++ [data] else handled f tr
  | _ :: tr => handled f tr

/-- All calls of `process_packet`, in order. -/
def packets : List Ev → List (Fd × List UInt8)
  | [] => []
  | .packet f data :: tr => packets tr ++ [(f, data)]
  | _ :: tr => packets tr

/-- The mark the connection of the descriptor is registered under. -/
def markOf (f : Fd) : List Ev → Option (List UInt8)
  | [] => none
  | .accept g :: tr => if g = f then none else markOf f tr
  | .close g :: tr => if g = f then none else markOf f tr
  | .register g mark :: tr => if g = f then some mark else markOf f tr
  | _ :: tr => markOf f tr

/-- The frame a packet `[mark][p]` with `p` non-empty puts into the stream of
the connection registered under `mark`. -/
def frameFor (mark data : List UInt8) : List UInt8 :=
  if data.take markSize = mark ∧ data.drop markSize ≠ [] then frame (data.drop markSize) else []

/-- **The relay's contract for one connection**: the frames, in the order of the
`process_packet` calls, of exactly those packets `[mark of t][p]` with `p`
non-empty that a registered connection had processed while `t` was registered. -/
def forwarded (t : Fd) : List Ev → List UInt8
  | [] => []
  | .accept g :: tr => if g = t then [] else forwarded t tr
  | .packet a data :: tr =>
    match markOf a tr, markOf t tr with
    | some _, some mark => forwarded t tr ++ frameFor mark data
    | _, _ => forwarded t tr
  | _ :: tr => forwarded t tr

/-! ## The server -/

structure Server where
  listenFd : Fd
  epfd : Fd
  /-- fd -> Connection -/
  gConnections : AList fun _ : Fd => Connection := ∅
  /-- mark -> fd -/
  gMarkToFd : AList fun _ : UInt64 => Fd := ∅
  /-- Newest event first. -/
  trace : List Ev := []

namespace Server

def log (e : Ev) (s : Server) : Server := { s with trace := e :: s.trace }

def logs (new : List Ev) (s : Server) : Server := { s with trace := new ++ s.trace }

/-- Assign through a reference into `g_connections`. -/
def setConn (ref : Fd) (c : Connection) (s : Server) : Server :=
  { s with gConnections := s.gConnections.replace ref c }

/-- A descriptor number the kernel may hand out. -/
def free (s : Server) (f : Fd) : Bool :=
  decide (0 ≤ f) && !(f == s.listenFd) && !(f == s.epfd) && !isOpen f s.trace

@[simp] theorem log_gConnections (e : Ev) (s : Server) :
    (s.log e).gConnections = s.gConnections := rfl
@[simp] theorem log_gMarkToFd (e : Ev) (s : Server) : (s.log e).gMarkToFd = s.gMarkToFd := rfl
@[simp] theorem log_trace (e : Ev) (s : Server) : (s.log e).trace = e :: s.trace := rfl
@[simp] theorem log_listenFd (e : Ev) (s : Server) : (s.log e).listenFd = s.listenFd := rfl
@[simp] theorem log_epfd (e : Ev) (s : Server) : (s.log e).epfd = s.epfd := rfl

@[simp] theorem logs_gConnections (new : List Ev) (s : Server) :
    (s.logs new).gConnections = s.gConnections := rfl
@[simp] theorem logs_gMarkToFd (new : List Ev) (s : Server) :
    (s.logs new).gMarkToFd = s.gMarkToFd := rfl
@[simp] theorem logs_trace (new : List Ev) (s : Server) :
    (s.logs new).trace = new ++ s.trace := rfl
@[simp] theorem logs_listenFd (new : List Ev) (s : Server) :
    (s.logs new).listenFd = s.listenFd := rfl
@[simp] theorem logs_epfd (new : List Ev) (s : Server) : (s.logs new).epfd = s.epfd := rfl
@[simp] theorem logs_nil (s : Server) : s.logs [] = s := rfl

@[simp] theorem setConn_gConnections (ref : Fd) (c : Connection) (s : Server) :
    (s.setConn ref c).gConnections = s.gConnections.replace ref c := rfl
@[simp] theorem setConn_gMarkToFd (ref : Fd) (c : Connection) (s : Server) :
    (s.setConn ref c).gMarkToFd = s.gMarkToFd := rfl
@[simp] theorem setConn_trace (ref : Fd) (c : Connection) (s : Server) :
    (s.setConn ref c).trace = s.trace := rfl
@[simp] theorem setConn_listenFd (ref : Fd) (c : Connection) (s : Server) :
    (s.setConn ref c).listenFd = s.listenFd := rfl
@[simp] theorem setConn_epfd (ref : Fd) (c : Connection) (s : Server) :
    (s.setConn ref c).epfd = s.epfd := rfl

theorem setConn_self {ref : Fd} {c : Connection} {s : Server}
    (h : s.gConnections.lookup ref = some c) : s.setConn ref c = s := by
  rw [setConn, AssocList.replace_self h]

@[simp] theorem setConn_setConn (ref : Fd) (c c' : Connection) (s : Server) :
    (s.setConn ref c).setConn ref c' = s.setConn ref c' := by
  simp only [setConn, AssocList.replace_replace]

theorem setConn_lookup_self {ref : Fd} {c c' : Connection} {s : Server}
    (h : s.gConnections.lookup ref = some c) :
    (s.setConn ref c').gConnections.lookup ref = some c' :=
  AssocList.lookup_replace_self _ (AssocList.mem_of_lookup h)

end Server

/-! ## The kernel -/

/-- `read()`: some bytes (none at end of file), `EAGAIN`, or another error. -/
inductive ReadResult where
  | bytes (b : List UInt8)
  | again
  | fail

/-- `write()`: it accepted `n + 1` bytes or all there are, `EAGAIN`, or another
error. -/
inductive WriteResult where
  | wrote (n : Nat)
  | again
  | fail
  deriving DecidableEq

/-- What the kernel answers to the system calls made while one event is
dispatched. The calls that may be made several times get the length of the
trace at the call, which tells one call from the next. -/
structure Kernel where
  accept : Option Fd := none
  setNonblocking : Fd → Bool := fun _ => true
  epollCtl : Nat → Fd → Bool := fun _ _ => true
  read : Fd → ReadResult := fun _ => .again
  write : Nat → Fd → WriteResult := fun _ _ => .again

end IsaacP2P.Relay
