import IsaacP2P.Lib.FilledArray
import IsaacP2P.Relay.Intake
import Mathlib.Logic.Function.Basic

/-!
# The receive buffers as arrays

`Relay.Connection` holds the bytes received and nothing else of `recv_buf`. Here
the array of `BUFFER_SIZE` bytes is kept whole, with `recv_len`, and the functions
that use it are the ones of `Relay.Server` with every access made explicit: an
access to bytes that are not received, a length that exceeds 32 bits, a packet
loop without end and a connection that was erased are faults.

The machine over the arrays does what the server does, and the one fault it comes
upon is the last, where the server has no next state (`stepAt_matches`).
-/

namespace IsaacP2P.Relay

open LengthPrefixed (next)

/-- `recv_buf` and `recv_len`. -/
abbrev RecvBuf := FilledArray UInt8 bufferSize

inductive Fault where
  /-- Bytes of `recv_buf` are used that are not received. -/
  | outside
  /-- `LENGTH_SIZE + packet_len` exceeds 32 bits. -/
  | wraps
  /-- The packet loop goes on after as many rounds as there were bytes. -/
  | rounds
  /-- A reference to an erased connection is used. -/
  | dangling
  deriving DecidableEq

def orFault {α : Type} (f : Fault) : Option α → Except Fault α
  | some x => .ok x
  | none => .error f

/-- `read_packet_length(conn.recv_buf)`. -/
def packetLengthAt (buf : RecvBuf) : Except Fault UInt32 := do
  let b0 ← orFault .outside (buf.get 0)
  let b1 ← orFault .outside (buf.get 1)
  let b2 ← orFault .outside (buf.get 2)
  let b3 ← orFault .outside (buf.get 3)
  .ok (readPacketLength b0 b1 b2 b3)

/-- `LENGTH_SIZE + packet_len`. -/
def totalLength (packetLen : UInt32) : Except Fault UInt32 :=
  if lengthSize + packetLen.toNat < 2 ^ 32 then .ok (UInt32.ofNat lengthSize + packetLen)
  else .error .wraps

/-- The three-part test; the sum is evaluated if the first two parts fail. -/
def illegalLengthAt (packetLen : UInt32) : Except Fault Bool :=
  if packetLen == 0 || packetLen > UInt32.ofNat maxPacketSize then .ok true
  else do
    let totalLen ← totalLength packetLen
    .ok (totalLen > UInt32.ofNat bufferSize)

/-- `process_packet` on the `dataLen` bytes of the array from `data` on. -/
def processPacketAt (k : Kernel) (ref : Fd) (buf : RecvBuf) (data dataLen : Nat) (s : Server) :
    Except Fault (Bool × Server) := do
  let conn ← orFault .dangling (s.gConnections.lookup ref)
  let fd := conn.fd
  let s := s.log (.packet fd ((buf.contents.drop data).take dataLen))
  if !conn.registered then
    if dataLen ≠ markSize then .ok (false, s)
    else do
      let mark ← orFault .outside (buf.slice data markSize)
      let conn := { conn with mark := mark }
      let key := markToKey conn.mark
      let s := s.setConn ref conn
      if (s.gMarkToFd.lookup key).isSome then .ok (false, s)
      else
        let s := s.setConn ref { conn with registered := true }
        let s := { s with gMarkToFd := s.gMarkToFd.insert key fd }
        .ok (true, s.log (.register fd conn.mark))
  else if dataLen < markSize then .ok (true, s)
  else do
    let targetMark ← orFault .outside (buf.slice data markSize)
    match s.gMarkToFd.lookup (markToKey targetMark) with
    | none => .ok (true, s)
    | some targetFd =>
      let payloadLen := dataLen - markSize
      if payloadLen > 0 then
        match s.gConnections.lookup targetFd with
        | none => .ok (true, s)
        | some target => do
          let payload ← orFault .outside (buf.slice (data + markSize) payloadLen)
          let s := s.setConn targetFd { target with
            sendBuf := target.sendBuf ++ writePacketLength (UInt32.ofNat payloadLen) ++ payload }
          let s ← orFault .dangling (flushSendBuffer k targetFd s)
          .ok (true, s)
      else .ok (true, s)

/-- `Connection::consume`. -/
def consumeAt (len : Nat) (buf : RecvBuf) : Except Fault RecvBuf :=
  if len ≥ buf.len then .ok (buf.truncate 0)
  else do
    let moved ← orFault .outside (buf.move 0 len (buf.len - len))
    .ok (moved.truncate (buf.len - len))

/-- The packet loop. The entry of the connection follows the array. -/
def packetLoopAt (k : Kernel) (ref : Fd) : Nat → Server → RecvBuf → Except Fault (Server × RecvBuf)
  | 0, _, _ => .error .rounds
  | n + 1, s, buf =>
    if buf.len < lengthSize then .ok (s, buf)
    else do
      let packetLen ← packetLengthAt buf
      let illegal ← illegalLengthAt packetLen
      if illegal then .ok (closeConnection ref s, buf)
      else do
        let totalLen ← totalLength packetLen
        if buf.len < totalLen.toNat then .ok (s, buf)
        else do
          let (more, s) ← processPacketAt k ref buf lengthSize packetLen.toNat s
          if !more then .ok (closeConnection ref s, buf)
          else do
            let conn ← orFault .dangling (s.gConnections.lookup ref)
            let buf ← consumeAt totalLen.toNat buf
            packetLoopAt k ref n (s.setConn ref { conn with recvBuf := buf.contents }) buf

/-- The server, and the array of every connection. -/
structure Machine where
  server : Server
  recvBufs : Fd → RecvBuf

/-- `read()` stores behind the bytes received, as many as fit at most. -/
def handleClientDataAt (k : Kernel) (fd : Fd) (mc : Machine) : Except Fault Machine :=
  match mc.server.gConnections.lookup fd with
  | none => .ok { mc with server := closeConnection fd mc.server }
  | some conn =>
    let available := bufferSize - (mc.recvBufs fd).len
    if available = 0 then .ok { mc with server := closeConnection fd mc.server }
    else match k.read fd with
      | .bytes b =>
        let b := b.take available
        let s := mc.server.log (.read fd b)
        if b.isEmpty then .ok { mc with server := closeConnection fd s }
        else do
          let buf := (mc.recvBufs fd).fill b
          let (s, buf) ← packetLoopAt k fd (buf.len + 1)
            (s.setConn fd { conn with recvBuf := buf.contents }) buf
          .ok { server := s, recvBufs := Function.update mc.recvBufs fd buf }
      | .again => .ok { mc with server := mc.server.log (.read fd []) }
      | .fail => .ok { mc with server := closeConnection fd (mc.server.log (.read fd [])) }

/-- The constructor of `Connection` zeroes the array of the new connection. -/
def handleNewConnectionAt (k : Kernel) (mc : Machine) : Machine where
  server := handleNewConnection k mc.server
  recvBufs := match k.accept.filter mc.server.free with
    | none => mc.recvBufs
    | some clientFd => Function.update mc.recvBufs clientFd (.blank bufferSize 0)

def dispatchAt (k : Kernel) (ev : Event) (mc : Machine) : Except Fault Machine :=
  if ev.fd = mc.server.listenFd then .ok (handleNewConnectionAt k mc)
  else
    (if ev.errHup then .ok { mc with server := closeConnection ev.fd mc.server }
      else if ev.input then handleClientDataAt k ev.fd mc
      else .ok mc) >>= fun mc =>
    if ev.output then do
      let s ← orFault .dangling (handleClientWrite k ev.fd mc.server)
      .ok { mc with server := s }
    else .ok mc

def stepAt (i : Kernel × Event) (mc : Machine) : Except Fault Machine := dispatchAt i.1 i.2 mc

/-- No connection, so the arrays do not matter yet. -/
def startAt (listenFd epfd : Fd) : Machine where
  server := start listenFd epfd
  recvBufs _ := .blank bufferSize 0

/-- Reached from the start without a fault. -/
def ReachableAt (mc : Machine) : Prop :=
  ∃ listenFd epfd, Runs.Reachable (fun i mc => (stepAt i mc).toOption) (startAt listenFd epfd) mc

variable {k : Kernel} {s : Server} {ref fd : Fd} {c : Connection} {buf : RecvBuf} {n : Nat}
  {mc : Machine}

/-! ## The accesses -/

theorem packetLengthAt_eq {b0 b1 b2 b3 : UInt8} {data : List UInt8}
    (h : buf.contents = b0 :: b1 :: b2 :: b3 :: data) :
    packetLengthAt buf = .ok (readPacketLength b0 b1 b2 b3) := by
  simp only [packetLengthAt, FilledArray.get_eq, h]
  rfl

/-- The sum does not wrap where it is evaluated. -/
theorem illegalLengthAt_eq (packetLen : UInt32) :
    illegalLengthAt packetLen = .ok (illegalLength packetLen) := by
  unfold illegalLengthAt illegalLength
  cases hfirst : packetLen == 0 || packetLen > UInt32.ofNat maxPacketSize with
  | true => rfl
  | false =>
    have hmax : packetLen.toNat ≤ maxPacketSize := by
      simp only [Bool.or_eq_false_iff, decide_eq_false_iff_not, gt_iff_lt,
        UInt32.lt_iff_toNat_lt] at hfirst
      exact Nat.not_lt.mp hfirst.2
    have hfits : lengthSize + packetLen.toNat < 2 ^ 32 := by
      simp only [maxPacketSize, lengthSize] at *
      omega
    rw [totalLength, if_pos hfits]
    rfl

theorem totalLength_eq {packetLen : UInt32} (h : illegalLength packetLen = false) :
    totalLength packetLen = .ok (UInt32.ofNat lengthSize + packetLen) := by
  have hlegal : ¬ (packetLen.toNat = 0 ∨ maxPayload < packetLen.toNat) := by
    rw [← illegalLength_iff, h]
    exact Bool.false_ne_true
  apply if_pos
  simp only [maxPayload, lengthSize] at *
  omega

theorem consumeAt_eq (len : Nat) (buf : RecvBuf) :
    ∃ buf', consumeAt len buf = .ok buf' ∧ buf'.contents = buf.contents.drop len := by
  unfold consumeAt
  split
  · refine ⟨_, rfl, ?_⟩
    rw [FilledArray.contents_truncate, List.take_zero, List.drop_eq_nil_of_le (by simpa)]
  · obtain ⟨moved, hmove, -, hfront⟩ := buf.move_front (n := len) (by omega)
    refine ⟨moved.truncate (buf.len - len), ?_, ?_⟩
    · rw [hmove]
      rfl
    · rw [FilledArray.contents_truncate, hfront]

/-! ## The code over the arrays -/

theorem processPacketAt_eq (h : lengthSize + n ≤ buf.len) :
    processPacketAt k ref buf lengthSize n s =
      orFault .dangling (processPacket k ref ((buf.contents.drop lengthSize).take n) s) := by
  have hlen : ((buf.contents.drop lengthSize).take n).length = n := by
    rw [List.length_take, List.length_drop, FilledArray.length_contents]
    omega
  have hmark (hn : markSize ≤ n) := FilledArray.slice_take h hn
  have hpayload (hn : markSize ≤ n) := FilledArray.slice_drop h hn
  unfold processPacketAt processPacket
  generalize (buf.contents.drop lengthSize).take n = data at hlen hmark hpayload
  cases hc : s.gConnections.lookup ref with
  | none => rfl
  | some c =>
    cases hr : c.registered with
    | false =>
      by_cases hn : n = markSize
      · have hslice := hmark (by omega)
        simp only [orFault, hr, hlen, hn, hslice, Option.bind_some,
          bind, Except.bind, Bool.not_false, if_true, ne_eq, not_true_eq_false, if_false]
        split <;> rfl
      · simp [orFault, hr, hlen, hn, bind, Except.bind]
    | true =>
      by_cases hn : n < markSize
      · simp [orFault, hr, hlen, hn, bind, Except.bind]
      · have hslice := hmark (by omega)
        have hrest := hpayload (by omega)
        -- the code of the arrays looks the copied mark up
        have hkey : s.gMarkToFd.lookup (markToKey (data.take markSize)) =
            s.gMarkToFd.lookup (markToKey data) := by rw [markToKey_take]
        simp only [orFault, hr, hlen, hn, hslice, hkey, Option.bind_some,
          bind, Except.bind, Bool.not_true, Bool.false_eq_true, if_false,
          List.length_drop, Server.log_gMarkToFd, Server.log_gConnections]
        cases s.gMarkToFd.lookup (markToKey data) with
        | none => rfl
        | some t =>
          by_cases hp : n - markSize > 0
          · simp only [hp, if_true]
            cases ht : s.gConnections.lookup t with
            | none => rfl
            | some target =>
              simp only [hrest]
              generalize flushSendBuffer k t _ = r
              cases r <;> rfl
          · simp only [hp, if_false]

/-! ## The refinement -/

/-- The machine goes on as the server does, and comes upon an erased connection
where the server has no next state. -/
inductive Matches {α β : Type} (R : α → β → Prop) : Except Fault α → Option β → Prop where
  | ok {a : α} {b : β} : R a b → Matches R (.ok a) (some b)
  | dangling : Matches R (.error .dangling) none

theorem Matches.bind {α β γ δ : Type} {R : α → β → Prop} {S : γ → δ → Prop}
    {x : Except Fault α} {y : Option β} {f : α → Except Fault γ} {g : β → Option δ}
    (h : Matches R x y) (hf : ∀ a b, R a b → Matches S (f a) (g b)) :
    Matches S (x >>= f) (y.bind g) := by
  cases h with
  | ok hab => exact hf _ _ hab
  | dangling => exact .dangling

theorem Matches.mono {α β : Type} {R S : α → β → Prop} {x : Except Fault α} {y : Option β}
    (h : Matches R x y) (hRS : ∀ a b, y = some b → R a b → S a b) : Matches S x y := by
  cases h with
  | ok hab => exact .ok (hRS _ _ rfl hab)
  | dangling => exact .dangling

/-- One round of the packet loop, told by what is at the head of the array. -/
theorem packetLoopAt_succ (k : Kernel) (ref : Fd) (n : Nat) (s : Server) (buf : RecvBuf) :
    packetLoopAt k ref (n + 1) s buf = (match next maxPayload buf.contents with
      | .wait => .ok (s, buf)
      | .bad => .ok (closeConnection ref s, buf)
      | .item p _ => orFault .dangling (processPacket k ref p s) >>= fun (more, s) =>
        if !more then .ok (closeConnection ref s, buf)
        else orFault .dangling (s.gConnections.lookup ref) >>= fun conn =>
          consumeAt (lengthSize + p.length) buf >>= fun buf =>
            packetLoopAt k ref n (s.setConn ref { conn with recvBuf := buf.contents }) buf) := by
  have hlen := buf.length_contents
  rw [packetLoopAt]
  match hb : buf.contents with
  | b0 :: b1 :: b2 :: b3 :: data =>
    rw [hb, List.length_cons, List.length_cons, List.length_cons, List.length_cons] at hlen
    have hn := toNat_readPacketLength b0 b1 b2 b3
    have hbad := illegalLength_iff (readPacketLength b0 b1 b2 b3)
    rw [if_neg (by simp only [lengthSize]; omega), packetLengthAt_eq hb]
    simp only [next, bind, Except.bind, illegalLengthAt_eq]
    rw [hn] at hbad
    by_cases hlegal : LittleEndian.decode [b0, b1, b2, b3] = 0 ∨
        maxPayload < LittleEndian.decode [b0, b1, b2, b3]
    · rw [if_pos hlegal, if_pos (hbad.mpr hlegal)]
    · have htotal := toNat_lengthSize_add (n := readPacketLength b0 b1 b2 b3) (by omega)
      have hgood : illegalLength (readPacketLength b0 b1 b2 b3) = false := by
        rw [← Bool.not_eq_true, hbad]
        exact hlegal
      rw [if_neg hlegal, hgood, totalLength_eq hgood]
      simp only [htotal, hn, Bool.false_eq_true, if_false]
      by_cases hshort : data.length < LittleEndian.decode [b0, b1, b2, b3]
      · rw [if_pos (by simp only [lengthSize]; omega), if_pos hshort]
      · rw [if_neg (by simp only [lengthSize]; omega), if_neg hshort,
          processPacketAt_eq (by simp only [lengthSize]; omega), hb]
        simp only [List.length_take, Nat.min_eq_left (Nat.not_lt.mp hshort), lengthSize]
        rfl
  | [] | [_] | [_, _] | [_, _, _] =>
    rw [hb] at hlen
    exact if_pos (by simp [← hlen, lengthSize])

/-- The array holds what the entry of its connection says was received. -/
def Follows (s : Server) (ref : Fd) (buf : RecvBuf) : Prop :=
  ∀ c, s.gConnections.lookup ref = some c → buf.contents = c.recvBuf

theorem Follows.of_lookup (hc : s.gConnections.lookup ref = some c)
    (hbuf : buf.contents = c.recvBuf) : Follows s ref buf := by
  intro d hd
  rw [hc] at hd
  cases hd
  exact hbuf

theorem Follows.closed (ref : Fd) (s : Server) (buf : RecvBuf) :
    Follows (closeConnection ref s) ref buf := by
  intro d hd
  exact absurd rfl (closeConnection_lookup_some hd).1

/-- **The packet loop on the array is the packet loop of the server**, and as many
rounds as there are bytes are enough. -/
theorem packetLoopAt_matches (hi : Inv s) (hc : s.gConnections.lookup ref = some c)
    (hbuf : buf.contents = c.recvBuf) (hn : buf.len ≤ n) :
    Matches (fun r s' => r.1 = s' ∧ Follows s' ref r.2) (packetLoopAt k ref (n + 1) s buf)
      (packetLoop k ref n s) := by
  induction n generalizing s c buf with
  | zero =>
    have he : c.recvBuf = [] := by
      rw [← hbuf, ← List.length_eq_zero_iff, FilledArray.length_contents]
      omega
    rw [packetLoopAt_succ, hbuf, he]
    exact .ok ⟨rfl, .of_lookup hc hbuf⟩
  | succ n ih =>
    rw [packetLoopAt_succ, packetLoop_succ hc, hbuf]
    cases hnext : next maxPayload c.recvBuf with
    | wait => exact .ok ⟨rfl, .of_lookup hc hbuf⟩
    | bad => exact .ok ⟨rfl, .closed ref s buf⟩
    | item p rest =>
      obtain ⟨more, m, hp, ho⟩ := processPacket_outcome k p hi hc
      simp only [hp]
      cases more with
      | false => exact .ok ⟨rfl, .closed ref m buf⟩
      | true =>
        cases hc' : m.gConnections.lookup ref with
        | none =>
          simp only [orFault, bind, Except.bind, Bool.not_true, Bool.false_eq_true, if_false, hc',
            Option.bind_some, Option.bind_none]
          exact .dangling
        | some c' =>
          obtain ⟨buf', hconsume, hcontents⟩ := consumeAt_eq (lengthSize + p.length) buf
          have hrest : buf'.contents = rest := by
            rw [hcontents, hbuf, (LengthPrefixed.next_item hnext).1, List.drop_left']
            rw [LengthPrefixed.length_frame, lengthSize]
          have hshort : buf'.len ≤ n := by
            have := length_item_lt hnext
            rw [← FilledArray.length_contents, hrest]
            rw [← FilledArray.length_contents, hbuf] at hn
            omega
          simp only [orFault, bind, Except.bind, Bool.not_true, Bool.false_eq_true, if_false, hc',
            Option.bind_some, hconsume, hrest, consume_item hnext (ho.kept_ref hc hc').1]
          exact ih ((ho.inv hi hc).setRecv hc' rest) (Server.setConn_lookup_self hc') hrest hshort

/-! ## The machine -/

def Agrees (mc : Machine) : Prop := ∀ f, Follows mc.server f (mc.recvBufs f)

theorem Touched.follows {ps : List (List UInt8)} {new : List Ev} {s' : Server}
    (h : Touched ref ps new s s') (hb : Follows s ref buf) : Follows s' ref buf := by
  intro c' hc'
  cases h with
  | absent _ h1 => rw [hc'] at h1; cases h1
  | removed _ _ h1 _ => rw [hc'] at h1; cases h1
  | kept h0 h1 _ _ _ hrecv _ _ _ =>
    rw [hc'] at h1
    cases h1
    rw [hrecv]
    exact hb _ h0

theorem Follows.closeConnection (hb : Follows s ref buf) (f : Fd) :
    Follows (closeConnection f s) ref buf := by
  intro c hc
  exact hb c (closeConnection_lookup_some hc).2

theorem Writes.follows {s' : Server} (h : Writes k fd s s') (hb : Follows s ref buf) :
    Follows s' ref buf := by
  cases h with
  | unknown _ => exact hb.closeConnection fd
  | flushed hc _ =>
    intro c' hc'
    rw [flushedState_lookup hc] at hc'
    split at hc'
    · split at hc'
      · cases hc'
      · subst_vars
        cases hc'
        have := hb _ hc
        exact this
    · exact hb _ hc'

/-- The receive of one connection uses no other array. -/
theorem handleClientDataAt_matches_at (k : Kernel) (fd : Fd) (hi : Inv mc.server) (ha : Agrees mc) :
    Matches (fun mc' s' => mc'.server = s' ∧ Follows s' fd (mc'.recvBufs fd) ∧
        ∀ g, g ≠ fd → mc'.recvBufs g = mc.recvBufs g)
      (handleClientDataAt k fd mc) (handleClientData k fd mc.server) := by
  have hclose : ∀ s : Server, Matches (fun mc' s' => mc'.server = s' ∧
      Follows s' fd (mc'.recvBufs fd) ∧ ∀ g, g ≠ fd → mc'.recvBufs g = mc.recvBufs g)
      (.ok { mc with server := closeConnection fd s }) (some (closeConnection fd s)) := fun s =>
    .ok ⟨rfl, .closed fd s _, fun _ _ => rfl⟩
  unfold handleClientDataAt handleClientData
  cases hc : mc.server.gConnections.lookup fd with
  | none => exact hclose mc.server
  | some c =>
    have hlen : (mc.recvBufs fd).len = c.recvBuf.length := by
      rw [← ha fd c hc, FilledArray.length_contents]
    simp only [hlen]
    by_cases hfull : bufferSize - c.recvBuf.length = 0
    · rw [if_pos hfull, if_pos hfull]
      exact hclose mc.server
    · rw [if_neg hfull, if_neg hfull]
      cases k.read fd with
      | again => exact .ok ⟨rfl, ha fd, fun _ _ => rfl⟩
      | fail => exact hclose _
      | bytes b =>
        by_cases he : (b.take (bufferSize - c.recvBuf.length)).isEmpty = true
        · simp only [he, if_true]
          exact hclose _
        · -- what is stored behind the bytes received is what was read
          have hfill : ((mc.recvBufs fd).fill (b.take (bufferSize - c.recvBuf.length))).contents =
              c.recvBuf ++ b.take (bufferSize - c.recvBuf.length) := by
            rw [FilledArray.contents_fill, hlen, List.take_take, Nat.min_self, ha fd c hc]
          have hlen' : ((mc.recvBufs fd).fill (b.take (bufferSize - c.recvBuf.length))).len =
              (c.recvBuf ++ b.take (bufferSize - c.recvBuf.length)).length := by
            rw [← hfill, FilledArray.length_contents]
          simp only [he, if_false, Bool.false_eq_true]
          rw [hfill, hlen', ← Option.bind_fun_some (packetLoop k fd _ _)]
          refine (packetLoopAt_matches ((hi.read fd _).setRecv hc _)
            (Server.setConn_lookup_self hc) hfill (Nat.le_of_eq hlen')).bind ?_
          rintro ⟨s', buf'⟩ _ ⟨rfl, hb⟩
          refine .ok ⟨rfl, ?_, fun g hg => Function.update_of_ne hg _ _⟩
          show Follows s' fd (Function.update mc.recvBufs fd buf' fd)
          rw [Function.update_self]
          exact hb

theorem handleClientDataAt_matches (k : Kernel) (fd : Fd) (hi : Inv mc.server) (ha : Agrees mc) :
    Matches (fun mc' s' => mc'.server = s' ∧ Agrees mc') (handleClientDataAt k fd mc)
      (handleClientData k fd mc.server) := by
  refine (handleClientDataAt_matches_at k fd hi ha).mono ?_
  rintro mc' _ hd ⟨rfl, hfd, hothers⟩
  refine ⟨rfl, fun g => ?_⟩
  by_cases hg : g = fd
  · subst hg
    exact hfd
  · obtain ⟨_, _, -, -, ht⟩ := (handleClientData_receives hi hd).touched hi
    rw [hothers g hg]
    exact (ht g hg).follows (ha g)

theorem Agrees.closeConnection (ha : Agrees mc) (f : Fd) :
    Agrees { mc with server := closeConnection f mc.server } :=
  fun g => (ha g).closeConnection f

theorem handleNewConnectionAt_agrees (k : Kernel) (hi : Inv mc.server) (ha : Agrees mc) :
    Agrees (handleNewConnectionAt k mc) := by
  intro g c hc
  have hacc := handleNewConnection_accepts k mc.server
  unfold handleNewConnectionAt at hc ⊢
  generalize handleNewConnection k mc.server = s' at hacc hc ⊢
  cases hacc with
  | nothing hn =>
    simp only [hn]
    exact ha g c hc
  | @refused f new hf _ _ =>
    -- the number was free, so no connection is stored under it
    have hg : g ≠ f := by
      rintro rfl
      have := (hi.opened g).symm.trans (Server.free_iff.mp (free_of_accept hf)).2.2.2
      rw [Server.logs_gConnections] at hc
      rw [hc] at this
      cases this
    simp only [hf, Function.update_of_ne hg]
    exact ha g c hc
  | @accepted f hf =>
    simp only [hf.1]
    by_cases hg : g = f
    · subst hg
      rw [Server.enter, AList.lookup_insert] at hc
      cases hc
      rw [Function.update_self, FilledArray.contents_blank]
      rfl
    · rw [Server.enter, AList.lookup_insert_ne hg] at hc
      rw [Function.update_of_ne hg]
      exact ha g c hc

theorem dispatchAt_matches (k : Kernel) (ev : Event) (hi : Inv mc.server) (ha : Agrees mc) :
    Matches (fun mc' s' => mc'.server = s' ∧ Agrees mc') (dispatchAt k ev mc)
      (dispatch k ev mc.server) := by
  unfold dispatchAt dispatch
  by_cases hl : ev.fd = mc.server.listenFd
  · rw [if_pos hl, if_pos hl]
    exact .ok ⟨rfl, handleNewConnectionAt_agrees k hi ha⟩
  · rw [if_neg hl, if_neg hl]
    -- the first half leaves a consistent server
    have hfirst : Matches (fun mc' s' => (mc'.server = s' ∧ Agrees mc') ∧ Inv s')
        (if ev.errHup then .ok { mc with server := closeConnection ev.fd mc.server }
          else if ev.input then handleClientDataAt k ev.fd mc else .ok mc)
        (if ev.errHup then some (closeConnection ev.fd mc.server)
          else if ev.input then handleClientData k ev.fd mc.server else some mc.server) := by
      cases ev.errHup with
      | true => exact .ok ⟨⟨rfl, ha.closeConnection ev.fd⟩, hi.closeConnection ev.fd⟩
      | false =>
        cases ev.input with
        | true =>
          exact (handleClientDataAt_matches k ev.fd hi ha).mono fun _ _ hd h =>
            ⟨h, (handleClientData_receives hi hd).inv hi⟩
        | false => exact .ok ⟨⟨rfl, ha⟩, hi⟩
    refine hfirst.bind ?_
    rintro mc' _ ⟨⟨rfl, ha'⟩, hi'⟩
    cases ev.output with
    | false => exact .ok ⟨rfl, ha'⟩
    | true =>
      obtain ⟨s', hw, hwrites⟩ := handleClientWrite_writes k ev.fd hi'
      rw [hw]
      exact .ok ⟨rfl, fun g => hwrites.follows (ha' g)⟩

/-- **The machine over the arrays does what the server does**, and comes upon a
fault only where the server uses an erased connection. -/
theorem stepAt_matches (i : Kernel × Event) (hi : Inv mc.server) (ha : Agrees mc) :
    Matches (fun mc' s' => mc'.server = s' ∧ Agrees mc') (stepAt i mc) (step i mc.server) :=
  dispatchAt_matches i.1 i.2 hi ha

theorem startAt_agrees (listenFd epfd : Fd) : Agrees (startAt listenFd epfd) := by
  intro f c hc
  simp [startAt, start] at hc

/-- **Reached without a fault, the machine is at a state the server reaches**, and
every array holds what its connection received. -/
theorem reachableAt_agrees (h : ReachableAt mc) : Reachable mc.server ∧ Agrees mc := by
  obtain ⟨listenFd, epfd, hr⟩ := h
  have hstep : ∀ (i : Kernel × Event) (mc mc' : Machine), Inv mc.server ∧ Agrees mc →
      (stepAt i mc).toOption = some mc' →
      step i mc.server = some mc'.server ∧ Inv mc'.server ∧ Agrees mc' := by
    rintro i mc mc' ⟨hi, ha⟩ h
    have hm := stepAt_matches i hi ha
    generalize hc : stepAt i mc = r at h hm
    generalize hs : step i mc.server = r' at hm
    cases hm with
    | dangling => cases h
    | ok hok =>
      cases h
      obtain ⟨rfl, ha'⟩ := hok
      exact ⟨rfl, step_inv i _ _ hi hs, ha'⟩
  obtain ⟨hreach, -, ha⟩ := hr.simulates hstep ⟨init_inv listenFd epfd, startAt_agrees listenFd epfd⟩
  exact ⟨⟨listenFd, epfd, hreach⟩, ha⟩

/-! ## Runs -/

/-- A run of the machine, up to its first fault. -/
def runAt : List (Kernel × Event) → Machine → Except Fault Machine
  | [], mc => .ok mc
  | i :: is, mc => stepAt i mc >>= runAt is

theorem runAt_matches (is : List (Kernel × Event)) (hi : Inv mc.server) (ha : Agrees mc) :
    Matches (fun mc' s' => mc'.server = s' ∧ Agrees mc') (runAt is mc)
      (Runs.run step is mc.server) := by
  induction is generalizing mc with
  | nil => exact .ok ⟨rfl, ha⟩
  | cons i is ih =>
    have hstep := (stepAt_matches i hi ha).mono (S := fun mc' s' =>
      (mc'.server = s' ∧ Agrees mc') ∧ Inv s') fun _ _ hs h => ⟨h, step_inv i _ _ hi hs⟩
    refine hstep.bind ?_
    rintro mc' _ ⟨⟨rfl, ha'⟩, hi'⟩
    exact ih hi' ha'

/-- **The arrays refine the lists in every run**: as long as there is no fault, the machine
goes through the states of the server, with what each connection received in its array. No
byte outside is used, no length wraps and the packet loop ends: the one fault is the erased
connection, and a run comes upon it exactly if a forward to the sender's own mark fails. -/
theorem arrays_refine (listenFd epfd : Fd) (is : List (Kernel × Event)) :
    (∀ mc, runAt is (startAt listenFd epfd) = .ok mc →
      Runs.run step is (start listenFd epfd) = some mc.server ∧
      ∀ f c, mc.server.gConnections.lookup f = some c → (mc.recvBufs f).contents = c.recvBuf) ∧
    (∀ f, runAt is (startAt listenFd epfd) = .error f → f = .dangling) ∧
    ((∃ mc, runAt is (startAt listenFd epfd) = .ok mc) ↔
      Runs.Meets step NoSelfForwardFails is (start listenFd epfd)) := by
  have hi := init_inv listenFd epfd
  have hends : (Runs.run step is (start listenFd epfd)).isSome ↔
      Runs.Meets step NoSelfForwardFails is (start listenFd epfd) := by
    rw [← Runs.meets_isSome_iff]
    exact Runs.meets_congr step_inv step_isSome_iff hi
  rw [← hends]
  have hm := runAt_matches is hi (startAt_agrees listenFd epfd)
  change Matches _ _ (Runs.run step is (start listenFd epfd)) at hm
  generalize runAt is (startAt listenFd epfd) = r at hm
  generalize Runs.run step is (start listenFd epfd) = r' at hm
  cases hm with
  | dangling => exact ⟨nofun, fun f hf => (Except.error.inj hf).symm, by simp⟩
  | ok hok =>
    obtain ⟨rfl, ha⟩ := hok
    refine ⟨fun mc hmc => ?_, nofun, by simp⟩
    cases hmc
    exact ⟨rfl, fun f c hc => ha f c hc⟩

end IsaacP2P.Relay
