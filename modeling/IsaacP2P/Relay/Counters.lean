import IsaacP2P.Relay.Induction

/-!
# The counters of the server

`Counted` has the functions of `server/main.cpp` with their `g_stat_*` counters.
Counting changes nothing the server does, and the counters are what the trace
says: `Server.counted` reads them off it (`step_counted`, `run_counted`). A
packet is counted by what becomes of it (`fate`).
-/

namespace IsaacP2P.Relay

variable {k : Kernel} {s s' : Server} {f : Fd}

/-- The counters `g_stat_*`. -/
@[ext] structure Stats where
  bytesIn : UInt64 := 0
  bytesOut : UInt64 := 0
  packetsIn : UInt64 := 0
  packetsOut : UInt64 := 0
  dropNoTarget : UInt64 := 0
  dropSmallPacket : UInt64 := 0
  dropSendEagain : UInt64 := 0
  partialWrites : UInt64 := 0
  writeErrors : UInt64 := 0
  eventLoops : UInt64 := 0
  events : UInt64 := 0
  deriving DecidableEq

namespace Counted

/-! ## The functions with their counters -/

def flushLoop (k : Kernel) (ref : Fd) : Nat → Server → Stats → Option (Server × Stats)
  | 0, s, g => do
    let conn ← s.gConnections.lookup ref
    some ((updateEpollEvents k conn.fd false s).2, g)
  | n + 1, s, g => do
    let conn ← s.gConnections.lookup ref
    if conn.sendBuf.isEmpty then some ((updateEpollEvents k conn.fd false s).2, g)
    else match k.write s.trace.length conn.fd with
      | .wrote m =>
        let sent := min (m + 1) conn.sendBuf.length
        let g := { g with bytesOut := g.bytesOut + UInt64.ofNat sent }
        flushLoop k ref n ((s.log (.write conn.fd (conn.sendBuf.take sent))).setConn ref
          { conn with sendBuf := conn.sendBuf.drop sent }) g
      | .again => some ((updateEpollEvents k conn.fd true (s.log (.writeAgain conn.fd))).2, g)
      | .fail =>
        let g := { g with writeErrors := g.writeErrors + 1 }
        some (closeConnection conn.fd (s.log (.writeFail conn.fd)), g)

def flushSendBuffer (k : Kernel) (ref : Fd) (s : Server) (g : Stats) : Option (Server × Stats) := do
  let conn ← s.gConnections.lookup ref
  if conn.fd < 0 then some (s, g)
  else if conn.sendBuf.isEmpty then some ((updateEpollEvents k conn.fd false s).2, g)
  else flushLoop k ref conn.sendBuf.length s g

def handleClientWrite (k : Kernel) (fd : Fd) (s : Server) (g : Stats) : Option (Server × Stats) :=
  match s.gConnections.lookup fd with
  | none => some (closeConnection fd s, g)
  | some _ => flushSendBuffer k fd s g

def processPacket (k : Kernel) (ref : Fd) (data : List UInt8) (s : Server) (g : Stats) :
    Option (Bool × Server × Stats) := do
  let conn ← s.gConnections.lookup ref
  let fd := conn.fd
  let g := { g with packetsIn := g.packetsIn + 1 }
  let s := s.log (.packet fd data)
  if !conn.registered then
    if data.length ≠ markSize then some (false, s, g)
    else
      let conn := { conn with mark := data.take markSize }
      let key := markToKey conn.mark
      let s := s.setConn ref conn
      if (s.gMarkToFd.lookup key).isSome then some (false, s, g)
      else
        let s := s.setConn ref { conn with registered := true }
        let s := { s with gMarkToFd := s.gMarkToFd.insert key fd }
        some (true, s.log (.register fd conn.mark), g)
  else if data.length < markSize then
    some (true, s, { g with dropSmallPacket := g.dropSmallPacket + 1 })
  else match s.gMarkToFd.lookup (markToKey data) with
    | none => some (true, s, { g with dropNoTarget := g.dropNoTarget + 1 })
    | some targetFd =>
      let payload := data.drop markSize
      if payload.length > 0 then
        match s.gConnections.lookup targetFd with
        | none => some (true, s, g)
        | some target => do
          let s := s.setConn targetFd { target with
            sendBuf := target.sendBuf ++ writePacketLength (UInt32.ofNat payload.length) ++ payload }
          let g := { g with packetsOut := g.packetsOut + 1 }
          let (s, g) ← flushSendBuffer k targetFd s g
          some (true, s, g)
      else some (true, s, g)

def packetLoop (k : Kernel) (ref : Fd) : Nat → Server → Stats → Option (Server × Stats)
  | 0, s, g => some (s, g)
  | n + 1, s, g => do
    let conn ← s.gConnections.lookup ref
    match conn.recvBuf with
    | b0 :: b1 :: b2 :: b3 :: packetData =>
      let packetLen := readPacketLength b0 b1 b2 b3
      if illegalLength packetLen then some (closeConnection ref s, g)
      else
        let totalLen := UInt32.ofNat lengthSize + packetLen
        if conn.recvBuf.length < totalLen.toNat then some (s, g)
        else do
          let (more, s, g) ← processPacket k ref (packetData.take packetLen.toNat) s g
          if !more then some (closeConnection ref s, g)
          else do
            let conn ← s.gConnections.lookup ref
            packetLoop k ref n (s.setConn ref (conn.consume totalLen.toNat)) g
    | _ => some (s, g)

def handleClientData (k : Kernel) (fd : Fd) (s : Server) (g : Stats) : Option (Server × Stats) :=
  match s.gConnections.lookup fd with
  | none => some (closeConnection fd s, g)
  | some conn =>
    let available := bufferSize - conn.recvBuf.length
    if available = 0 then some (closeConnection fd s, g)
    else match k.read fd with
      | .bytes b =>
        let b := b.take available
        let s := s.log (.read fd b)
        if b.isEmpty then some (closeConnection fd s, g)
        else
          let conn := { conn with recvBuf := conn.recvBuf ++ b }
          let g := { g with bytesIn := g.bytesIn + UInt64.ofNat b.length }
          packetLoop k fd conn.recvBuf.length (s.setConn fd conn) g
      | .again => some (s.log (.read fd []), g)
      | .fail => some (closeConnection fd (s.log (.read fd [])), g)

/-- One event of the dispatch loop. -/
def step (i : Kernel × Event) (c : Server × Stats) : Option (Server × Stats) :=
  let (k, ev) := i
  let (s, g) := c
  if ev.fd = s.listenFd then some (handleNewConnection k s, g)
  else
    (if ev.errHup then some (closeConnection ev.fd s, g)
      else if ev.input then handleClientData k ev.fd s g
      else some (s, g)).bind fun (s, g) =>
    if ev.output then handleClientWrite k ev.fd s g else some (s, g)
end Counted

/-! ## What the trace says -/

/-- What becomes of a packet. -/
inductive Fate where
  | registered
  | rejected
  | tooSmall
  | noTarget
  | empty
  | forwarded
  deriving DecidableEq

/-- A connection is registered under the mark. -/
def inUse (mark : List UInt8) (tr : List Ev) : Bool :=
  tr.any fun
    | .accept f => markOf f tr == some mark
    | _ => false

/-- What becomes of the packet `data` of `a` after the trace `tr`. -/
def fate (a : Fd) (data : List UInt8) (tr : List Ev) : Fate :=
  match markOf a tr with
  | none => if data.length = markSize ∧ inUse data tr = false then .registered else .rejected
  | some _ =>
    if data.length < markSize then .tooSmall
    else if inUse (data.take markSize) tr = false then .noTarget
    else if data.drop markSize = [] then .empty
    else .forwarded

/-- The fates of all packets, newest first. -/
def fates : List Ev → List Fate
  | [] => []
  | .packet a data :: tr => fate a data tr :: fates tr
  | _ :: tr => fates tr

def Stats.settle (g : Stats) : Fate → Stats
  | .tooSmall => { g with dropSmallPacket := g.dropSmallPacket + 1 }
  | .noTarget => { g with dropNoTarget := g.dropNoTarget + 1 }
  | .forwarded => { g with packetsOut := g.packetsOut + 1 }
  | .registered | .rejected | .empty => g

/-- An event is counted. -/
def Stats.tick (g : Stats) (tr : List Ev) : Ev → Stats
  | .read _ bytes => { g with bytesIn := g.bytesIn + UInt64.ofNat bytes.length }
  | .write _ bytes => { g with bytesOut := g.bytesOut + UInt64.ofNat bytes.length }
  | .writeFail _ => { g with writeErrors := g.writeErrors + 1 }
  | .packet a data => { g with packetsIn := g.packetsIn + 1 }.settle (fate a data tr)
  | _ => g

/-- The counters after the trace, from `g` on. -/
def Stats.along (g : Stats) : List Ev → Stats
  | [] => g
  | e :: tr => (g.along tr).tick tr e

/-- The server with the counters its trace gives, from `g` on. -/
def Server.counted (g : Stats) (s : Server) : Server × Stats := (s, g.along s.trace)

/-! ## Counting changes nothing -/

namespace Counted

open Stats (along)

variable {g : Stats} {ref : Fd} {c : Connection}

theorem flushLoop_counted (k : Kernel) (ref : Fd) (n : Nat) (s : Server) :
    flushLoop k ref n s (g.along s.trace) = (Relay.flushLoop k ref n s).map (Server.counted g) := by
  induction n generalizing s with
  | zero =>
    rw [flushLoop, Relay.flushLoop]
    cases s.gConnections.lookup ref with
    | none => rfl
    | some c => rfl
  | succ n ih =>
    rw [flushLoop, Relay.flushLoop]
    cases s.gConnections.lookup ref with
    | none => rfl
    | some c =>
      simp only [Option.bind_eq_bind, Option.bind_some]
      by_cases he : c.sendBuf.isEmpty = true
      · rw [if_pos he, if_pos he]
        rfl
      · rw [if_neg he, if_neg he]
        cases k.write s.trace.length c.fd with
        | wrote m =>
          rw [← ih]
          simp only [Server.setConn_trace, Server.log_trace, along, Stats.tick, List.length_take,
            Nat.min_eq_left (Nat.min_le_right _ _)]
        | again => rfl
        | fail =>
          rw [Option.map_some, Server.counted, closeConnection_trace]
          rfl

theorem flushSendBuffer_counted (k : Kernel) (ref : Fd) (s : Server) :
    flushSendBuffer k ref s (g.along s.trace) =
      (Relay.flushSendBuffer k ref s).map (Server.counted g) := by
  rw [flushSendBuffer, Relay.flushSendBuffer]
  cases s.gConnections.lookup ref with
  | none => rfl
  | some c =>
    simp only [Option.bind_eq_bind, Option.bind_some, flushLoop_counted]
    split
    · rfl
    · split <;> rfl

theorem closeConnection_counted (fd : Fd) (s : Server) :
    (closeConnection fd s, g.along s.trace) = (closeConnection fd s).counted g := by
  rw [Server.counted, closeConnection_trace]
  rfl

theorem handleClientWrite_counted (k : Kernel) (fd : Fd) (s : Server) :
    handleClientWrite k fd s (g.along s.trace) =
      (Relay.handleClientWrite k fd s).map (Server.counted g) := by
  rw [handleClientWrite, Relay.handleClientWrite]
  cases s.gConnections.lookup fd with
  | none => exact congrArg some (closeConnection_counted fd s)
  | some _ => exact flushSendBuffer_counted k fd s

theorem isSome_lookup_key (hi : Inv s) {data : List UInt8} (hlen : markSize ≤ data.length) :
    (s.gMarkToFd.lookup (markToKey data)).isSome = inUse (data.take markSize) s.trace := by
  rw [Bool.eq_iff_iff, inUse, List.any_eq_true]
  constructor
  · intro h
    obtain ⟨f, hf⟩ := Option.isSome_iff_exists.mp h
    have hm := hi.markAt_of_key hlen hf
    have hopen : isOpen f s.trace = true := by
      obtain ⟨c, hc, -⟩ := Server.markAt_eq_some.mp hm
      rw [hi.opened, hc]
      rfl
    exact ⟨.accept f, accept_of_isOpen hopen, by simp [hi.marked, hm]⟩
  · rintro ⟨e, -, he⟩
    cases e with
    | accept f =>
      rw [beq_iff_eq, hi.marked] at he
      rw [← markToKey_take, hi.owner.mpr ⟨_, he, rfl⟩]
      rfl
    | _ => cases he

theorem processPacket_counted (k : Kernel) (data : List UInt8) (hi : Inv s) :
    processPacket k ref data s (g.along s.trace) =
      (Relay.processPacket k ref data s).map fun r => (r.1, r.2.counted g) := by
  rw [processPacket, Relay.processPacket]
  cases hc : s.gConnections.lookup ref with
  | none => rfl
  | some c =>
    have hfd := hi.fd_eq hc
    have hmark : markOf ref s.trace = c.regMark := by
      rw [hi.marked, Server.markAt_of_lookup hc]
    simp only [Option.bind_eq_bind, Option.bind_some, hfd]
    have hin : ∀ {e}, fate ref data s.trace = e → g.along (.packet ref data :: s.trace) =
        { g.along s.trace with packetsIn := (g.along s.trace).packetsIn + 1 }.settle e := by
      rintro _ rfl
      rfl
    cases hr : c.registered with
    | false =>
      -- whatever becomes of the mark, the packet is counted in and no more
      have hin : g.along (.packet ref data :: s.trace) =
          { g.along s.trace with packetsIn := (g.along s.trace).packetsIn + 1 } := by
        by_cases hfree : data.length = markSize ∧ inUse data s.trace = false
        · exact hin (e := .registered) (by simp [fate, hmark, Connection.regMark, hr, hfree])
        · exact hin (e := .rejected) (by simp [fate, hmark, Connection.regMark, hr, hfree])
      simp only [Bool.not_false, if_true]
      split
      · simp only [Option.map_some, Server.counted, Server.log_trace, hin]
      · split
        · simp only [Option.map_some, Server.counted, Server.setConn_trace, Server.log_trace, hin]
        · simp only [Option.map_some, Server.counted, Server.setConn_trace, Server.log_trace,
            along, Stats.tick] at hin ⊢
          rw [hin]
    | true =>
      simp only [Bool.not_true, Bool.false_eq_true, if_false]
      by_cases hlen : data.length < markSize
      · have hin := hin (e := .tooSmall) (by simp [fate, hmark, Connection.regMark, hr, hlen])
        simp only [if_pos hlen, Option.map_some, Server.counted, Server.log_trace, hin]
        rfl
      · have hkey := isSome_lookup_key hi (Nat.not_lt.mp hlen)
        simp only [if_neg hlen, Server.log_gMarkToFd]
        cases hl : s.gMarkToFd.lookup (markToKey data) with
        | none =>
          rw [hl] at hkey
          have hin := hin (e := .noTarget)
            (by simp [fate, hmark, Connection.regMark, hr, hlen, ← hkey])
          simp only [Option.map_some, Server.counted, Server.log_trace, hin]
          rfl
        | some t =>
          rw [hl] at hkey
          by_cases hp : data.drop markSize = []
          · have hin := hin (e := .empty)
              (by simp [fate, hmark, Connection.regMark, hr, hlen, ← hkey, hp])
            simp only [hp, List.length_nil, gt_iff_lt, Nat.lt_irrefl, if_false, Option.map_some,
              Server.counted, Server.log_trace, hin]
            rfl
          · have hin := hin (e := .forwarded)
              (by simp [fate, hmark, Connection.regMark, hr, hlen, ← hkey, hp])
            obtain ⟨m, hm, -⟩ := hi.owner.mp hl
            obtain ⟨tc, htc, -⟩ := Server.markAt_eq_some.mp hm
            simp only [gt_iff_lt, List.length_pos_iff.mpr hp, if_true, Server.log_gConnections, htc]
            -- the frame is in the buffer, and the packet counted, when the flush begins
            generalize hm : (s.log (.packet ref data)).setConn t _ = m
            have hflush := flushSendBuffer_counted (g := g) k t m
            rw [← hm, Server.setConn_trace, Server.log_trace, hin, hm] at hflush
            refine (congrArg (·.bind fun r => some (true, r.1, r.2)) hflush).trans ?_
            cases Relay.flushSendBuffer k t m <;> rfl

theorem packetLoop_counted (k : Kernel) (ref : Fd) (n : Nat) (hi : Inv s) :
    packetLoop k ref n s (g.along s.trace) =
      (Relay.packetLoop k ref n s).map (Server.counted g) := by
  induction n generalizing s with
  | zero => rfl
  | succ n ih =>
    rw [packetLoop, Relay.packetLoop]
    cases hc : s.gConnections.lookup ref with
    | none => rfl
    | some c =>
      simp only [Option.bind_eq_bind, Option.bind_some]
      rcases c.recvBuf with _ | ⟨b0, _ | ⟨b1, _ | ⟨b2, _ | ⟨b3, data⟩⟩⟩⟩
      -- fewer than four bytes: both loops stop and wait
      iterate 4 · rfl
      simp only
      split
      · exact congrArg some (closeConnection_counted ref s)
      · split
        · rfl
        · obtain ⟨more, m, hp, ho⟩ := processPacket_outcome k
            (data.take (readPacketLength b0 b1 b2 b3).toNat) hi hc
          simp only [processPacket_counted k _ hi, hp, Option.map_some, Option.bind_some]
          cases more with
          | false => exact congrArg some (closeConnection_counted ref m)
          | true =>
            simp only [Server.counted, Bool.not_true, Bool.false_eq_true, if_false]
            cases hc' : m.gConnections.lookup ref with
            | none => rfl
            | some c' =>
              rw [Option.bind_some, Option.bind_some, Connection.consume_eq]
              exact ih ((ho.inv hi hc).setRecv hc' _)

theorem along_read_nil (fd : Fd) (tr : List Ev) : g.along (.read fd [] :: tr) = g.along tr := by
  simp [along, Stats.tick]

theorem handleClientData_counted (k : Kernel) (fd : Fd) (hi : Inv s) :
    handleClientData k fd s (g.along s.trace) =
      (Relay.handleClientData k fd s).map (Server.counted g) := by
  rw [handleClientData, Relay.handleClientData]
  cases hc : s.gConnections.lookup fd with
  | none => exact congrArg some (closeConnection_counted fd s)
  | some c =>
    simp only
    split
    · exact congrArg some (closeConnection_counted fd s)
    · cases k.read fd with
      | bytes b =>
        simp only
        generalize b.take (bufferSize - c.recvBuf.length) = b
        cases b with
        | nil =>
          rw [← along_read_nil fd]
          exact congrArg some (closeConnection_counted fd (s.log (.read fd [])))
        | cons x xs =>
          simp only [List.isEmpty_cons, Bool.false_eq_true, if_false]
          exact packetLoop_counted k fd _ ((hi.read fd (x :: xs)).setRecv hc _)
      | again =>
        rw [← along_read_nil fd]
        rfl
      | fail =>
        rw [← along_read_nil fd]
        exact congrArg some (closeConnection_counted fd (s.log (.read fd [])))

theorem handleNewConnection_counted (k : Kernel) (s : Server) :
    (handleNewConnection k s, g.along s.trace) = (handleNewConnection k s).counted g := by
  have haccepts := handleNewConnection_accepts k s
  generalize handleNewConnection k s = s' at haccepts ⊢
  cases haccepts with
  | nothing _ => rfl
  | refused _ _ hnew => rcases hnew with rfl | ⟨ok, rfl⟩ <;> rfl
  | accepted _ => rfl

/-- **Step**: an event is counted as it is noted on the trace. -/
theorem step_counted (i : Kernel × Event) (s : Server) (hi : Inv s) :
    step i (s.counted g) = (Relay.step i s).map (Server.counted g) := by
  obtain ⟨k, ev⟩ := i
  have hread : (if ev.errHup then some (closeConnection ev.fd s, g.along s.trace)
      else if ev.input then handleClientData k ev.fd s (g.along s.trace)
      else some (s, g.along s.trace)) =
      (if ev.errHup then some (closeConnection ev.fd s)
        else if ev.input then Relay.handleClientData k ev.fd s else some s).map
        (Server.counted g) := by
    split
    · exact congrArg some (closeConnection_counted ev.fd s)
    · split
      · exact handleClientData_counted k ev.fd hi
      · rfl
  have hwrite : ∀ m : Server,
      (if ev.output then handleClientWrite k ev.fd m (g.along m.trace) else
        some (m, g.along m.trace)) =
      (if ev.output then Relay.handleClientWrite k ev.fd m else some m).map
        (Server.counted g) := by
    intro m
    split
    · exact handleClientWrite_counted k ev.fd m
    · rfl
  show (if ev.fd = s.listenFd then some (handleNewConnection k s, g.along s.trace)
    else Option.bind _ _) = (if ev.fd = s.listenFd then _ else _ : Option Server).map _
  by_cases hl : ev.fd = s.listenFd
  · rw [if_pos hl, if_pos hl]
    exact congrArg some (handleNewConnection_counted k s)
  · rw [if_neg hl, if_neg hl, hread]
    cases (if ev.errHup then some (closeConnection ev.fd s)
        else if ev.input then Relay.handleClientData k ev.fd s else some s) with
    | none => rfl
    | some m => exact hwrite m

theorem run_counted (is : List (Kernel × Event)) (hi : Inv s) :
    Runs.run step is (s.counted g) = (Runs.run Relay.step is s).map (Server.counted g) :=
  Runs.run_image step_inv step_counted hi
end Counted

end IsaacP2P.Relay
