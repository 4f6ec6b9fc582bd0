import IsaacP2P.Relay.Invariant

/-!
# Packets: what `process_packet` and the packet loop do

`Outcome` lists the ways a call of `process_packet` can end and says what each
leaves; `Loop` is the packet loop of `handle_client_data` in these terms. The
loop reads its buffer as the stream of packets of at most `maxPayload` bytes.
-/

namespace IsaacP2P.Relay

open LengthPrefixed (frame next stream)

/-! ## The stream -/

/-- The longest packet `handle_client_data` accepts. -/
def maxPayload : Nat := 65532

theorem illegalLength_iff (n : UInt32) :
    illegalLength n = true ↔ n.toNat = 0 ∨ maxPayload < n.toNat := by
  have hlt := n.toNat_lt
  have hadd : (UInt32.ofNat lengthSize + n).toNat = (4 + n.toNat) % 2 ^ 32 := by
    rw [UInt32.toNat_add]
    rfl
  have hzero : n = 0 ↔ n.toNat = 0 := by rw [← UInt32.toNat_inj]; rfl
  have hpacket : (UInt32.ofNat maxPacketSize).toNat = 65535 := rfl
  have hbuffer : (UInt32.ofNat bufferSize).toNat = 65536 := rfl
  simp only [illegalLength, Bool.or_eq_true, beq_iff_eq, decide_eq_true_eq, GT.gt,
    UInt32.lt_iff_toNat_lt, hadd, hzero, hpacket, hbuffer, maxPayload]
  omega

theorem toNat_lengthSize_add {n : UInt32} (h : n.toNat ≤ maxPayload) :
    (UInt32.ofNat lengthSize + n).toNat = lengthSize + n.toNat := by
  rw [UInt32.toNat_add, show (UInt32.ofNat lengthSize).toNat = lengthSize from rfl,
    Nat.mod_eq_of_lt]
  simp only [lengthSize, maxPayload] at *
  omega

theorem toNat_readPacketLength (b0 b1 b2 b3 : UInt8) :
    (readPacketLength b0 b1 b2 b3).toNat = LittleEndian.decode [b0, b1, b2, b3] :=
  LittleEndian.decode_four b0 b1 b2 b3

theorem writePacketLength_eq (n : Nat) :
    writePacketLength (UInt32.ofNat n) = LittleEndian.encode 4 n := by
  rw [writePacketLength, ← LittleEndian.encode_four, UInt32.toNat_ofNat']
  exact LittleEndian.encode_mod 4 n

/-! ## One packet -/

section

variable (k : Kernel) (ref : Fd) (c : Connection) (data : List UInt8) (s : Server)

/-- The ways `process_packet` ends for the packet `data` of the connection `c`
stored under `ref`: what it returns and what it leaves. -/
inductive Outcome : Bool → Server → Prop where
  /-- The first packet is no registration. -/
  | wrongLength : c.registered = false → data.length ≠ markSize →
      Outcome false (s.log (.packet ref data))
  /-- The mark is in use: the connection keeps it in its record, unregistered. -/
  | taken : c.registered = false → data.length = markSize →
      s.gMarkToFd.lookup (markToKey data) ≠ none →
      Outcome false ((s.log (.packet ref data)).setConn ref { c with mark := data })
  | registers : c.registered = false → data.length = markSize →
      s.gMarkToFd.lookup (markToKey data) = none →
      Outcome true (({ (s.log (.packet ref data)).setConn ref
          { c with mark := data, registered := true } with
        gMarkToFd := s.gMarkToFd.insert (markToKey data) ref } : Server).log (.register ref data))
  /-- Too short, empty, or for a mark nobody is registered under. -/
  | dropped : c.registered = true → (∀ t m, s.markAt t = some m → frameFor m data = []) →
      Outcome true (s.log (.packet ref data))
  | forwards {t : Fd} {tc : Connection} {m w rest : List UInt8} {failed : Bool}
      {new : List Ev} : c.registered = true → s.gConnections.lookup t = some tc →
      tc.regMark = some m → data.take markSize = m → data.drop markSize ≠ [] →
      failed = flushFails k t (s.trace.length + 1) (tc.sendBuf ++ frameFor m data) →
      Flushed t (tc.sendBuf ++ frameFor m data) w rest failed new →
      Outcome true (flushedState t tc rest failed new (s.log (.packet ref data)))

end

variable {k : Kernel} {ref : Fd} {c : Connection} {data : List UInt8} {s : Server}

/-- **Every call of `process_packet` in a consistent state ends in one of the
five ways.** -/
theorem processPacket_outcome (k : Kernel) (data : List UInt8) (hi : Inv s)
    (hc : s.gConnections.lookup ref = some c) :
    ∃ more s', processPacket k ref data s = some (more, s') ∧
      Outcome k ref c data s more s' := by
  have hfd := hi.fd_eq hc
  cases hr : c.registered with
  | false =>
    by_cases hl : data.length = markSize
    · have htake : data.take markSize = data := List.take_of_length_le (by omega)
      cases hk : s.gMarkToFd.lookup (markToKey data) with
      | some f =>
        refine ⟨_, _, ?_, .taken hr hl (by simp [hk])⟩
        simp only [processPacket, hc, hr, hl, hfd, Option.bind_eq_bind, Option.bind_some]
        rw [htake]
        simp [hk]
      | none =>
        refine ⟨_, _, ?_, .registers hr hl hk⟩
        simp only [processPacket, hc, hr, hl, hfd, Option.bind_eq_bind, Option.bind_some]
        rw [htake]
        simp [hk]
    · refine ⟨_, _, ?_, .wrongLength hr hl⟩
      simp [processPacket, hc, hr, hl, hfd]
  | true =>
    by_cases hl : data.length < markSize
    · refine ⟨_, _, ?_, .dropped hr fun t m hm => ?_⟩
      · simp [processPacket, hc, hr, hl, hfd]
      · have : data.drop markSize = [] := List.drop_eq_nil_of_le (by omega)
        simp [frameFor, this]
    · cases hk : s.gMarkToFd.lookup (markToKey data) with
      | none =>
        refine ⟨_, _, ?_, .dropped hr fun t m hm => ?_⟩
        · simp [processPacket, hc, hr, hl, hk, hfd]
        · have hne : data.take markSize ≠ m := by
            rintro rfl
            exact hi.key_eq_none.mp hk t _ hm (markToKey_take data)
          simp [frameFor, hne]
      | some t =>
        have hm := hi.markAt_of_key (by omega) hk
        obtain ⟨tc, htc, htr, hmark⟩ := Server.markAt_eq_some.mp hm
        by_cases hp : data.drop markSize = []
        · refine ⟨_, _, ?_, .dropped hr fun t' m' hm' => by simp [frameFor, hp]⟩
          have hlen : (data.drop markSize).length = 0 := by rw [hp]; rfl
          simp only [processPacket, hc, hr, hl, hk, hfd, hlen, Option.bind_eq_bind,
            Option.bind_some, Bool.not_true, if_false, gt_iff_lt, Nat.lt_irrefl,
            Bool.false_eq_true, Server.log_gMarkToFd]
        · have hlen : 0 < (data.drop markSize).length := List.length_pos_iff.mpr hp
          have hframe : frameFor (data.take markSize) data
              = writePacketLength (UInt32.ofNat (data.drop markSize).length)
                ++ data.drop markSize := by
            rw [frameFor, if_pos ⟨rfl, hp⟩, frame, writePacketLength_eq]
          let tc' : Connection :=
            { tc with sendBuf := tc.sendBuf ++ frameFor (data.take markSize) data }
          have htc' : ((s.log (.packet ref data)).setConn t tc').gConnections.lookup t
              = some tc' := Server.setConn_lookup_self htc
          obtain ⟨w, rest, new, hF, he⟩ := flushSendBuffer_eq (k := k) htc'
            (show tc.fd = t from hi.fd_eq htc) (hi.nonneg htc)
          refine ⟨_, _, ?_, .forwards hr htc
            (Connection.regMark_eq_some.mpr ⟨htr, hmark⟩) rfl hp rfl hF⟩
          rw [flushedState_setConn] at he
          simp only [processPacket, hc, hr, hl, hk, hfd, hlen, Option.bind_eq_bind,
            Option.bind_some, Bool.not_true, if_false, if_true, Bool.false_eq_true,
            Server.log_gMarkToFd, Server.log_gConnections, htc, List.append_assoc, ← hframe]
          rw [he]
          rfl

theorem Outcome.inv {more : Bool} {s' : Server} (h : Outcome k ref c data s more s') (hi : Inv s)
    (hc : s.gConnections.lookup ref = some c) : Inv s' := by
  have unregistered : c.registered = false → s.markAt ref = none := by
    intro hr
    rw [Server.markAt_of_lookup hc, Connection.regMark, hr]
    rfl
  cases h with
  | wrongLength hr _ => exact hi.packet data fun _ _ hf => absurd (unregistered hr) hf
  | taken hr hl _ =>
    have hi' := hi.packet data fun _ _ hf => absurd (unregistered hr) hf
    exact hi'.setConn hc rfl hl (by simp [Connection.regMark, hr]) rfl
  | registers hr hl hk =>
    have hi' := hi.packet data fun _ _ hf => absurd (unregistered hr) hf
    exact hi'.register hc hr hl hk
  | dropped _ h => exact hi.packet data fun t m _ hm => h t m hm
  | @forwards t tc m w rest failed new hr ht hm hd _ _ hF =>
    have hf : s.markAt ref ≠ none := by
      rw [Server.markAt_of_lookup hc, Connection.regMark, if_pos hr]
      simp
    have hi' := hi.deliver hf ht hm hd
    have hi'' := hi'.output (Server.setConn_lookup_self ht) hF
    rw [← flushedState_setConn t tc (tc.sendBuf ++ frameFor m data)]
    cases failed with
    | false => exact hi''
    | true => exact hi''.closeConnection t

/-- The sender's own entry after its packet: gone exactly if the packet went back
to the sender itself and a write failed, else with the received bytes it had, and
registered if the call returns true. -/
theorem Outcome.lookup_ref {more : Bool} {s' : Server} (h : Outcome k ref c data s more s')
    (hc : s.gConnections.lookup ref = some c) :
    (∃ c', s'.gConnections.lookup ref = some c' ∧ c'.recvBuf = c.recvBuf ∧
        (more = true → c'.registered = true)) ∨
      (more = true ∧ s'.gConnections.lookup ref = none ∧ c.registered = true ∧
        data.take markSize = c.mark ∧ data.drop markSize ≠ [] ∧
        flushFails k ref (s.trace.length + 1) (c.sendBuf ++ frameFor c.mark data) = true) := by
  cases h with
  | wrongLength _ _ => exact .inl ⟨c, hc, rfl, nofun⟩
  | taken _ _ _ => exact .inl ⟨_, Server.setConn_lookup_self hc, rfl, nofun⟩
  | registers _ _ _ => exact .inl ⟨_, Server.setConn_lookup_self hc, rfl, fun _ => rfl⟩
  | dropped hr _ => exact .inl ⟨c, hc, rfl, fun _ => hr⟩
  | @forwards t tc m w rest failed new hr ht hm hd hp hf hF =>
    have hl := flushedState_lookup (s := s.log (.packet ref data)) ht rest failed new ref
    by_cases heq : ref = t
    · subst heq
      rw [hc] at ht
      cases ht
      rw [if_pos rfl] at hl
      obtain ⟨-, rfl⟩ := Connection.regMark_eq_some.mp hm
      cases failed with
      | false => exact .inl ⟨_, hl, rfl, fun _ => hr⟩
      | true => exact .inr ⟨rfl, hl, hr, hd, hp, hf.symm⟩
    · rw [if_neg heq] at hl
      exact .inl ⟨c, hl.trans hc, rfl, fun _ => hr⟩

/-! ## The packet loop -/

/-- The packet loop of `handle_client_data` on the connection stored under `ref`. -/
inductive Loop (k : Kernel) (ref : Fd) : Server → Server → Prop where
  | wait {s : Server} {c : Connection} : s.gConnections.lookup ref = some c →
      next maxPayload c.recvBuf = .wait → Loop k ref s s
  /-- An illegal length. -/
  | bad {s : Server} {c : Connection} : s.gConnections.lookup ref = some c →
      next maxPayload c.recvBuf = .bad → Loop k ref s (closeConnection ref s)
  /-- The packet was no valid registration. -/
  | reject {s m : Server} {c : Connection} {p rest : List UInt8} :
      s.gConnections.lookup ref = some c → next maxPayload c.recvBuf = .item p rest →
      Outcome k ref c p s false m → Loop k ref s (closeConnection ref m)
  | more {s m s' : Server} {c c' : Connection} {p rest : List UInt8} :
      s.gConnections.lookup ref = some c → next maxPayload c.recvBuf = .item p rest →
      Outcome k ref c p s true m → m.gConnections.lookup ref = some c' →
      Loop k ref (m.setConn ref { c' with recvBuf := rest }) s' → Loop k ref s s'

/-- The loop's test on the head of the buffer is `next`. -/
theorem packetLoop_succ (hc : s.gConnections.lookup ref = some c) (n : Nat) :
    packetLoop k ref (n + 1) s = (match next maxPayload c.recvBuf with
      | .wait => some s
      | .bad => some (closeConnection ref s)
      | .item p _ => (processPacket k ref p s).bind fun (more, s) =>
        if !more then some (closeConnection ref s)
        else (s.gConnections.lookup ref).bind fun conn =>
          packetLoop k ref n (s.setConn ref (conn.consume (lengthSize + p.length)))) := by
  rw [packetLoop, hc]
  simp only [Option.bind_eq_bind, Option.bind_some]
  match hb : c.recvBuf with
  | b0 :: b1 :: b2 :: b3 :: data =>
    have hn := toNat_readPacketLength b0 b1 b2 b3
    have hbad := illegalLength_iff (readPacketLength b0 b1 b2 b3)
    rw [hn] at hbad
    simp only [next, hbad, List.length_cons]
    by_cases hlegal : LittleEndian.decode [b0, b1, b2, b3] = 0 ∨
        maxPayload < LittleEndian.decode [b0, b1, b2, b3]
    · rw [if_pos hlegal, if_pos hlegal]
    · have htotal := toNat_lengthSize_add (n := readPacketLength b0 b1 b2 b3) (by omega)
      rw [if_neg hlegal, if_neg hlegal, htotal, hn]
      by_cases hlen : data.length < LittleEndian.decode [b0, b1, b2, b3]
      · rw [if_pos (by simp only [lengthSize]; omega), if_pos hlen]
      · rw [if_neg (by simp only [lengthSize]; omega), if_neg hlen]
        simp only [List.length_take, Nat.min_eq_left (Nat.not_lt.mp hlen)]
  | [] | [_] | [_, _] | [_, _, _] => rfl

theorem consume_item {p rest : List UInt8} {c' : Connection}
    (hnext : next maxPayload c.recvBuf = .item p rest) (hrecv : c'.recvBuf = c.recvBuf) :
    c'.consume (lengthSize + p.length) = { c' with recvBuf := rest } := by
  obtain ⟨hbuf, -, -⟩ := LengthPrefixed.next_item hnext
  rw [Connection.consume_eq, hrecv, hbuf, List.drop_left']
  rw [LengthPrefixed.length_frame, lengthSize]

theorem length_item_lt {p rest : List UInt8} (hnext : next maxPayload c.recvBuf = .item p rest) :
    rest.length < c.recvBuf.length := by
  obtain ⟨hbuf, -, -⟩ := LengthPrefixed.next_item hnext
  have := congrArg List.length hbuf
  simp only [List.length_append, LengthPrefixed.length_frame] at this
  omega

theorem Outcome.kept_ref {more : Bool} {s' : Server} {c' : Connection}
    (h : Outcome k ref c data s more s') (hc : s.gConnections.lookup ref = some c)
    (hc' : s'.gConnections.lookup ref = some c') :
    c'.recvBuf = c.recvBuf ∧ (more = true → c'.registered = true) := by
  rcases h.lookup_ref hc with ⟨d, hd, hr⟩ | ⟨-, hd, -⟩
  · rw [hc'] at hd
    cases hd
    exact hr
  · rw [hc'] at hd
    cases hd

/-- The loop runs to its end: it is `Loop`, or the sender was erased under it. -/
theorem packetLoop_loop (hi : Inv s) (hc : s.gConnections.lookup ref = some c) {n : Nat}
    (hn : c.recvBuf.length ≤ n) {s' : Server} (h : packetLoop k ref n s = some s') :
    Loop k ref s s' := by
  induction n generalizing s c with
  | zero =>
    have he : c.recvBuf = [] := List.length_eq_zero_iff.mp (by omega)
    cases h
    exact .wait hc (by rw [he]; rfl)
  | succ n ih =>
    rw [packetLoop_succ hc] at h
    split at h
    · cases h
      exact .wait hc ‹_›
    · cases h
      exact .bad hc ‹_›
    · rename_i p rest hnext
      obtain ⟨more, m, hp, ho⟩ := processPacket_outcome k p hi hc
      rw [hp, Option.bind_some] at h
      cases more with
      | false =>
        cases h
        exact .reject hc hnext ho
      | true =>
        obtain ⟨c', hc', h⟩ := Option.bind_eq_some_iff.mp h
        rw [consume_item hnext (ho.kept_ref hc hc').1] at h
        have hrest := length_item_lt hnext
        exact .more hc hnext ho hc' (ih ((ho.inv hi hc).setRecv hc' rest)
          (Server.setConn_lookup_self hc') (show rest.length ≤ n by omega) h)

theorem Loop.inv {s' : Server} (h : Loop k ref s s') (hi : Inv s) : Inv s' := by
  induction h with
  | wait => exact hi
  | bad => exact hi.closeConnection ref
  | reject hc _ ho => exact (ho.inv hi hc).closeConnection ref
  | more hc _ ho hc' _ ih => exact ih ((ho.inv hi hc).setRecv hc' _)

end IsaacP2P.Relay
