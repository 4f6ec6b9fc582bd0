import IsaacP2P.Client.Manager
import IsaacP2P.Lib.Runs

/-!
# The outgoing stream of a connection

`sendPacket` offers its frame to the socket at once, also while bytes of earlier
frames wait in `sendBuffer`; `processWrite` sends from the buffer. `Sends` and
`Writes` say what one call does. In a run of such calls the bytes on the wire
followed by the buffer are the frames in order (`outgoing_stream`) as long as no
frame overtakes the buffer (`overtakes`); `overtaking_stream` is a run in which
one does.
-/

namespace IsaacP2P.Client

variable {k : Kernel} {m m' : Manager} {peer : PeerID}

theorem createSendFrame_eq (data : List UInt8) :
    createSendFrame data = LengthPrefixed.frame data := by
  have hmod : LittleEndian.encode 4 (UInt32.ofNat data.length).toNat =
      LittleEndian.encode 4 data.length := by
    rw [UInt32.toNat_ofNat']
    exact LittleEndian.encode_mod 4 data.length
  rw [LengthPrefixed.frame, ← hmod, LittleEndian.encode_four]
  rfl

theorem size_ne_zero {d : List UInt8} (h0 : 0 < d.length) (hlt : d.length < 2 ^ 32) :
    UInt32.ofNat d.length ≠ 0 := by
  intro h
  have := congrArg UInt32.toNat h
  rw [UInt32.toNat_ofNat', Nat.mod_eq_of_lt hlt, UInt32.toNat_zero] at this
  omega

/-! ## One call -/

/-- The bytes a call of `send()` that did not fail has taken. -/
def Sent.bytes : Sent → Option (List UInt8)
  | .took bytes => some bytes
  | .again => some []
  | .fail => none

theorem sent_send {h : SocketHandle} {r : Sent} {w : List UInt8} (hr : r.bytes = some w)
    (size : Nat) (len : Int) (tr : List Ev) :
    sent h (.send h size len r :: tr) = sent h tr ++ w := by
  cases r with
  | took bytes => cases hr; simp [sent]
  | again => cases hr; simp [sent]
  | fail => cases hr

theorem Manager.send_split (k : Kernel) (h : SocketHandle) (buf : List UInt8) (m : Manager) :
    ∃ len r, m.send k h buf = (r, m.log (.send h buf.length len r)) ∧
      (r = .fail → k.send m.trace.length h = .fail) ∧
      ∀ w, r.bytes = some w → ∃ rest, buf = w ++ rest := by
  refine ⟨Int.bmod buf.length (2 ^ 32), ?_⟩
  cases hs : k.send m.trace.length h with
  | sent n =>
    refine ⟨.took (buf.take (min n (Int.bmod buf.length (2 ^ 32)).toNat)), ?_, ?_, ?_⟩
    · simp only [Manager.send, hs]
    · intro h
      cases h
    · intro w hw
      cases hw
      exact ⟨_, (List.take_append_drop _ buf).symm⟩
  | again =>
    refine ⟨.again, ?_, ?_, ?_⟩
    · simp only [Manager.send, hs]
    · intro h
      cases h
    · intro w hw
      cases hw
      exact ⟨buf, rfl⟩
  | fail =>
    refine ⟨.fail, ?_, fun _ => rfl, ?_⟩
    · simp only [Manager.send, hs]
    · intro w hw
      cases hw

/-- The guards of `sendPacket`: the call makes a frame of `d` for `c`. -/
def Frames (peer : PeerID) (data : Option (List UInt8)) (m : Manager) (d : List UInt8)
    (c : Connection) : Prop :=
  data = some d ∧ UInt32.ofNat d.length ≠ 0 ∧ m.mConnections.lookup peer = some c ∧
    c.connected = true

/-- What `sendPacket` does. -/
inductive Sends (k : Kernel) (peer : PeerID) (data : Option (List UInt8)) (m : Manager) :
    Bool → Manager → Prop where
  | refused : (∀ d c, ¬ Frames peer data m d c) → Sends k peer data m false m
  /-- The kernel took `w` off the frame; the rest waits. -/
  | sent {d : List UInt8} {c : Connection} {len : Int} {r : Sent} {w rest : List UInt8} :
      Frames peer data m d c → r.bytes = some w → createSendFrame d = w ++ rest →
      ((m.log (.packet c.socket d)).send k c.socket (createSendFrame d)).1 = r →
      Sends k peer data m true
        (((m.log (.packet c.socket d)).log
          (.send c.socket (createSendFrame d).length len r)).setConn peer
            { c with sendBuffer := c.sendBuffer ++ rest })
  | failed {d : List UInt8} {c : Connection} {len : Int} :
      Frames peer data m d c → k.send (m.trace.length + 1) c.socket = .fail →
      Sends k peer data m false
        ((((m.log (.packet c.socket d)).log
          (.send c.socket (createSendFrame d).length len .fail)).setConn peer
            { c with connected := false }).pushPending peer)

theorem sendPacket_sends (k : Kernel) (peer : PeerID) (data : Option (List UInt8)) (m : Manager) :
    Sends k peer data m (sendPacket k peer data m).1 (sendPacket k peer data m).2 := by
  unfold sendPacket
  cases data with
  | none => exact .refused fun d c h => by cases h.1
  | some d =>
    simp only
    by_cases hsize : UInt32.ofNat d.length = 0
    · rw [if_pos (by simpa using hsize)]
      refine .refused fun d' c h => ?_
      cases h.1
      exact h.2.1 hsize
    · rw [if_neg (by simpa using hsize)]
      cases hc : m.mConnections.lookup peer with
      | none =>
        refine .refused fun d' c h => ?_
        have := hc.symm.trans h.2.2.1
        cases this
      | some c =>
        by_cases hconn : c.connected = true
        · have hf : Frames peer (some d) m d c := ⟨rfl, hsize, hc, hconn⟩
          obtain ⟨len, r, hs, hfail, hw⟩ :=
            Manager.send_split k c.socket (createSendFrame d) (m.log (.packet c.socket d))
          have hr : ((m.log (.packet c.socket d)).send k c.socket (createSendFrame d)).1 = r :=
            congrArg Prod.fst hs
          simp only
          rw [if_neg (by simp [hconn]), hs]
          cases r with
          | again => exact .sent hf rfl (List.nil_append _).symm hr
          | fail => exact .failed hf (hfail rfl)
          | took w =>
            obtain ⟨rest, he⟩ := hw w rfl
            have hdrop : (createSendFrame d).drop w.length = rest := by
              rw [he, List.drop_left]
            by_cases hlt : w.length < (createSendFrame d).length
            · simp only [if_pos hlt, hdrop]
              exact .sent hf rfl he hr
            · have hrest : rest = [] := by
                rw [he, List.length_append] at hlt
                exact List.length_eq_zero_iff.mp (by omega)
              have := @Sends.sent k peer (some d) m d c len _ w rest hf rfl he hr
              rw [hrest, List.append_nil, Manager.setConn_self (by exact hc)] at this
              simpa only [if_neg hlt] using this
        · simp only
          rw [if_pos (by simp [hconn])]
          refine .refused fun d' c' h => ?_
          have := hc.symm.trans h.2.2.1
          cases this
          exact hconn h.2.2.2

/-- What `processWrite` does. -/
inductive Writes (k : Kernel) (peer : PeerID) (c : Connection) (m : Manager) : Manager → Prop where
  | nothing : c.sendBuffer = [] → Writes k peer c m m
  | sent {len : Int} {r : Sent} {w rest : List UInt8} : c.sendBuffer ≠ [] →
      r.bytes = some w → c.sendBuffer = w ++ rest →
      Writes k peer c m ((m.log (.send c.socket c.sendBuffer.length len r)).setConn peer
        { c with sendBuffer := rest })
  | failed {len : Int} : c.sendBuffer ≠ [] → k.send m.trace.length c.socket = .fail →
      Writes k peer c m ((m.log (.send c.socket c.sendBuffer.length len .fail)).drop peer c)

theorem processWrite_writes {c : Connection} (hc : m.mConnections.lookup peer = some c) :
    Writes k peer c m (processWrite k peer c m) := by
  unfold processWrite
  by_cases hbuf : c.sendBuffer = []
  · rw [if_pos (by simp [hbuf])]
    exact .nothing hbuf
  · rw [if_neg (by simpa using hbuf)]
    obtain ⟨len, r, hs, hfail, hw⟩ := Manager.send_split k c.socket c.sendBuffer m
    simp only [hs]
    have unchanged : ∀ r : Sent, r.bytes = some [] → Writes k peer c m
        (m.log (.send c.socket c.sendBuffer.length len r)) := by
      intro r hr
      have := @Writes.sent k peer c m len r [] c.sendBuffer hbuf hr rfl
      rwa [Manager.setConn_self (by exact hc)] at this
    cases r with
    | again => exact unchanged .again rfl
    | fail => exact .failed hbuf (hfail rfl)
    | took w =>
      obtain ⟨rest, he⟩ := hw w rfl
      cases w with
      | nil => simpa using unchanged (.took []) rfl
      | cons b w =>
        have hdrop : c.sendBuffer.drop (b :: w).length = rest := by rw [he, List.drop_left]
        simp only [List.length_cons, gt_iff_lt, Nat.zero_lt_succ, if_true] at hdrop ⊢
        rw [hdrop]
        exact .sent hbuf rfl he

/-! ## The argument of `send()` -/

theorem length_createSendFrame (d : List UInt8) : (createSendFrame d).length = d.length + 4 := by
  simp [createSendFrame]

theorem Manager.send_eq (k : Kernel) (h : SocketHandle) (buf : List UInt8) (m : Manager) :
    ∃ r, m.send k h buf = (r, m.log (.send h buf.length (Int.bmod buf.length (2 ^ 32)) r)) :=
  ⟨_, rfl⟩

theorem sendPacket_send {d : List UInt8} {c : Connection} (hf : Frames peer (some d) m d c) :
    ∃ r, (sendPacket k peer (some d) m).2.trace =
      .send c.socket (createSendFrame d).length (Int.bmod (createSendFrame d).length (2 ^ 32)) r ::
        .packet c.socket d :: m.trace := by
  obtain ⟨-, hsize, hc, hconn⟩ := hf
  obtain ⟨r, hs⟩ := Manager.send_eq k c.socket (createSendFrame d) (m.log (.packet c.socket d))
  refine ⟨r, ?_⟩
  have hpositive : ¬ (UInt32.ofNat d.length == 0) = true := by simpa using hsize
  simp only [sendPacket, if_neg hpositive, hc, hconn, Bool.not_true, Bool.false_eq_true, if_false,
    hs]
  cases r with
  | again | fail => rfl
  | took bytes =>
    dsimp only
    split <;> rfl

theorem processWrite_send {c : Connection} (hne : c.sendBuffer ≠ []) :
    ∃ r, (processWrite k peer c m).trace =
      .send c.socket c.sendBuffer.length (Int.bmod c.sendBuffer.length (2 ^ 32)) r :: m.trace := by
  obtain ⟨r, hs⟩ := Manager.send_eq k c.socket c.sendBuffer m
  refine ⟨r, ?_⟩
  simp only [processWrite, if_neg (show ¬ c.sendBuffer.isEmpty = true by simpa using hne), hs]
  cases r with
  | again | fail => rfl
  | took bytes =>
    dsimp only
    split <;> rfl

/-! ## Runs -/

/-- A call on the connection of one peer. -/
inductive SendOp where
  | sendPacket (data : Option (List UInt8))
  | processWrite

def sendStep (peer : PeerID) (i : Kernel × SendOp) (m : Manager) : Option Manager :=
  match i.2 with
  | .sendPacket data => some (sendPacket i.1 peer data m).2
  | .processWrite => (m.mConnections.lookup peer).map (processWrite i.1 peer · m)

/-- The packet of a `sendPacket` call that returns true. -/
def acceptedBy (peer : PeerID) (i : Kernel × SendOp) (m : Manager) : List Packet :=
  match i.2 with
  | .sendPacket (some data) => if (sendPacket i.1 peer (some data) m).1 then [data] else []
  | _ => []

/-- The packets of the `sendPacket` calls of a run that returned true, in order. -/
def accepted (peer : PeerID) : List (Kernel × SendOp) → Manager → List Packet
  | [], _ => []
  | i :: is, m => acceptedBy peer i m ++ ((sendStep peer i m).map (accepted peer is)).getD []

/-- `sendPacket` makes a frame while bytes wait in `sendBuffer`, and the kernel
takes at least one byte of it. -/
def overtakes (peer : PeerID) (i : Kernel × SendOp) (m : Manager) : Bool :=
  match i.2, m.mConnections.lookup peer with
  | .sendPacket (some data), some c =>
    UInt32.ofNat data.length != 0 && c.connected && !c.sendBuffer.isEmpty &&
      match i.1.send (m.trace.length + 1) c.socket with
      | .sent n => 0 < min n (Int.bmod (createSendFrame data).length (2 ^ 32)).toNat
      | _ => false
  | _, _ => false

/-- No call of `send()` fails hard. -/
def Kernel.Soft (k : Kernel) : Prop := ∀ n h, k.send n h ≠ .fail

/-- A frame that does not overtake waits as a whole, or nothing waits before it. -/
theorem empty_of_not_overtakes {d w : List UInt8} {c : Connection} {r : Sent}
    (hf : Frames peer (some d) m d c) (hw : r.bytes = some w)
    (hr : ((m.log (.packet c.socket d)).send k c.socket (createSendFrame d)).1 = r)
    (hno : overtakes peer (k, .sendPacket (some d)) m = false) : c.sendBuffer = [] ∨ w = [] := by
  obtain ⟨-, hsize, hc, hconn⟩ := hf
  by_cases hbuf : c.sendBuffer = []
  · exact .inl hbuf
  · refine .inr ?_
    simp only [overtakes, hc, hconn] at hno
    simp only [Manager.send, Manager.log_trace, List.length_cons] at hr
    cases hs : k.send (m.trace.length + 1) c.socket with
    | sent n =>
      rw [hs] at hno hr
      have hzero : min n (Int.bmod (createSendFrame d).length (2 ^ 32)).toNat = 0 := by
        refine Nat.eq_zero_of_not_pos fun hpos => ?_
        simp only [decide_eq_true hpos] at hno
        simp [hsize, hbuf] at hno
      simp only [hzero, List.take_zero] at hr
      cases hr
      cases hw
      rfl
    | again =>
      rw [hs] at hr
      cases hr
      cases hw
      rfl
    | fail =>
      rw [hs] at hr
      cases hr
      cases hw

/-- **One call**: what is on the wire and what waits grows by the frame of the
packet accepted. -/
theorem sendStep_stream {i : Kernel × SendOp} {c : Connection}
    (hc : m.mConnections.lookup peer = some c) (hsoft : i.1.Soft)
    (hno : overtakes peer i m = false) (h : sendStep peer i m = some m') :
    ∃ c', m'.mConnections.lookup peer = some c' ∧ c'.socket = c.socket ∧
      sent c.socket m'.trace ++ c'.sendBuffer =
        sent c.socket m.trace ++ c.sendBuffer ++ (acceptedBy peer i m).flatMap createSendFrame := by
  obtain ⟨k, op⟩ := i
  cases op with
  | sendPacket data =>
    cases h
    have hsend := sendPacket_sends k peer data m
    generalize hm : (sendPacket k peer data m).2 = m' at hsend ⊢
    generalize hb : (sendPacket k peer data m).1 = b at hsend
    cases hsend with
    | refused _ =>
      have : acceptedBy peer (k, .sendPacket data) m = [] := by
        cases data with
        | none => rfl
        | some d => simp only [acceptedBy, hb, Bool.false_eq_true, if_false]
      rw [this]
      exact ⟨c, hc, rfl, (List.append_nil _).symm⟩
    | @sent d c₀ len r w rest hf hw hsplit hr =>
      obtain ⟨rfl, -, hc₀, -⟩ := id hf
      rw [hc] at hc₀
      cases hc₀
      have hacc : acceptedBy peer (k, .sendPacket (some d)) m = [d] := by
        simp only [acceptedBy, hb, if_true]
      refine ⟨_, Manager.setConn_lookup_self hc, rfl, ?_⟩
      have hpacket : sent c.socket (.packet c.socket d :: m.trace) = sent c.socket m.trace := rfl
      rw [Manager.setConn_trace, Manager.log_trace, Manager.log_trace, sent_send hw, hpacket, hacc,
        List.flatMap_singleton, hsplit]
      rcases empty_of_not_overtakes hf hw hr hno with h0 | h0
      · simp only [h0, List.append_nil, List.nil_append, List.append_assoc]
      · simp only [h0, List.append_nil, List.nil_append, List.append_assoc]
    | failed _ hfail => exact absurd hfail (hsoft _ _)
  | processWrite =>
    have hstep : sendStep peer (k, .processWrite) m = some (processWrite k peer c m) := by
      simp only [sendStep, hc, Option.map_some]
    rw [hstep] at h
    cases h
    have hacc : (acceptedBy peer (k, .processWrite) m).flatMap createSendFrame = [] := rfl
    rw [hacc, List.append_nil]
    have hw := processWrite_writes (k := k) hc
    generalize processWrite k peer c m = m' at hw ⊢
    cases hw with
    | nothing _ => exact ⟨c, hc, rfl, rfl⟩
    | @sent len r w rest _ hr hsplit =>
      refine ⟨_, Manager.setConn_lookup_self hc, rfl, ?_⟩
      rw [Manager.setConn_trace, Manager.log_trace, sent_send hr, hsplit, List.append_assoc]
    | failed _ hfail => exact absurd hfail (hsoft _ _)

/-- The run rule: the invariant is that wire and buffer together grow by frames. -/
theorem sendRun_stream {is : List (Kernel × SendOp)} {c : Connection}
    (hc : m.mConnections.lookup peer = some c) (hsoft : ∀ i ∈ is, i.1.Soft)
    (hno : Runs.Meets (sendStep peer) (fun i m => overtakes peer i m = false) is m)
    (h : Runs.run (sendStep peer) is m = some m') :
    ∃ c', m'.mConnections.lookup peer = some c' ∧ c'.socket = c.socket ∧
      sent c.socket m'.trace ++ c'.sendBuffer =
        sent c.socket m.trace ++ c.sendBuffer ++ (accepted peer is m).flatMap createSendFrame := by
  induction is generalizing m c with
  | nil =>
    cases h
    exact ⟨c, hc, rfl, (List.append_nil _).symm⟩
  | cons i is ih =>
    obtain ⟨m₁, hm₁, hr⟩ := Runs.run_cons_iff.mp h
    obtain ⟨c₁, hc₁, hsock, hone⟩ :=
      sendStep_stream hc (hsoft i (List.mem_cons_self ..)) hno.1 hm₁
    obtain ⟨c', hc', hsock', hrest⟩ :=
      ih hc₁ (fun j hj => hsoft j (List.mem_cons_of_mem _ hj)) (hno.2 m₁ hm₁) hr
    refine ⟨c', hc', hsock'.trans hsock, ?_⟩
    rw [hsock] at hrest
    simp only [accepted, hm₁, Option.map_some, Option.getD_some]
    rw [hrest, hone, List.flatMap_append, List.append_assoc]

/-- **The outgoing stream of a new connection**: as long as no frame overtakes
bytes waiting in `sendBuffer` and no `send()` fails hard, the bytes the kernel
has taken followed by the buffer are the frames of the packets accepted, in
order. -/
theorem outgoing_stream {is : List (Kernel × SendOp)} {c : Connection}
    (hc : m.mConnections.lookup peer = some c)
    (hnew : sent c.socket m.trace = [] ∧ c.sendBuffer = []) (hsoft : ∀ i ∈ is, i.1.Soft)
    (hno : Runs.Meets (sendStep peer) (fun i m => overtakes peer i m = false) is m)
    (h : Runs.run (sendStep peer) is m = some m') :
    ∃ c', m'.mConnections.lookup peer = some c' ∧ c'.socket = c.socket ∧
      sent c.socket m'.trace ++ c'.sendBuffer = (accepted peer is m).flatMap createSendFrame := by
  obtain ⟨c', hc', hsock, hs⟩ := sendRun_stream hc hsoft hno h
  refine ⟨c', hc', hsock, ?_⟩
  rw [hs, hnew.1, hnew.2, List.nil_append, List.nil_append]

/-- A manager with one peer, connected on the handle 7. -/
def onePeer : Manager :=
  ((connect (fun _ _ _ w => some w) { socket := fun _ => 7 } (some ['r']) 27015
    { mgr := { mInitialized := true }, user := () }).get (by decide +kernel)).2.mgr

/-- The first frame is taken in part, the second waits behind it, and the buffer is written. -/
def waitingRun : List (Kernel × SendOp) :=
  [({ send := fun _ _ => .sent 2 }, .sendPacket (some [1])),
    ({ send := fun _ _ => .again }, .sendPacket (some [2])),
    ({ send := fun _ _ => .sent 6 }, .processWrite)]

theorem waitingRun_stream :
    ∃ m' c', Runs.run (sendStep 1) waitingRun onePeer = some m' ∧
      m'.mConnections.lookup 1 = some c' ∧
      sent 7 m'.trace ++ c'.sendBuffer = [1, 0, 0, 0, 1, 1, 0, 0, 0, 2] := by
  let c := (onePeer.mConnections.lookup 1).get (by decide +kernel)
  let m' := (Runs.run (sendStep 1) waitingRun onePeer).get (by decide +kernel)
  have hc : onePeer.mConnections.lookup 1 = some c := by simp [c]
  have hr : Runs.run (sendStep 1) waitingRun onePeer = some m' := by simp [m']
  have hsoft : ∀ i ∈ waitingRun, i.1.Soft := by
    simp [waitingRun, Kernel.Soft]
  obtain ⟨c', hc', -, hs⟩ :=
    outgoing_stream hc (by decide +kernel) hsoft (by decide +kernel) hr
  have hsock : c.socket = 7 := by decide +kernel
  refine ⟨m', c', hr, hc', ?_⟩
  rw [hsock] at hs
  rw [hs]
  decide +kernel

/-- The first frame is taken in part, and the second as a whole. -/
def overtakingRun : List (Kernel × SendOp) :=
  [({ send := fun _ _ => .sent 2 }, .sendPacket (some [1])),
    ({ send := fun _ _ => .sent 5 }, .sendPacket (some [2]))]

/-- The wire gets `1 0`, then all of `1 0 0 0 2`, and `0 0 1` still waits. -/
theorem overtaking_stream :
    (∀ i ∈ overtakingRun, i.1.Soft) ∧
    ∃ m' c', Runs.run (sendStep 1) overtakingRun onePeer = some m' ∧
      m'.mConnections.lookup 1 = some c' ∧ c'.socket = 7 ∧
      sent 7 m'.trace = [1, 0, 1, 0, 0, 0, 2] ∧ c'.sendBuffer = [0, 0, 1] ∧
      accepted 1 overtakingRun onePeer = [[1], [2]] ∧
      sent 7 m'.trace ++ c'.sendBuffer ≠
        (accepted 1 overtakingRun onePeer).flatMap createSendFrame := by
  let m' := (Runs.run (sendStep 1) overtakingRun onePeer).get (by decide +kernel)
  let c' := (m'.mConnections.lookup 1).get (by decide +kernel)
  refine ⟨by simp [overtakingRun, Kernel.Soft], m', c', by simp [m'], by simp [c'], ?_⟩
  decide +kernel

end IsaacP2P.Client
