import IsaacP2P.Relay.Arrays

/-!
# The receive buffer has room

Between two events a receive buffer is an incomplete packet (`Intake`), and the
longest packet the length test lets pass fills the array exactly: `4 + 65532 =
65536`. So a buffer is never full when `read()` is called, and the space behind
an incomplete packet is enough for what is missing of it.

`Awaits` is that situation: the connection goes from one such state to the next as
the packet arrives, however it is cut and whatever happens in between.
-/

namespace IsaacP2P.Relay

open LengthPrefixed (frame next)

variable {k : Kernel} {s : Server} {fd : Fd} {mc mc' : Machine} {c : Connection}
  {b p got missing rest : List UInt8}

/-! ## Room -/

theorem Agrees.len_eq (ha : Agrees mc) (hc : mc.server.gConnections.lookup fd = some c) :
    (mc.recvBufs fd).len = c.recvBuf.length := by
  rw [← ha fd c hc, FilledArray.length_contents]

theorem Intake.len_lt (hin : Intake mc.server) (ha : Agrees mc)
    (hc : mc.server.gConnections.lookup fd = some c) : (mc.recvBufs fd).len < bufferSize := by
  have hlen := LengthPrefixed.length_of_wait (hin.waits hc)
  rw [ha.len_eq hc]
  simp only [maxPayload, bufferSize] at *
  omega

/-- A receive that returns leaves room in every buffer. -/
theorem handleClientDataAt_len_lt (hi : Inv mc.server) (hin : Intake mc.server) (ha : Agrees mc)
    (h : handleClientDataAt k fd mc = .ok mc') {g : Fd} (hg : g ∈ mc'.server.gConnections) :
    (mc'.recvBufs g).len < bufferSize := by
  have hm := handleClientDataAt_matches k fd hi ha
  rw [h] at hm
  generalize hs : handleClientData k fd mc.server = r at hm
  cases hm with
  | ok hok =>
    obtain ⟨rfl, ha'⟩ := hok
    obtain ⟨c, hc⟩ := AssocList.exists_lookup hg
    exact ((handleClientData_receives hi hs).intake_all hi hin).len_lt ha' hc

/-- The one fault of a receive. -/
theorem handleClientDataAt_error (hi : Inv mc.server) (ha : Agrees mc) {f : Fault}
    (h : handleClientDataAt k fd mc = .error f) :
    f = .dangling ∧ ∃ p m, DataCalls k fd mc.server p m ∧ SelfForwardFails k fd p m := by
  have hm := handleClientDataAt_matches k fd hi ha
  rw [h] at hm
  generalize hs : handleClientData k fd mc.server = r at hm
  cases hm with
  | dangling => exact ⟨rfl, (handleClientData_eq_none_iff hi fd).mp hs⟩

/-! ## Completion -/

/-- The connection of `fd` holds the packet `p`, of a legal length, but for the
bytes that are missing. -/
structure Awaits (fd : Fd) (p missing : List UInt8) (mc : Machine) : Prop where
  conn : fd ∈ mc.server.gConnections
  nonempty : p ≠ []
  legal : p.length ≤ maxPayload
  holds : (mc.recvBufs fd).contents ++ missing = frame p
  incomplete : missing ≠ []

theorem Awaits.length_lt (h : Awaits fd p missing mc) : p.length < 256 ^ 4 := by
  have := h.legal
  simp only [maxPayload] at this
  omega

theorem Awaits.space (h : Awaits fd p missing mc) :
    missing.length ≤ bufferSize - (mc.recvBufs fd).len := by
  have hlen := congrArg List.length h.holds
  have := h.legal
  rw [List.length_append, FilledArray.length_contents, LengthPrefixed.length_frame] at hlen
  simp only [maxPayload, bufferSize] at *
  omega

theorem Awaits.waits (h : Awaits fd p missing mc) (hm : missing = got ++ rest) (hrest : rest ≠ []) :
    next maxPayload ((mc.recvBufs fd).contents ++ got) = .wait := by
  have hframe : (mc.recvBufs fd).contents ++ got ++ rest = frame p := by
    rw [List.append_assoc, ← hm, h.holds]
  have hlen := congrArg List.length hframe
  have hpos : 0 < rest.length := List.length_pos_iff.mpr hrest
  rw [List.length_append] at hlen
  exact LengthPrefixed.next_of_prefix h.length_lt h.nonempty h.legal ⟨rest, hframe⟩ (by omega)

theorem handleClientData_waits (hc : s.gConnections.lookup fd = some c) (hr : k.read fd = .bytes b)
    (hb : b ≠ []) (hfit : b.length ≤ bufferSize - c.recvBuf.length)
    (hw : next maxPayload (c.recvBuf ++ b) = .wait) :
    handleClientData k fd s =
      some ((s.log (.read fd b)).setConn fd { c with recvBuf := c.recvBuf ++ b }) := by
  have hpos : 0 < b.length := List.length_pos_iff.mpr hb
  obtain ⟨n, hn⟩ := Nat.exists_eq_add_one.mpr
    (show 0 < (c.recvBuf ++ b).length by rw [List.length_append]; omega)
  have hne : b.isEmpty = false := List.isEmpty_eq_false_iff.mpr hb
  have hself : ((s.log (.read fd b)).setConn fd
      { c with recvBuf := c.recvBuf ++ b }).gConnections.lookup fd =
        some { c with recvBuf := c.recvBuf ++ b } := Server.setConn_lookup_self hc
  simp only [handleClientData, hc, hr, List.take_of_length_le hfit, hne, hn, Bool.false_eq_true,
    if_false]
  rw [if_neg (by omega), packetLoop_succ hself]
  simp only [hw]

theorem Awaits.piece (h : Awaits fd p missing mc) (hi : Inv mc.server) (ha : Agrees mc)
    (hr : k.read fd = .bytes b) (hb : b ≠ []) (hm : missing = b ++ rest) (hrest : rest ≠ []) :
    ∃ mc', handleClientDataAt k fd mc = .ok mc' ∧ Awaits fd p rest mc' := by
  obtain ⟨c, hc⟩ := AssocList.exists_lookup h.conn
  have hspace := h.space
  have hwait := h.waits hm hrest
  rw [ha fd c hc] at hwait
  rw [ha.len_eq hc, hm, List.length_append] at hspace
  have hs := handleClientData_waits hc hr hb (by omega) hwait
  have hmatch := handleClientDataAt_matches k fd hi ha
  rw [hs] at hmatch
  generalize handleClientDataAt k fd mc = r at hmatch ⊢
  cases hmatch with
  | @ok mc' _ hok =>
    obtain ⟨hserver, ha'⟩ := hok
    have hc' : mc'.server.gConnections.lookup fd = some { c with recvBuf := c.recvBuf ++ b } := by
      rw [hserver]
      exact Server.setConn_lookup_self hc
    refine ⟨mc', rfl, ?_, h.nonempty, h.legal, ?_, hrest⟩
    · rw [← AList.lookup_isSome, hc']
      rfl
    · rw [ha' fd _ hc', ← h.holds, ha fd c hc, hm, List.append_assoc]

theorem Awaits.complete (h : Awaits fd p missing mc) (ha : Agrees mc) (hr : k.read fd = .bytes b)
    (hb : missing <+: b) : ∃ m, DataCalls k fd mc.server p m := by
  obtain ⟨c, hc⟩ := AssocList.exists_lookup h.conn
  obtain ⟨more, rfl⟩ := hb
  have hspace := h.space
  rw [ha.len_eq hc] at hspace
  have htake : (missing ++ more).take (bufferSize - c.recvBuf.length) =
      missing ++ more.take (bufferSize - c.recvBuf.length - missing.length) := by
    rw [List.take_append, List.take_of_length_le hspace]
  have hne : (missing ++ more).take (bufferSize - c.recvBuf.length) ≠ [] := by
    rw [htake]
    exact List.append_ne_nil_of_left_ne_nil h.incomplete _
  have hnext : next maxPayload
      (c.recvBuf ++ (missing ++ more).take (bufferSize - c.recvBuf.length)) =
        .item p (more.take (bufferSize - c.recvBuf.length - missing.length)) := by
    rw [htake, ← List.append_assoc, ← ha fd c hc, h.holds]
    exact LengthPrefixed.next_frame h.length_lt h.nonempty h.legal _
  exact ⟨_, c, _, hc, hr, hne, .here (Server.setConn_lookup_self hc) hnext⟩

/-- Whatever the server does until then, the connection awaits the bytes it has
not read yet. -/
theorem Awaits.later (h : Awaits fd p missing mc) (hin : Intake mc.server) (ha : Agrees mc)
    (hin' : Intake mc'.server) (ha' : Agrees mc') (hconn : fd ∈ mc'.server.gConnections)
    (hgot : consumed fd mc'.server.trace = consumed fd mc.server.trace ++ got)
    (hm : missing = got ++ rest) (hrest : rest ≠ []) : Awaits fd p rest mc' := by
  obtain ⟨c, hc⟩ := AssocList.exists_lookup h.conn
  obtain ⟨c', hc'⟩ := AssocList.exists_lookup hconn
  have hwait := h.waits hm hrest
  rw [ha fd c hc] at hwait
  have hdecodes := hin' fd c' hc'
  rw [hgot] at hdecodes
  obtain ⟨-, hrecv⟩ := hdecodes.unique ⟨(hin fd c hc).1.append got, hwait⟩
  refine ⟨hconn, h.nonempty, h.legal, ?_, hrest⟩
  rw [ha' fd c' hc', hrecv, List.append_assoc, ← hm, ← ha fd c hc, h.holds]

/-- **The receive buffer neither overflows nor jams.** The one fault of a receive is
a failed forward of the sender to itself; a receive that returns leaves room, so
there is room whenever `read()` is called; and a packet of a legal length is
completed by the bytes that are missing of it, in whatever pieces they arrive. -/
theorem receive_buffer_safe (h : ReachableAt mc) :
    (∀ k fd f, handleClientDataAt k fd mc = .error f →
      f = .dangling ∧ ∃ p m, DataCalls k fd mc.server p m ∧ SelfForwardFails k fd p m) ∧
    (∀ k fd mc', handleClientDataAt k fd mc = .ok mc' →
      ∀ g ∈ mc'.server.gConnections, (mc'.recvBufs g).len < bufferSize) ∧
    (∀ fd ∈ mc.server.gConnections, (mc.recvBufs fd).len < bufferSize) ∧
    ∀ fd p missing, Awaits fd p missing mc →
      missing.length ≤ bufferSize - (mc.recvBufs fd).len ∧
      (∀ k b rest, k.read fd = .bytes b → b ≠ [] → missing = b ++ rest → rest ≠ [] →
        ∃ mc', handleClientDataAt k fd mc = .ok mc' ∧ Awaits fd p rest mc') ∧
      (∀ k b, k.read fd = .bytes b → missing <+: b → ∃ m, DataCalls k fd mc.server p m) ∧
      ∀ mc' got rest, ReachableAt mc' → fd ∈ mc'.server.gConnections →
        consumed fd mc'.server.trace = consumed fd mc.server.trace ++ got →
        missing = got ++ rest → rest ≠ [] → Awaits fd p rest mc' := by
  obtain ⟨hreach, ha⟩ := reachableAt_agrees h
  have hi := reachable_inv hreach
  have hin := reachable_intake hreach
  refine ⟨fun k fd f hf => handleClientDataAt_error hi ha hf,
    fun k fd mc' hok g hg => handleClientDataAt_len_lt hi hin ha hok hg, fun fd hfd => ?_,
    fun fd p missing hw => ⟨hw.space, fun k b rest hr hb hm hrest => hw.piece hi ha hr hb hm hrest,
      fun k b hr hb => hw.complete ha hr hb, fun mc' got rest h' hconn hgot hm hrest => ?_⟩⟩
  · obtain ⟨c, hc⟩ := AssocList.exists_lookup hfd
    exact hin.len_lt ha hc
  · obtain ⟨hreach', ha'⟩ := reachableAt_agrees h'
    exact hw.later hin ha (reachable_intake hreach') ha' hconn hgot hm hrest

/-- A client connects on descriptor 5 and sends three bytes of a length. -/
def partialLength : List (Kernel × Event) :=
  [({ accept := some 5 }, { fd := 3, input := true }),
    ({ read := fun _ => .bytes [2, 0, 0] }, { fd := 5, input := true })]

theorem partialLength_completed : ∃ mc, ReachableAt mc ∧ Awaits 5 [7, 8] [0, 7, 8] mc ∧
    (mc.recvBufs 5).len < bufferSize ∧
    (∃ mc', handleClientDataAt { read := fun _ => .bytes [0] } 5 mc = .ok mc' ∧
      Awaits 5 [7, 8] [7, 8] mc') ∧
    ∃ m, DataCalls { read := fun _ => .bytes [0, 7, 8] } 5 mc.server [7, 8] m := by
  let mc := (Runs.run (fun i mc => (stepAt i mc).toOption) partialLength (startAt 3 4)).get
    (by decide)
  have hr : ReachableAt mc := ⟨3, 4, partialLength, by simp [mc]⟩
  have hw : Awaits 5 [7, 8] [0, 7, 8] mc := by
    refine ⟨by decide, by decide, by decide, ?_, by decide⟩
    have : (mc.recvBufs 5).contents = [2, 0, 0] := by rfl
    rw [this]
    rfl
  obtain ⟨-, -, hroom, hcomplete⟩ := receive_buffer_safe hr
  obtain ⟨-, hpiece, hlast, -⟩ := hcomplete 5 [7, 8] [0, 7, 8] hw
  exact ⟨mc, hr, hw, hroom 5 hw.conn, hpiece _ [0] [7, 8] rfl (by decide) rfl (by decide),
    hlast _ [0, 7, 8] rfl List.prefix_rfl⟩

end IsaacP2P.Relay
