import IsaacP2P.Relay.Packets

/-!
# The handlers and the event loop

`Accepts` and `Receives` list the ways `handle_new_connection` and
`handle_client_data` end; the third handler is a flush. From these the
invariant is kept by a dispatched event (`step_inv`) and holds in every state
of the event loop (`reachable_inv`).
-/

namespace IsaacP2P.Relay

variable {k : Kernel} {s s' : Server} {fd : Fd}

/-! ## Accepting -/

/-- `accept` returns `f`, and the connection gets an entry. -/
def Admits (k : Kernel) (s : Server) (f : Fd) : Prop :=
  k.accept.filter s.free = some f ∧ s.gConnections.entries.length < maxConnections ∧
    k.setNonblocking f = true ∧ k.epollCtl (s.trace.length + 1) f = true

/-- The server with a new entry for `f`. -/
def Server.enter (f : Fd) (s : Server) : Server :=
  { (s.log (.accept f)).log (.epollAdd f true) with
    gConnections := s.gConnections.insert f (.ofSocket f) }

inductive Accepts (k : Kernel) (s : Server) : Server → Prop where
  | nothing : k.accept.filter s.free = none → Accepts k s s
  /-- The table is full, or a call on the new socket failed. -/
  | refused {f : Fd} {new : List Ev} : k.accept.filter s.free = some f → ¬ Admits k s f →
      (new = [] ∨ ∃ ok, new = [.epollAdd f ok]) →
      Accepts k s (s.logs (.close f :: new ++ [.accept f]))
  | accepted {f : Fd} : Admits k s f → Accepts k s (s.enter f)

theorem Server.free_iff {f : Fd} :
    s.free f = true ↔ 0 ≤ f ∧ f ≠ s.listenFd ∧ f ≠ s.epfd ∧ isOpen f s.trace = false := by
  simp [Server.free, and_assoc]

theorem free_of_accept {f : Fd} (h : k.accept.filter s.free = some f) : s.free f = true :=
  (Option.filter_eq_some_iff.mp h).2

theorem handleNewConnection_accepts (k : Kernel) (s : Server) :
    Accepts k s (handleNewConnection k s) := by
  unfold handleNewConnection
  cases ha : k.accept.filter s.free with
  | none => exact .nothing ha
  | some f =>
    by_cases hsize : (s.log (.accept f)).gConnections.entries.length ≥ maxConnections
    · simp only [if_pos hsize]
      exact .refused ha (fun h => Nat.not_lt.mpr hsize h.2.1) (.inl rfl)
    · simp only [if_neg hsize]
      by_cases hnb : k.setNonblocking f = true
      · rw [if_neg (by simp [hnb])]
        cases hok : k.epollCtl (s.log (.accept f)).trace.length f with
        | false =>
          refine .refused ha (fun h => ?_) (.inr ⟨_, rfl⟩)
          have := h.2.2.2.symm.trans hok
          cases this
        | true => exact .accepted ⟨ha, Nat.lt_of_not_le hsize, hnb, hok⟩
      · rw [if_pos (by simpa using hnb)]
        exact .refused ha (fun h => hnb h.2.2.1) (.inl rfl)

theorem Accepts.inv (h : Accepts k s s') (hi : Inv s) : Inv s' := by
  cases h with
  | nothing _ => exact hi
  | refused hf _ hnew => exact hi.refused (Server.free_iff.mp (free_of_accept hf)).2.2.2 hnew
  | accepted hf =>
    obtain ⟨h0, -, -, hopen⟩ := Server.free_iff.mp (free_of_accept hf.1)
    exact hi.accepted hopen h0 hf.2.1 true

/-! ## Receiving -/

/-- What `read()` delivers into the space behind the `len` bytes received. -/
def Kernel.received (k : Kernel) (fd : Fd) (len : Nat) : List UInt8 :=
  match k.read fd with
  | .bytes b => b.take (bufferSize - len)
  | _ => []

inductive Receives (k : Kernel) (fd : Fd) (s : Server) : Server → Prop where
  | unknown : s.gConnections.lookup fd = none → Receives k fd s (closeConnection fd s)
  | full {c : Connection} : s.gConnections.lookup fd = some c → bufferSize ≤ c.recvBuf.length →
      Receives k fd s (closeConnection fd s)
  /-- End of file, or a hard error. -/
  | ended {c : Connection} : s.gConnections.lookup fd = some c →
      k.received fd c.recvBuf.length = [] →
      Receives k fd s (closeConnection fd (s.log (.read fd [])))
  | again {c : Connection} : s.gConnections.lookup fd = some c → k.read fd = .again →
      Receives k fd s (s.log (.read fd []))
  | data {c : Connection} {b : List UInt8} {s' : Server} :
      s.gConnections.lookup fd = some c → k.received fd c.recvBuf.length = b → b ≠ [] →
      Loop k fd ((s.log (.read fd b)).setConn fd { c with recvBuf := c.recvBuf ++ b }) s' →
      Receives k fd s s'

theorem handleClientData_receives (hi : Inv s) (h : handleClientData k fd s = some s') :
    Receives k fd s s' := by
  unfold handleClientData at h
  cases hc : s.gConnections.lookup fd with
  | none =>
    rw [hc] at h
    cases h
    exact .unknown hc
  | some c =>
    simp only [hc] at h
    by_cases hfull : bufferSize - c.recvBuf.length = 0
    · rw [if_pos hfull] at h
      cases h
      exact .full hc (by omega)
    · rw [if_neg hfull] at h
      cases hr : k.read fd with
      | again =>
        rw [hr] at h
        cases h
        exact .again hc hr
      | fail =>
        rw [hr] at h
        cases h
        exact .ended hc (by simp [Kernel.received, hr])
      | bytes b =>
        simp only [hr] at h
        cases he : b.take (bufferSize - c.recvBuf.length) with
        | nil =>
          rw [he] at h
          cases h
          exact .ended hc (by simp only [Kernel.received, hr, he])
        | cons x xs =>
          simp only [he, List.isEmpty_cons, Bool.false_eq_true, if_false] at h
          exact .data hc (by simp only [Kernel.received, hr, he]) (List.cons_ne_nil _ _)
            (packetLoop_loop ((hi.read fd (x :: xs)).setRecv hc _) (Server.setConn_lookup_self hc)
              (Nat.le_refl _) h)

theorem Receives.inv (h : Receives k fd s s') (hi : Inv s) : Inv s' := by
  cases h with
  | unknown _ => exact hi.closeConnection fd
  | full _ _ => exact hi.closeConnection fd
  | ended _ _ => exact (hi.read fd []).closeConnection fd
  | again _ _ => exact hi.read fd []
  | data hc _ _ hloop => exact hloop.inv ((hi.read fd _).setRecv hc _)

/-! ## Sending -/

inductive Writes (k : Kernel) (fd : Fd) (s : Server) : Server → Prop where
  | unknown : s.gConnections.lookup fd = none → Writes k fd s (closeConnection fd s)
  | flushed {c : Connection} {w rest : List UInt8} {new : List Ev} :
      s.gConnections.lookup fd = some c →
      Flushed fd c.sendBuf w rest (flushFails k fd s.trace.length c.sendBuf) new →
      Writes k fd s (flushedState fd c rest (flushFails k fd s.trace.length c.sendBuf) new s)

theorem handleClientWrite_writes (k : Kernel) (fd : Fd) (hi : Inv s) :
    ∃ s', handleClientWrite k fd s = some s' ∧ Writes k fd s s' := by
  unfold handleClientWrite
  cases hc : s.gConnections.lookup fd with
  | none => exact ⟨_, rfl, .unknown hc⟩
  | some c =>
    obtain ⟨w, rest, new, hF, he⟩ := flushSendBuffer_eq (k := k) hc (hi.fd_eq hc) (hi.nonneg hc)
    exact ⟨_, he, .flushed hc hF⟩

theorem Inv.flushedState {c : Connection} {w rest : List UInt8} {failed : Bool} {new : List Ev}
    (hi : Inv s) (hc : s.gConnections.lookup fd = some c)
    (hF : Flushed fd c.sendBuf w rest failed new) : Inv (flushedState fd c rest failed new s) := by
  have := hi.output hc hF
  cases failed with
  | false => exact this
  | true => exact this.closeConnection fd

theorem Writes.inv (h : Writes k fd s s') (hi : Inv s) : Inv s' := by
  cases h with
  | unknown _ => exact hi.closeConnection fd
  | flushed hc hF => exact hi.flushedState hc hF

/-! ## The event loop -/

/-- The first half of a dispatch on a connection's descriptor: closing on an
error, or receiving. -/
inductive Reacts (k : Kernel) (ev : Event) (s : Server) : Server → Prop where
  | error : ev.errHup = true → Reacts k ev s (closeConnection ev.fd s)
  | input {s' : Server} : ev.errHup = false → ev.input = true → Receives k ev.fd s s' →
      Reacts k ev s s'
  | neither : ev.errHup = false → ev.input = false → Reacts k ev s s

theorem Reacts.inv {ev : Event} (h : Reacts k ev s s') (hi : Inv s) : Inv s' := by
  cases h with
  | error _ => exact hi.closeConnection ev.fd
  | input _ _ hr => exact hr.inv hi
  | neither _ _ => exact hi

/-- **The ways a dispatched event ends.** -/
inductive Dispatches (k : Kernel) (ev : Event) (s : Server) : Server → Prop where
  | accept {s' : Server} : ev.fd = s.listenFd → Accepts k s s' → Dispatches k ev s s'
  | take {s' : Server} : ev.fd ≠ s.listenFd → ev.output = false → Reacts k ev s s' →
      Dispatches k ev s s'
  | write {m s' : Server} : ev.fd ≠ s.listenFd → ev.output = true → Reacts k ev s m →
      Writes k ev.fd m s' → Dispatches k ev s s'

theorem dispatch_dispatches {ev : Event} (hi : Inv s) (h : dispatch k ev s = some s') :
    Dispatches k ev s s' := by
  unfold dispatch at h
  split at h
  · cases h
    exact .accept ‹_› (handleNewConnection_accepts k s)
  · rename_i hl
    obtain ⟨m, hm, h⟩ := Option.bind_eq_some_iff.mp h
    have htake : Reacts k ev s m := by
      cases he : ev.errHup with
      | true =>
        rw [he] at hm
        cases hm
        exact .error he
      | false =>
        cases hin : ev.input with
        | true =>
          simp only [he, hin, Bool.false_eq_true, if_false, if_true] at hm
          exact .input he hin (handleClientData_receives hi hm)
        | false =>
          simp only [he, hin, Bool.false_eq_true, if_false] at hm
          cases hm
          exact .neither he hin
    cases ho : ev.output with
    | false =>
      simp only [ho, Bool.false_eq_true, if_false] at h
      cases h
      exact .take hl ho htake
    | true =>
      simp only [ho, if_true] at h
      obtain ⟨m', hm', hw⟩ := handleClientWrite_writes k ev.fd (htake.inv hi)
      rw [hm'] at h
      cases h
      exact .write hl ho htake hw

theorem Dispatches.inv {ev : Event} (h : Dispatches k ev s s') (hi : Inv s) : Inv s' := by
  cases h with
  | accept _ ha => exact ha.inv hi
  | take _ _ ht => exact ht.inv hi
  | write _ _ ht hw => exact hw.inv (ht.inv hi)

theorem step_inv (i : Kernel × Event) (s s' : Server) (hi : Inv s) (h : step i s = some s') :
    Inv s' :=
  (dispatch_dispatches hi h).inv hi

theorem reachable_inv (h : Reachable s) : Inv s := by
  obtain ⟨listenFd, epfd, hr⟩ := h
  exact hr.invariant (init_inv listenFd epfd) step_inv

end IsaacP2P.Relay
