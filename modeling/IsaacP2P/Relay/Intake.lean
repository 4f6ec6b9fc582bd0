import IsaacP2P.Relay.Containment

/-!
# What was read and what was handled

For every connection the bytes `read()` has returned since it was accepted are
the frames of the packets `process_packet` was called with, followed by the
receive buffer, which holds no complete packet between two events.
-/

namespace IsaacP2P.Relay

open LengthPrefixed (frame next stream)
open Streaming (Decodes)

variable {k : Kernel} {s s' : Server} {f : Fd} {ev : Event}

/-- The receive buffers are what the packets handled left of the bytes read. -/
def Intake (s : Server) : Prop :=
  ∀ f c, s.gConnections.lookup f = some c →
    Decodes (stream maxPayload) (consumed f s.trace) (handled f s.trace) c.recvBuf

theorem Intake.waits (h : Intake s) {c : Connection} (hc : s.gConnections.lookup f = some c) :
    next maxPayload c.recvBuf = .wait :=
  (h f c hc).2

theorem start_intake (listenFd epfd : Fd) : Intake (start listenFd epfd) := by
  intro f c hc
  simp [start] at hc

theorem Outcome.books {a : Fd} {c : Connection} {p : List UInt8} {more : Bool}
    (h : Outcome k a c p s more s') :
    consumed a s'.trace = consumed a s.trace ∧ handled a s'.trace = handled a s.trace ++ [p] := by
  have hp : consumed a (.packet a p :: s.trace) = consumed a s.trace ∧
      handled a (.packet a p :: s.trace) = handled a s.trace ++ [p] := by
    simp [consumed, handled]
  cases h with
  | wrongLength _ _ => exact hp
  | taken _ _ _ => exact hp
  | registers _ _ _ => exact hp
  | dropped _ _ => exact hp
  | @forwards t tc m w rest failed new hr ht hm hd h0 hf hF =>
    obtain ⟨-, hcons, hhand⟩ := hF.books tc (s.log (.packet a p)) a
    exact ⟨hcons.trans hp.1, hhand.trans hp.2⟩

theorem Loop.intake {a : Fd} (h : Loop k a s s') {c : Connection}
    (hc : s.gConnections.lookup a = some c)
    (ht : Streaming.Takes (stream maxPayload) (consumed a s.trace) (handled a s.trace) c.recvBuf)
    {c' : Connection} (hc' : s'.gConnections.lookup a = some c') :
    Decodes (stream maxPayload) (consumed a s'.trace) (handled a s'.trace) c'.recvBuf := by
  induction h generalizing c with
  | wait hc₀ hw =>
    rw [hc] at hc₀ hc'
    cases hc₀
    cases hc'
    exact ⟨ht, hw⟩
  | bad _ _ =>
    rw [closeConnection_lookup, if_pos rfl] at hc'
    cases hc'
  | reject _ _ _ =>
    rw [closeConnection_lookup, if_pos rfl] at hc'
    cases hc'
  | @more s m s' c₀ c₁ p rest hc₀ hnext ho hc₁ _ ih =>
    rw [hc] at hc₀
    cases hc₀
    obtain ⟨hcons, hhand⟩ := ho.books
    refine ih (Server.setConn_lookup_self hc₁) ?_ hc'
    rw [Server.setConn_trace, hcons, hhand]
    exact ht.snoc hnext

theorem Receives.intake (h : Receives k f s s') (hin : Intake s) {c' : Connection}
    (hc' : s'.gConnections.lookup f = some c') :
    Decodes (stream maxPayload) (consumed f s'.trace) (handled f s'.trace) c'.recvBuf := by
  cases h with
  | again hc _ =>
    simpa [consumed, handled] using hin f c' hc'
  | @data c b _ hc _ _ hloop =>
    refine hloop.intake (Server.setConn_lookup_self hc) ?_ hc'
    have : consumed f (.read f b :: s.trace) = consumed f s.trace ++ b := by
      simp [consumed]
    rw [Server.setConn_trace, Server.log_trace, this]
    exact (hin f c hc).1.append b
  | unknown _ | full _ _ | ended _ _ =>
    rw [closeConnection_lookup, if_pos rfl] at hc'
    cases hc'

theorem Touched.intake {ps : List (List UInt8)} {new : List Ev} (h : Touched f ps new s s')
    (hin : Intake s) {c' : Connection} (hc' : s'.gConnections.lookup f = some c') :
    Decodes (stream maxPayload) (consumed f s'.trace) (handled f s'.trace) c'.recvBuf := by
  cases h with
  | absent _ h1 => rw [hc'] at h1; cases h1
  | removed _ _ h1 _ => rw [hc'] at h1; cases h1
  | kept h0 h1 _ _ _ hb hcons hhand _ =>
    rw [hc'] at h1
    cases h1
    rw [hcons, hhand, hb]
    exact hin f _ h0

theorem Receives.intake_all {a : Fd} (h : Receives k a s s') (hi : Inv s) (hin : Intake s) :
    Intake s' := by
  intro f c' hc'
  by_cases hf : f = a
  · subst hf
    exact h.intake hin hc'
  · obtain ⟨_, _, -, -, ht⟩ := h.touched hi
    exact (ht f hf).intake hin hc'

theorem Reacts.intake (h : Reacts k ev s s') (hi : Inv s) (hin : Intake s) : Intake s' := by
  cases h with
  | error _ =>
    intro f c' hc'
    obtain ⟨hf, hc⟩ := closeConnection_lookup_some hc'
    exact (Touched.closeConnection hf).intake hin hc'
  | input _ _ hr => exact hr.intake_all hi hin
  | neither _ _ => exact hin

theorem Writes.intake (h : Writes k ev.fd s s') (hin : Intake s) : Intake s' := by
  intro f c' hc'
  by_cases hf : f = ev.fd
  · subst hf
    cases h with
    | unknown _ =>
      rw [closeConnection_lookup, if_pos rfl] at hc'
      cases hc'
    | @flushed c w rest new hc hF =>
      obtain ⟨-, hcons, hhand⟩ := hF.books c s ev.fd
      rw [flushedState_lookup hc, if_pos rfl] at hc'
      rw [hcons, hhand]
      split at hc'
      · cases hc'
      · cases hc'
        exact hin _ c hc
  · obtain ⟨_, _, ht⟩ := h.touched hf
    exact ht.intake hin hc'

theorem Accepts.intake (h : Accepts k s s') (hi : Inv s) (hin : Intake s) : Intake s' := by
  intro f c' hc'
  cases h with
  | nothing _ => exact hin f c' hc'
  | @refused g new hg _ hnew =>
    have hgf : g ≠ f := by
      rintro rfl
      have := (hi.opened g).symm.trans (Server.free_iff.mp (free_of_accept hg)).2.2.2
      rw [Server.logs_gConnections] at hc'
      rw [hc'] at this
      cases this
    rcases hnew with rfl | ⟨ok, rfl⟩ <;> simpa [consumed, handled, hgf] using hin f c' hc'
  | @accepted g hg =>
    by_cases hgf : g = f
    · subst hgf
      rw [Server.enter, AList.lookup_insert] at hc'
      cases hc'
      simp only [Server.enter, Server.log_trace, consumed, handled, if_true]
      exact ⟨.nil _, rfl⟩
    · rw [Server.enter, AList.lookup_insert_ne (Ne.symm hgf)] at hc'
      simpa [Server.enter, consumed, handled, hgf] using hin f c' hc'

theorem step_intake (i : Kernel × Event) (s s' : Server) (h : Inv s ∧ Intake s)
    (hs : step i s = some s') : Inv s' ∧ Intake s' := by
  obtain ⟨hi, hin⟩ := h
  refine ⟨step_inv i s s' hi hs, ?_⟩
  cases dispatch_dispatches hi hs with
  | accept _ ha => exact ha.intake hi hin
  | take _ _ ht => exact ht.intake hi hin
  | write _ _ ht hw => exact hw.intake (ht.intake hi hin)

/-- **Intake**: in every reachable state the receive buffer of a connection is
the incomplete packet behind those handled. -/
theorem reachable_intake (h : Reachable s) : Intake s := by
  obtain ⟨listenFd, epfd, hr⟩ := h
  exact (hr.invariant (P := fun s => Inv s ∧ Intake s)
    ⟨init_inv listenFd epfd, start_intake listenFd epfd⟩ step_intake).2

end IsaacP2P.Relay
