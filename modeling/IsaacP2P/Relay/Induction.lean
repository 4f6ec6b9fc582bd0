import IsaacP2P.Relay.Containment

/-!
# The invariant rule of the server

A property of states is an invariant of the event loop if the small moves of
the handlers keep it: bytes noted or put into a receive buffer, a packet, a
flush, a close, an accept (`Kept`). `Kept.step` walks through the handlers
once; `Kept.reachable` is the rule for runs.
-/

namespace IsaacP2P.Relay

open LengthPrefixed (next)

variable {k : Kernel} {s s' : Server} {a : Fd} {P : Server → Prop}

/-- The moves the handlers are made of keep `P` in consistent states. -/
structure Kept (P : Server → Prop) : Prop where
  read : ∀ {s : Server} (f : Fd) (b : List UInt8), Inv s → P s → P (s.log (.read f b))
  recv : ∀ {s : Server} {f : Fd} {c : Connection} (b : List UInt8), Inv s →
    s.gConnections.lookup f = some c → P s → P (s.setConn f { c with recvBuf := b })
  /-- The packet stands at the head of the receive buffer. -/
  outcome : ∀ {k : Kernel} {a : Fd} {c : Connection} {p rest : List UInt8} {more : Bool}
    {s s' : Server}, Inv s → s.gConnections.lookup a = some c →
    next maxPayload c.recvBuf = .item p rest → Outcome k a c p s more s' → P s → P s'
  flushed : ∀ {s : Server} {f : Fd} {c : Connection} {w rest : List UInt8} {failed : Bool}
    {new : List Ev}, Inv s → s.gConnections.lookup f = some c →
    Flushed f c.sendBuf w rest failed new → P s → P (flushedState f c rest failed new s)
  close : ∀ {s : Server} (f : Fd), Inv s → P s → P (closeConnection f s)
  accepts : ∀ {k : Kernel} {s s' : Server}, Inv s → Accepts k s s' → P s → P s'

namespace Kept

variable (hP : Kept P)
include hP

theorem loop (h : Loop k a s s') (hi : Inv s) (hs : P s) : P s' := by
  induction h with
  | wait => exact hs
  | bad => exact hP.close a hi hs
  | reject hc hnext ho => exact hP.close a (ho.inv hi hc) (hP.outcome hi hc hnext ho hs)
  | more hc hnext ho hc' _ ih =>
    have hi' := ho.inv hi hc
    exact ih (hi'.setRecv hc' _) (hP.recv _ hi' hc' (hP.outcome hi hc hnext ho hs))

theorem receives (h : Receives k a s s') (hi : Inv s) (hs : P s) : P s' := by
  cases h with
  | unknown _ | full _ _ => exact hP.close a hi hs
  | ended _ _ => exact hP.close a (hi.read a []) (hP.read a [] hi hs)
  | again _ _ => exact hP.read a [] hi hs
  | @data c b s' hc _ _ hloop =>
    have hread := hP.read a b hi hs
    exact hP.loop hloop ((hi.read a b).setRecv hc _) (hP.recv _ (hi.read a b) hc hread)

theorem reacts {ev : Event} (h : Reacts k ev s s') (hi : Inv s) (hs : P s) : P s' := by
  cases h with
  | error _ => exact hP.close ev.fd hi hs
  | input _ _ hr => exact hP.receives hr hi hs
  | neither _ _ => exact hs

theorem writes (h : Writes k a s s') (hi : Inv s) (hs : P s) : P s' := by
  cases h with
  | unknown _ => exact hP.close a hi hs
  | flushed hc hF => exact hP.flushed hi hc hF hs

theorem dispatches {ev : Event} (h : Dispatches k ev s s') (hi : Inv s) (hs : P s) : P s' := by
  cases h with
  | accept _ ha => exact hP.accepts hi ha hs
  | take _ _ ht => exact hP.reacts ht hi hs
  | write _ _ ht hw => exact hP.writes hw (ht.inv hi) (hP.reacts ht hi hs)

/-- **Step rule**: an event of the loop keeps `P`. -/
theorem step (i : Kernel × Event) (s s' : Server) (h : Inv s ∧ P s)
    (hs : Relay.step i s = some s') : Inv s' ∧ P s' :=
  ⟨step_inv i s s' h.1 hs, hP.dispatches (dispatch_dispatches h.1 hs) h.1 h.2⟩

theorem run {is : List (Kernel × Event)} (hi : Inv s) (hs : P s)
    (hr : Runs.run Relay.step is s = some s') : P s' :=
  (Runs.run_invariant hP.step ⟨hi, hs⟩ hr).2

/-- **Run rule**: what holds at the start holds in every reachable state. -/
theorem reachable (hstart : ∀ listenFd epfd, P (start listenFd epfd)) (h : Reachable s) : P s := by
  obtain ⟨listenFd, epfd, is, hr⟩ := h
  exact hP.run (init_inv listenFd epfd) (hstart listenFd epfd) hr

end Kept

/-! ## The trace grows -/

theorem Keeps.suffix {f : Fd} {tr : List Ev} (h : Keeps f s s') (hs : tr <:+ s.trace) :
    tr <:+ s'.trace := by
  obtain ⟨-, new, htr, -⟩ := h
  exact htr ▸ hs.trans (List.suffix_append new s.trace)

theorem suffix_kept (tr : List Ev) : Kept (fun s => tr <:+ s.trace) where
  read f b _ hs := hs.trans (List.suffix_cons (Ev.read f b) _)
  recv _ _ _ hs := hs
  outcome {_ a _ _ _ _ _ _} _ hc _ h hs := (h.keeps hc a).suffix hs
  flushed {_ f _ _ _ _ _} _ hc hF hs := (Keeps.flushedState f hc hF).suffix hs
  close f _ hs := (Keeps.closeConnection f f _).suffix hs
  accepts {_ s s'} _ h hs := by
    cases h with
    | nothing _ => exact hs
    | @refused f new _ _ _ =>
      rw [Server.logs_trace]
      exact hs.trans (List.suffix_append (Ev.close f :: new ++ [.accept f]) s.trace)
    | @accepted f _ => exact hs.trans (List.suffix_append [Ev.epollAdd f true, .accept f] s.trace)

theorem run_suffix {is : List (Kernel × Event)} (hi : Inv s) (h : Runs.run step is s = some s') :
    s.trace <:+ s'.trace :=
  (suffix_kept s.trace).run hi List.suffix_rfl h

/-! ## The server's own descriptors stay -/

@[simp] theorem closeConnection_epfd (f : Fd) (s : Server) :
    (closeConnection f s).epfd = s.epfd := by
  rw [closeConnection, Server.log_epfd, Server.log_epfd, Server.dropConn]
  split <;> rfl

theorem flushedState_fds (f : Fd) (c : Connection) (rest : List UInt8) (failed : Bool)
    (new : List Ev) (s : Server) :
    (flushedState f c rest failed new s).listenFd = s.listenFd ∧
      (flushedState f c rest failed new s).epfd = s.epfd := by
  cases failed with
  | false => exact ⟨rfl, rfl⟩
  | true => simp [flushedState]

theorem fds_kept (listenFd epfd : Fd) : Kept (fun s => s.listenFd = listenFd ∧ s.epfd = epfd) where
  read _ _ _ hs := hs
  recv _ _ _ hs := hs
  outcome {_ a _ p _ _ s _} _ _ _ h hs := by
    cases h with
    | wrongLength _ _ | taken _ _ _ | registers _ _ _ | dropped _ _ => exact hs
    | @forwards t tc _ _ rest failed new _ _ _ _ _ _ _ =>
      obtain ⟨hl, he⟩ := flushedState_fds t tc rest failed new (s.log (.packet a p))
      exact ⟨hl.trans hs.1, he.trans hs.2⟩
  flushed {s f c _ rest failed new} _ _ _ hs := by
    obtain ⟨hl, he⟩ := flushedState_fds f c rest failed new s
    exact ⟨hl.trans hs.1, he.trans hs.2⟩
  close f _ hs := by simpa using hs
  accepts _ h hs := by
    cases h with
    | nothing _ | refused _ _ _ | accepted _ => exact hs

theorem accept_of_isOpen {f : Fd} {tr : List Ev} (h : isOpen f tr = true) : .accept f ∈ tr := by
  induction tr with
  | nil => cases h
  | cons e tr ih =>
    cases e with
    | accept g =>
      by_cases hg : g = f
      · exact hg ▸ List.mem_cons_self ..
      · exact List.mem_cons_of_mem _ (ih (by simpa [isOpen, hg] using h))
    | close g =>
      by_cases hg : g = f
      · simp [isOpen, hg] at h
      · exact List.mem_cons_of_mem _ (ih (by simpa [isOpen, hg] using h))
    | _ => exact List.mem_cons_of_mem _ (ih h)

/-- No client was ever given a descriptor of the server's own. -/
def OwnFds (s : Server) : Prop := ∀ f, .accept f ∈ s.trace → f ≠ s.listenFd ∧ f ≠ s.epfd

theorem Keeps.ownFds {f : Fd} (h : Keeps f s s') (he : s'.epfd = s.epfd) (hs : OwnFds s) :
    OwnFds s' := by
  obtain ⟨hl, new, htr, ha, -⟩ := h
  intro g hg
  rw [htr, List.mem_append] at hg
  rw [hl, he]
  exact hs g (hg.resolve_left (ha g))

theorem ownFds_kept : Kept OwnFds where
  read f b _ hs := by
    intro g hg
    exact hs g (by simpa using hg)
  recv _ _ _ hs := hs
  outcome {k a c p rest more s s'} hi hc hnext h hs :=
    (h.keeps hc a).ownFds ((fds_kept s.listenFd s.epfd).outcome hi hc hnext h ⟨rfl, rfl⟩).2 hs
  flushed {s f c _ rest failed new} _ hc hF hs :=
    (Keeps.flushedState f hc hF).ownFds (flushedState_fds f c rest failed new s).2 hs
  close f _ hs := (Keeps.closeConnection f f _).ownFds (closeConnection_epfd f _) hs
  accepts {k s s'} _ h hs := by
    -- the one number handed out was free
    have hfree : ∀ {f}, k.accept.filter s.free = some f → f ≠ s.listenFd ∧ f ≠ s.epfd := by
      intro f hf
      obtain ⟨-, hl, he, -⟩ := Server.free_iff.mp (free_of_accept hf)
      exact ⟨hl, he⟩
    intro g hg
    cases h with
    | nothing _ => exact hs g hg
    | @refused f new hf _ hnew =>
      have hg' : g = f ∨ .accept g ∈ s.trace := by
        rcases hnew with rfl | ⟨ok, rfl⟩ <;> simpa using hg
      rcases hg' with rfl | hg'
      · exact hfree hf
      · exact hs g hg'
    | @accepted f hf =>
      have hg' : g = f ∨ .accept g ∈ s.trace := by simpa [Server.enter] using hg
      rcases hg' with rfl | hg'
      · exact hfree hf.1
      · exact hs g hg'

theorem start_ownFds (listenFd epfd : Fd) : OwnFds (start listenFd epfd) := fun _ h => nomatch h

theorem reachable_ownFds (h : Reachable s) : OwnFds s := ownFds_kept.reachable start_ownFds h

end IsaacP2P.Relay
