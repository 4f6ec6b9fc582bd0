import IsaacP2P.Relay.Contract

/-!
# Write interest

A connection's bytes wait in its send buffer until the poller reports that its
socket takes more. `armed` is what the poller was told; between two events it
was told to watch exactly the connections with a non-empty send buffer
(`armed_iff_sendBuf`).
-/

namespace IsaacP2P.Relay

variable {k : Kernel} {s s' : Server} {f g : Fd}

/-- `EPOLLOUT` is in the interest set of the descriptor: the last `epoll_ctl` on
it that succeeded asked for it. -/
def armed (f : Fd) : List Ev → Bool
  | [] => false
  | .accept g :: tr => if g = f then false else armed f tr
  | .epollAdd g ok :: tr => if g = f ∧ ok = true then false else armed f tr
  | .epollMod g wantWrite ok :: tr => if g = f ∧ ok = true then wantWrite else armed f tr
  | .epollDel g :: tr => if g = f then false else armed f tr
  | .close g :: tr => if g = f then false else armed f tr
  | _ :: tr => armed f tr

/-- What the server asked for last, whatever the answer was. -/
def wanted (f : Fd) : List Ev → Bool
  | [] => false
  | .accept g :: tr => if g = f then false else wanted f tr
  | .epollAdd g _ :: tr => if g = f then false else wanted f tr
  | .epollMod g wantWrite _ :: tr => if g = f then wantWrite else wanted f tr
  | .epollDel g :: tr => if g = f then false else wanted f tr
  | .close g :: tr => if g = f then false else wanted f tr
  | _ :: tr => wanted f tr

/-- An `epoll_ctl` that failed. -/
def Ev.ctlFailed : Ev → Bool
  | .epollAdd _ ok | .epollMod _ _ ok => !ok
  | _ => false

theorem armed_eq_wanted {tr : List Ev} (h : ∀ e ∈ tr, e.ctlFailed = false) (f : Fd) :
    armed f tr = wanted f tr := by
  induction tr with
  | nil => rfl
  | cons e tr ih =>
    have he := h e (List.mem_cons_self ..)
    have ih := ih fun e he => h e (List.mem_cons_of_mem _ he)
    cases e with
    | epollAdd g ok | epollMod g want ok =>
      obtain rfl : ok = true := by simpa [Ev.ctlFailed] using he
      simp [armed, wanted, ih]
    | accept _ | epollDel _ | close _ => simp only [armed, wanted, ih]
    | _ => exact ih

theorem wanted_output {new : List Ev} (h : OutputOn f new) (hg : g ≠ f) (tr : List Ev) :
    wanted g (new ++ tr) = wanted g tr :=
  h.ignored (fun e tr he => by
    cases e with
    | epollMod f' _ _ =>
      obtain rfl : f' = f := he
      exact if_neg (Ne.symm hg)
    | write _ _ | writeAgain _ | writeFail _ => rfl
    | _ => exact he.elim) tr

/-! ## The invariant -/

/-- The server asked for `EPOLLOUT` exactly where bytes wait. -/
def Watched (s : Server) : Prop :=
  ∀ f c, s.gConnections.lookup f = some c → wanted f s.trace = !c.sendBuf.isEmpty

theorem start_watched (listenFd epfd : Fd) : Watched (start listenFd epfd) := by
  intro f c hc
  simp [start] at hc

theorem Watched.closeConnection (h : Watched s) (f : Fd) : Watched (closeConnection f s) := by
  intro g c hc
  obtain ⟨hg, hc⟩ := closeConnection_lookup_some hc
  rw [closeConnection_trace, wanted, if_neg (Ne.symm hg), wanted, if_neg (Ne.symm hg)]
  exact h g c hc

theorem Watched.setConn {c c' : Connection} (h : Watched s)
    (hc : s.gConnections.lookup f = some c) (hb : c'.sendBuf = c.sendBuf) :
    Watched (s.setConn f c') := by
  intro g d hd
  rw [Server.setConn_gConnections, AssocList.lookup_replace hc] at hd
  split at hd
  · subst_vars
    cases hd
    rw [hb]
    exact h _ c hc
  · exact h g d hd

/-- A flush leaves its own connection watched, whatever was in the buffer before. -/
theorem flushedState_watched {c : Connection} {buf w rest : List UInt8} {failed : Bool}
    {new : List Ev} (h : Watched s) (hc : s.gConnections.lookup f = some c)
    (hF : Flushed f buf w rest failed new) : Watched (flushedState f c rest failed new s) := by
  intro g d hd
  rw [flushedState_lookup hc] at hd
  rw [flushedState_trace]
  by_cases hg : g = f
  · subst hg
    rw [if_pos rfl] at hd
    cases failed with
    | true => cases hd
    | false =>
      cases hd
      obtain ⟨ok, old, rfl⟩ := hF.armed rfl
      simp [wanted]
  · rw [if_neg hg] at hd
    rw [← h g d hd, ← wanted_output hF.output hg s.trace]
    cases failed with
    | false => rfl
    | true => simp [wanted, Ne.symm hg]

theorem Outcome.watched {a : Fd} {c : Connection} {p : List UInt8} {more : Bool}
    (h : Outcome k a c p s more s') (hc : s.gConnections.lookup a = some c) (hs : Watched s) :
    Watched s' := by
  have hs' : Watched (s.log (.packet a p)) := hs
  cases h with
  | wrongLength _ _ => exact hs'
  | taken _ _ _ => exact hs'.setConn hc rfl
  | registers _ _ _ =>
    have hsame : ({ c with mark := p, registered := true } : Connection).sendBuf = c.sendBuf := rfl
    exact hs'.setConn hc hsame
  | dropped _ _ => exact hs'
  | forwards _ ht _ _ _ _ hF => exact flushedState_watched hs' ht hF

theorem Loop.watched {a : Fd} (h : Loop k a s s') (hs : Watched s) : Watched s' := by
  induction h with
  | wait _ _ => exact hs
  | bad _ _ => exact hs.closeConnection a
  | reject hc _ hp => exact (hp.watched hc hs).closeConnection a
  | more hc _ hp hc' _ ih => exact ih ((hp.watched hc hs).setConn hc' rfl)

theorem Receives.watched (h : Receives k f s s') (hs : Watched s) : Watched s' := by
  have hread : ∀ b, Watched (s.log (.read f b)) := fun _ => hs
  cases h with
  | unknown _ | full _ _ => exact hs.closeConnection f
  | ended _ _ => exact (hread []).closeConnection f
  | again _ _ => exact hread []
  | data hc _ _ hloop => exact hloop.watched ((hread _).setConn hc rfl)

theorem Writes.watched (h : Writes k f s s') (hs : Watched s) : Watched s' := by
  cases h with
  | unknown _ => exact hs.closeConnection f
  | flushed hc hF => exact flushedState_watched hs hc hF

theorem Accepts.watched (h : Accepts k s s') (hi : Inv s) (hs : Watched s) : Watched s' := by
  intro g c hc
  cases h with
  | nothing _ => exact hs g c hc
  | @refused f new hf _ hnew =>
    have hg : f ≠ g := by
      rintro rfl
      have := (hi.opened f).symm.trans (Server.free_iff.mp (free_of_accept hf)).2.2.2
      rw [Server.logs_gConnections] at hc
      rw [hc] at this
      cases this
    rcases hnew with rfl | ⟨ok, rfl⟩ <;> simpa [wanted, hg] using hs g c hc
  | @accepted f hf =>
    by_cases hg : f = g
    · subst hg
      rw [Server.enter, AList.lookup_insert] at hc
      cases hc
      simp [Server.enter, wanted, Connection.ofSocket]
    · rw [Server.enter, AList.lookup_insert_ne (Ne.symm hg)] at hc
      simpa [Server.enter, wanted, hg] using hs g c hc

theorem Reacts.watched {ev : Event} (h : Reacts k ev s s') (hs : Watched s) : Watched s' := by
  cases h with
  | error _ => exact hs.closeConnection ev.fd
  | input _ _ hr => exact hr.watched hs
  | neither _ _ => exact hs

theorem step_watched (i : Kernel × Event) (s s' : Server) (h : Inv s ∧ Watched s)
    (hs : step i s = some s') : Inv s' ∧ Watched s' := by
  obtain ⟨hi, hw⟩ := h
  refine ⟨step_inv i s s' hi hs, ?_⟩
  cases dispatch_dispatches hi hs with
  | accept _ ha => exact ha.watched hi hw
  | take _ _ ht => exact ht.watched hw
  | write _ _ ht hwr => exact hwr.watched (ht.watched hw)

theorem reachable_watched (h : Reachable s) : Watched s := by
  obtain ⟨listenFd, epfd, hr⟩ := h
  exact (hr.invariant (P := fun s => Inv s ∧ Watched s)
    ⟨init_inv listenFd epfd, start_watched listenFd epfd⟩ step_watched).2

/-- **No lost wake-up**: between two events a connection is watched for
`EPOLLOUT` if and only if bytes wait in its send buffer. -/
theorem armed_iff_sendBuf (h : Reachable s) (hctl : ∀ e ∈ s.trace, e.ctlFailed = false)
    {c : Connection} (hc : s.gConnections.lookup f = some c) :
    armed f s.trace = true ↔ c.sendBuf ≠ [] := by
  rw [armed_eq_wanted hctl f, reachable_watched h f c hc]
  simp

theorem twoClientsEnd_armed : ∃ c, twoClientsEnd.gConnections.lookup 6 = some c ∧
    (armed 6 twoClientsEnd.trace = true ↔ c.sendBuf ≠ []) ∧ armed 6 twoClientsEnd.trace = true := by
  obtain ⟨c, hc⟩ : ∃ c, twoClientsEnd.gConnections.lookup 6 = some c :=
    Option.isSome_iff_exists.mp (by decide +kernel)
  exact ⟨c, hc, armed_iff_sendBuf twoClientsEnd_reachable (by decide +kernel) hc, by decide +kernel⟩

end IsaacP2P.Relay
