import IsaacP2P.Relay.Output

/-!
# The invariant of the server

`Inv` ties the two maps to each other and both to the trace. It is kept by the
small updates the handlers are made of: a send or a receive on one connection,
a closed one, an accepted one, a registration, a packet.
-/

namespace IsaacP2P.Relay

/-- The mark a connection is registered under. -/
def Connection.regMark (c : Connection) : Option (List UInt8) :=
  if c.registered then some c.mark else none

def Server.markAt (s : Server) (f : Fd) : Option (List UInt8) :=
  (s.gConnections.lookup f).bind Connection.regMark

theorem Connection.regMark_eq_some {c : Connection} {m : List UInt8} :
    c.regMark = some m ↔ c.registered = true ∧ c.mark = m := by
  unfold Connection.regMark
  split <;> simp_all

theorem Server.markAt_of_lookup {s : Server} {f : Fd} {c : Connection}
    (h : s.gConnections.lookup f = some c) : s.markAt f = c.regMark := by
  rw [Server.markAt, h]
  rfl

theorem Server.markAt_of_none {s : Server} {f : Fd} (h : s.gConnections.lookup f = none) :
    s.markAt f = none := by
  rw [Server.markAt, h]
  rfl

theorem Server.markAt_eq_some {s : Server} {f : Fd} {m : List UInt8} :
    s.markAt f = some m ↔
      ∃ c, s.gConnections.lookup f = some c ∧ c.registered = true ∧ c.mark = m := by
  simp only [Server.markAt, Option.bind_eq_some_iff, Connection.regMark_eq_some]

/-! ## What `close_connection` leaves -/

theorem Server.dropConn_none {f : Fd} {s : Server} (h : s.gConnections.lookup f = none) :
    s.dropConn f = s := by
  simp only [Server.dropConn, h]

theorem Server.dropConn_some {f : Fd} {s : Server} {c : Connection}
    (h : s.gConnections.lookup f = some c) :
    s.dropConn f = { s with
      gMarkToFd := if c.registered then s.gMarkToFd.erase (markToKey c.mark) else s.gMarkToFd
      gConnections := s.gConnections.erase f } := by
  simp only [Server.dropConn, h]

@[simp] theorem closeConnection_trace (f : Fd) (s : Server) :
    (closeConnection f s).trace = .close f :: .epollDel f :: s.trace := by
  rw [closeConnection, Server.log_trace, Server.log_trace, Server.dropConn]
  split <;> rfl

@[simp] theorem closeConnection_listenFd (f : Fd) (s : Server) :
    (closeConnection f s).listenFd = s.listenFd := by
  rw [closeConnection, Server.log_listenFd, Server.log_listenFd, Server.dropConn]
  split <;> rfl

theorem closeConnection_lookup (f g : Fd) (s : Server) :
    (closeConnection f s).gConnections.lookup g
      = if g = f then none else s.gConnections.lookup g := by
  rw [closeConnection, Server.log_gConnections, Server.log_gConnections]
  by_cases hg : g = f
  · subst hg
    rw [if_pos rfl]
    cases h : s.gConnections.lookup g with
    | none => rw [Server.dropConn_none h, h]
    | some c =>
      rw [Server.dropConn_some h]
      exact AList.lookup_erase ..
  · rw [if_neg hg]
    cases h : s.gConnections.lookup f with
    | none => rw [Server.dropConn_none h]
    | some c =>
      rw [Server.dropConn_some h]
      exact AList.lookup_erase_ne hg

theorem closeConnection_lookup_some {f g : Fd} {s : Server} {c : Connection}
    (h : (closeConnection f s).gConnections.lookup g = some c) :
    g ≠ f ∧ s.gConnections.lookup g = some c := by
  rw [closeConnection_lookup] at h
  split at h
  · cases h
  · exact ⟨‹_›, h⟩

theorem closeConnection_markAt (f g : Fd) (s : Server) :
    (closeConnection f s).markAt g = if g = f then none else s.markAt g := by
  rw [Server.markAt, closeConnection_lookup]
  split <;> rfl

theorem closeConnection_gMarkToFd (f : Fd) (s : Server) :
    (closeConnection f s).gMarkToFd = match s.markAt f with
      | some m => s.gMarkToFd.erase (markToKey m)
      | none => s.gMarkToFd := by
  rw [closeConnection, Server.log_gMarkToFd, Server.log_gMarkToFd]
  cases h : s.gConnections.lookup f with
  | none => rw [Server.dropConn_none h, Server.markAt_of_none h]
  | some c =>
    rw [Server.dropConn_some h, Server.markAt_of_lookup h, Connection.regMark]
    cases c.registered <;> rfl

theorem closeConnection_length_le (f : Fd) (s : Server) :
    (closeConnection f s).gConnections.entries.length ≤ s.gConnections.entries.length := by
  rw [closeConnection, Server.log_gConnections, Server.log_gConnections]
  cases h : s.gConnections.lookup f with
  | none => rw [Server.dropConn_none h]
  | some c =>
    rw [Server.dropConn_some h]
    exact AssocList.length_erase_le f

theorem flushedState_lookup {f : Fd} {c : Connection} {s : Server}
    (hc : s.gConnections.lookup f = some c) (rest : List UInt8) (failed : Bool) (new : List Ev)
    (g : Fd) : (flushedState f c rest failed new s).gConnections.lookup g =
      if g = f then (if failed then none else some { c with sendBuf := rest })
      else s.gConnections.lookup g := by
  have hl : ((s.logs new).setConn f { c with sendBuf := rest }).gConnections.lookup g
      = if g = f then some { c with sendBuf := rest } else s.gConnections.lookup g :=
    AssocList.lookup_replace hc _ g
  cases failed with
  | false => exact hl
  | true =>
    rw [flushedState, if_pos rfl, closeConnection_lookup, hl]
    split <;> rfl

theorem flushedState_trace (f : Fd) (c : Connection) (rest : List UInt8) (failed : Bool)
    (new : List Ev) (s : Server) : (flushedState f c rest failed new s).trace =
      (if failed then [.close f, .epollDel f] else []) ++ new ++ s.trace := by
  cases failed with
  | false => rfl
  | true =>
    rw [flushedState, if_pos rfl, closeConnection_trace]
    rfl

/-- What a flush notes on any descriptor: the bytes written on `f`, and no input. -/
theorem Flushed.books {f : Fd} {buf w rest : List UInt8} {failed : Bool} {new : List Ev}
    (hF : Flushed f buf w rest failed new) (c : Connection) (s : Server) (g : Fd) :
    Relay.written g (flushedState f c rest failed new s).trace =
        Relay.written g s.trace ++ (if g = f then w else []) ∧
      consumed g (flushedState f c rest failed new s).trace = consumed g s.trace ∧
      handled g (flushedState f c rest failed new s).trace = handled g s.trace := by
  have hw := written_output hF.output g s.trace
  have hcons := consumed_output hF.output g s.trace
  have hhand := handled_output hF.output g s.trace
  rw [hF.written] at hw
  rw [flushedState_trace]
  cases failed with
  | false => exact ⟨hw, hcons, hhand⟩
  | true => exact ⟨hw, hcons, hhand⟩

/-! ## The invariant -/

structure Inv (s : Server) : Prop where
  fd_eq : ∀ {f c}, s.gConnections.lookup f = some c → c.fd = f
  nonneg : ∀ {f c}, s.gConnections.lookup f = some c → 0 ≤ f
  markLen : ∀ {f c}, s.gConnections.lookup f = some c → c.mark.length = markSize
  /-- `g_mark_to_fd` holds the marks of the registered connections and no others. -/
  owner : ∀ {key f}, s.gMarkToFd.lookup key = some f ↔ ∃ m, s.markAt f = some m ∧ markToKey m = key
  size : s.gConnections.entries.length ≤ maxConnections
  opened : ∀ f, isOpen f s.trace = (s.gConnections.lookup f).isSome
  marked : ∀ f, markOf f s.trace = s.markAt f
  /-- What a connection was sent and what waits in its buffer is what it is owed. -/
  out : ∀ {f c}, s.gConnections.lookup f = some c →
    written f s.trace ++ c.sendBuf = forwarded f s.trace
  closed : ∀ {f}, s.gConnections.lookup f = none → written f s.trace <+: forwarded f s.trace

theorem init_inv (listenFd epfd : Fd) : Inv (start listenFd epfd) where
  fd_eq h := by simp [start] at h
  nonneg h := by simp [start] at h
  markLen h := by simp [start] at h
  owner := by simp [start, Server.markAt]
  size := by simp [start]
  opened _ := by simp [start, isOpen]
  marked _ := by simp [start, Server.markAt, markOf]
  out h := by simp [start] at h
  closed _ := List.prefix_rfl

namespace Inv

variable {s : Server} (hi : Inv s)
include hi

theorem sent (f : Fd) : written f s.trace <+: forwarded f s.trace := by
  cases h : s.gConnections.lookup f with
  | none => exact hi.closed h
  | some c => exact ⟨c.sendBuf, hi.out h⟩

theorem markAt_inj {f g : Fd} {m : List UInt8} (hf : s.markAt f = some m)
    (hg : s.markAt g = some m) : f = g := by
  have h1 := hi.owner.mpr ⟨m, hf, rfl⟩
  have h2 := hi.owner.mpr ⟨m, hg, rfl⟩
  exact Option.some.inj (h1.symm.trans h2)

theorem markAt_length {f : Fd} {m : List UInt8} (h : s.markAt f = some m) :
    m.length = markSize := by
  obtain ⟨c, hc, -, rfl⟩ := Server.markAt_eq_some.mp h
  exact hi.markLen hc

/-- The descriptor a key is mapped to is registered under the bytes of the key. -/
theorem markAt_of_key {f : Fd} {m : List UInt8} (hm : markSize ≤ m.length)
    (h : s.gMarkToFd.lookup (markToKey m) = some f) : s.markAt f = some (m.take markSize) := by
  obtain ⟨m', hm', hk⟩ := hi.owner.mp h
  rw [hm']
  congr 1
  apply markToKey_inj (hi.markAt_length hm')
  · rw [List.length_take]
    omega
  · rw [hk, markToKey_take]

theorem key_eq_none {m : List UInt8} :
    s.gMarkToFd.lookup (markToKey m) = none ↔ ∀ f m', s.markAt f = some m' →
      markToKey m' ≠ markToKey m := by
  constructor
  · intro h f m' hf hk
    rw [hi.owner.mpr ⟨m', hf, hk⟩] at h
    cases h
  · intro h
    cases hl : s.gMarkToFd.lookup (markToKey m) with
    | none => rfl
    | some f =>
      obtain ⟨m', hm', hk⟩ := hi.owner.mp hl
      exact absurd hk (h f m' hm')

/-! ### Updates of one connection -/

theorem entry {conns : AList fun _ : Fd => Connection} {f : Fd} {c' : Connection}
    (hl : ∀ g, conns.lookup g = if g = f then some c' else s.gConnections.lookup g)
    (hfd : c'.fd = f) (h0 : 0 ≤ f) (hlen : c'.mark.length = markSize) {g : Fd} {d : Connection}
    (h : conns.lookup g = some d) : d.fd = g ∧ 0 ≤ g ∧ d.mark.length = markSize := by
  rw [hl] at h
  by_cases hg : g = f
  · subst hg
    rw [if_pos rfl] at h
    cases h
    exact ⟨hfd, h0, hlen⟩
  · rw [if_neg hg] at h
    exact ⟨hi.fd_eq h, hi.nonneg h, hi.markLen h⟩

/-- An update of one connection that keeps what it is registered under, together
with events that open, close and register nothing. -/
theorem update {s' : Server} {f : Fd} {c c' : Connection}
    (hc : s.gConnections.lookup f = some c)
    (hconn : s'.gConnections = s.gConnections.replace f c')
    (hmap : s'.gMarkToFd = s.gMarkToFd)
    (hfd : c'.fd = c.fd) (hlen : c'.mark.length = markSize) (hreg : c'.regMark = c.regMark)
    (hopen : ∀ g, isOpen g s'.trace = isOpen g s.trace)
    (hmark : ∀ g, markOf g s'.trace = markOf g s.trace)
    (hout : ∀ g d, s'.gConnections.lookup g = some d →
      written g s'.trace ++ d.sendBuf = forwarded g s'.trace)
    (hclosed : ∀ g, s.gConnections.lookup g = none →
      written g s'.trace <+: forwarded g s'.trace) : Inv s' := by
  have hl : ∀ g, s'.gConnections.lookup g = if g = f then some c' else s.gConnections.lookup g := by
    intro g
    rw [hconn, AssocList.lookup_replace hc]
  have hat : ∀ g, s'.markAt g = s.markAt g := by
    intro g
    rw [Server.markAt, Server.markAt, hl]
    split
    · subst_vars
      rw [hc]
      exact hreg
    · rfl
  have hentry : ∀ {g d}, s'.gConnections.lookup g = some d →
      d.fd = g ∧ 0 ≤ g ∧ d.mark.length = markSize :=
    hi.entry hl (hfd.trans (hi.fd_eq hc)) (hi.nonneg hc) hlen
  refine ⟨fun h => (hentry h).1, fun h => (hentry h).2.1, fun h => (hentry h).2.2, ?_, ?_, ?_, ?_,
    fun h => hout _ _ h, ?_⟩
  · intro key g
    rw [hmap, hi.owner, hat]
  · rw [hconn, AssocList.length_replace]
    exact hi.size
  · intro g
    rw [hopen, hi.opened, hl]
    split
    · subst_vars
      rw [hc]
      rfl
    · rfl
  · intro g
    rw [hmark, hi.marked, hat]
  · intro g h
    apply hclosed
    rw [hl] at h
    split at h
    · cases h
    · exact h

theorem output {f : Fd} {c : Connection} {w rest : List UInt8} {failed : Bool} {new : List Ev}
    (hc : s.gConnections.lookup f = some c) (hF : Flushed f c.sendBuf w rest failed new) :
    Inv ((s.logs new).setConn f { c with sendBuf := rest }) := by
  refine hi.update hc rfl rfl rfl (show c.mark.length = _ from hi.markLen hc) rfl
    (fun g => isOpen_output hF.output g _) (fun g => markOf_output hF.output g _) ?_ ?_
  · intro g d hd
    simp only [Server.setConn_trace, Server.logs_trace, Server.setConn_gConnections,
      Server.logs_gConnections, AssocList.lookup_replace hc, forwarded_output hF.output,
      written_output hF.output] at hd ⊢
    by_cases hg : g = f
    · subst hg
      rw [if_pos rfl] at hd ⊢
      cases hd
      rw [← hi.out hc, hF.split, hF.written, List.append_assoc]
    · rw [if_neg hg] at hd ⊢
      rw [List.append_nil]
      exact hi.out hd
  · intro g hg
    have hne : g ≠ f := by
      rintro rfl
      rw [hc] at hg
      cases hg
    simp only [Server.setConn_trace, Server.logs_trace, forwarded_output hF.output,
      written_output hF.output, if_neg hne, List.append_nil]
    exact hi.closed hg

/-- Bytes come in, or are dealt with; a mark is noted that does not count yet. -/
theorem setConn {f : Fd} {c c' : Connection} (hc : s.gConnections.lookup f = some c)
    (hfd : c'.fd = c.fd) (hlen : c'.mark.length = markSize) (hreg : c'.regMark = c.regMark)
    (hout : c'.sendBuf = c.sendBuf) : Inv (s.setConn f c') := by
  refine hi.update hc rfl rfl hfd hlen hreg (fun _ => rfl) (fun _ => rfl) ?_ fun g => hi.closed
  intro g d hd
  simp only [Server.setConn_gConnections, AssocList.lookup_replace hc] at hd
  split at hd
  · subst_vars
    cases hd
    rw [hout]
    exact hi.out hc
  · exact hi.out hd

theorem setRecv {f : Fd} {c : Connection} (hc : s.gConnections.lookup f = some c)
    (b : List UInt8) : Inv (s.setConn f { c with recvBuf := b }) :=
  hi.setConn hc rfl (show c.mark.length = _ from hi.markLen hc) rfl rfl

theorem log {e : Ev} (hopen : ∀ g, isOpen g (e :: s.trace) = isOpen g s.trace)
    (hmark : ∀ g, markOf g (e :: s.trace) = markOf g s.trace)
    (hwritten : ∀ g, written g (e :: s.trace) = written g s.trace)
    (hforwarded : ∀ g, forwarded g (e :: s.trace) = forwarded g s.trace) : Inv (s.log e) where
  fd_eq h := hi.fd_eq h
  nonneg h := hi.nonneg h
  markLen h := hi.markLen h
  owner := hi.owner
  size := hi.size
  opened g := (hopen g).trans (hi.opened g)
  marked g := (hmark g).trans (hi.marked g)
  out h := by
    rw [Server.log_trace, hwritten, hforwarded]
    exact hi.out h
  closed h := by
    rw [Server.log_trace, hwritten, hforwarded]
    exact hi.closed h

theorem read (f : Fd) (b : List UInt8) : Inv (s.log (.read f b)) :=
  hi.log (fun _ => rfl) (fun _ => rfl) (fun _ => rfl) fun _ => rfl

/-! ### Closing and accepting -/

theorem closeConnection (f : Fd) : Inv (closeConnection f s) where
  fd_eq h := hi.fd_eq (closeConnection_lookup_some h).2
  nonneg h := hi.nonneg (closeConnection_lookup_some h).2
  markLen h := hi.markLen (closeConnection_lookup_some h).2
  owner := by
    intro key g
    rw [closeConnection_gMarkToFd, closeConnection_markAt]
    by_cases hg : g = f
    · subst hg
      cases hm : s.markAt g with
      | none =>
        have := (hi.owner : s.gMarkToFd.lookup key = some g ↔ _)
        simpa [hm] using this
      | some m =>
        by_cases hk : key = markToKey m
        · subst hk
          simp
        · have := (hi.owner : s.gMarkToFd.lookup key = some g ↔ _)
          simp only [hm, Option.some.injEq, exists_eq_left'] at this
          simp [AList.lookup_erase_ne hk, this, Ne.symm hk]
    · rw [if_neg hg, ← hi.owner]
      cases hm : s.markAt f with
      | none => rfl
      | some m =>
        by_cases hk : key = markToKey m
        · subst hk
          have : s.gMarkToFd.lookup (markToKey m) = some f := hi.owner.mpr ⟨m, hm, rfl⟩
          simp [this, Ne.symm hg]
        · simp only [AList.lookup_erase_ne hk]
  size := (closeConnection_length_le f s).trans hi.size
  opened g := by
    rw [closeConnection_lookup, closeConnection_trace]
    by_cases hg : g = f
    · simp [isOpen, hg]
    · simpa [isOpen, hg, Ne.symm hg] using hi.opened g
  marked g := by
    rw [closeConnection_markAt, closeConnection_trace]
    by_cases hg : g = f
    · simp [markOf, hg]
    · simpa [markOf, hg, Ne.symm hg] using hi.marked g
  out h := by
    rw [closeConnection_trace]
    exact hi.out (closeConnection_lookup_some h).2
  closed {g} _ := by
    rw [closeConnection_trace]
    exact hi.sent g

theorem refused {f : Fd} {new : List Ev} (hf : isOpen f s.trace = false)
    (hnew : new = [] ∨ ∃ ok, new = [.epollAdd f ok]) :
    Inv (s.logs (.close f :: new ++ [.accept f])) := by
  have hn : s.gConnections.lookup f = none := by
    simpa [hi.opened] using hf
  have hm : s.markAt f = none := Server.markAt_of_none hn
  refine ⟨fun h => hi.fd_eq h, fun h => hi.nonneg h, fun h => hi.markLen h, hi.owner, hi.size,
    fun g => ?_, fun g => ?_, fun {g c} h => ?_, fun {g} _ => ?_⟩
  · have := hi.opened g
    by_cases hg : f = g
    · rcases hnew with rfl | ⟨ok, rfl⟩ <;> simp_all [isOpen]
    · rcases hnew with rfl | ⟨ok, rfl⟩ <;> simp_all [isOpen]
  · refine Eq.trans ?_ (hi.marked g)
    by_cases hg : f = g
    · subst hg
      rw [hi.marked, hm]
      rcases hnew with rfl | ⟨ok, rfl⟩ <;> simp [markOf]
    · rcases hnew with rfl | ⟨ok, rfl⟩ <;> simp [markOf, hg]
  · have hg : f ≠ g := by
      rintro rfl
      rw [Server.logs_gConnections, hn] at h
      cases h
    have := hi.out h
    rcases hnew with rfl | ⟨ok, rfl⟩ <;> simpa [written, forwarded, hg] using this
  · have := hi.sent g
    by_cases hg : f = g
    · rcases hnew with rfl | ⟨ok, rfl⟩ <;> simp [written, forwarded, hg]
    · rcases hnew with rfl | ⟨ok, rfl⟩ <;> simpa [written, forwarded, hg] using this

theorem accepted {f : Fd} (hf : isOpen f s.trace = false) (h0 : 0 ≤ f)
    (hsize : s.gConnections.entries.length < maxConnections) (ok : Bool) :
    Inv { (s.log (.accept f)).log (.epollAdd f ok) with
      gConnections := s.gConnections.insert f (.ofSocket f) } := by
  have hn : s.gConnections.lookup f = none := by
    simpa [hi.opened] using hf
  have hmem : f ∉ s.gConnections := AList.lookup_eq_none.mp hn
  have hl : ∀ g, (s.gConnections.insert f (.ofSocket f)).lookup g
      = if g = f then some (Connection.ofSocket f) else s.gConnections.lookup g := by
    intro g
    split
    · subst_vars
      exact AList.lookup_insert _
    · exact AList.lookup_insert_ne ‹_›
  have hat : ∀ g, ((s.gConnections.insert f (.ofSocket f)).lookup g).bind Connection.regMark
      = s.markAt g := by
    intro g
    rw [hl, Server.markAt]
    split
    · subst_vars
      rw [hn]
      rfl
    · rfl
  have hentry : ∀ {g d}, (s.gConnections.insert f (.ofSocket f)).lookup g = some d →
      d.fd = g ∧ 0 ≤ g ∧ d.mark.length = markSize := hi.entry hl rfl h0 rfl
  refine ⟨fun h => (hentry h).1, fun h => (hentry h).2.1, fun h => (hentry h).2.2,
    fun {key g} => ?_, ?_, fun g => ?_, fun g => ?_, fun {g c} h => ?_, fun {g} h => ?_⟩
  · rw [Server.markAt, hat]
    exact hi.owner
  · rw [AssocList.length_insert hmem]
    exact hsize
  · rw [hl]
    by_cases hg : g = f
    · simp [isOpen, hg]
    · simpa [isOpen, hg, Ne.symm hg] using hi.opened g
  · rw [Server.markAt, hat]
    by_cases hg : g = f
    · subst hg
      rw [Server.markAt_of_none hn]
      simp [markOf]
    · simpa [markOf, Ne.symm hg] using hi.marked g
  · rw [hl] at h
    by_cases hg : g = f
    · subst hg
      rw [if_pos rfl] at h
      cases h
      simp [written, forwarded, Connection.ofSocket]
    · rw [if_neg hg] at h
      simpa [written, forwarded, Ne.symm hg] using hi.out h
  · rw [hl] at h
    have hg : f ≠ g := by
      rintro rfl
      simp at h
    simpa [written, forwarded, hg] using hi.sent g

/-! ### Packets -/

theorem forwarded_packet (t a : Fd) (data : List UInt8) :
    forwarded t (.packet a data :: s.trace) = match s.markAt a, s.markAt t with
      | some _, some mark => forwarded t s.trace ++ frameFor mark data
      | _, _ => forwarded t s.trace := by
  cases ha : s.markAt a <;> cases ht : s.markAt t <;> simp only [forwarded, hi.marked, ha, ht]

theorem packet {f : Fd} (data : List UInt8)
    (h : ∀ t m, s.markAt f ≠ none → s.markAt t = some m → frameFor m data = []) :
    Inv (s.log (.packet f data)) := by
  refine hi.log (fun _ => rfl) (fun _ => rfl) (fun _ => rfl) fun t => ?_
  rw [hi.forwarded_packet]
  split
  · rw [h t _ (by simp [*]) ‹_›, List.append_nil]
  · rfl

/-- A packet whose frame is appended to the buffer of the one it is owed to. -/
theorem deliver {f t : Fd} {c : Connection} {m data : List UInt8} (hf : s.markAt f ≠ none)
    (hc : s.gConnections.lookup t = some c) (hm : c.regMark = some m) (hd : data.take markSize = m) :
    Inv ((s.log (.packet f data)).setConn t { c with sendBuf := c.sendBuf ++ frameFor m data }) := by
  have hown : ∀ g, forwarded g (.packet f data :: s.trace)
      = forwarded g s.trace ++ if g = t then frameFor m data else [] := by
    intro g
    rw [hi.forwarded_packet]
    obtain ⟨mf, hmf⟩ := Option.ne_none_iff_exists'.mp hf
    have hmt : s.markAt t = some m := by rw [Server.markAt_of_lookup hc, hm]
    rw [hmf]
    by_cases hg : g = t
    · subst hg
      simp [hmt]
    · cases hmg : s.markAt g with
      | none => simp [hg]
      | some m' =>
        have hne : data.take markSize ≠ m' := by
          rintro rfl
          exact hg (hi.markAt_inj hmg (by rw [hmt, hd]))
        simp [frameFor, hne, hg]
  refine hi.update hc rfl rfl rfl (show c.mark.length = _ from hi.markLen hc) rfl (fun _ => rfl)
    (fun _ => rfl) ?_ ?_
  · intro g d hg
    simp only [Server.setConn_gConnections, Server.log_gConnections,
      AssocList.lookup_replace hc] at hg
    rw [Server.setConn_trace, Server.log_trace, hown]
    split at hg
    · subst_vars
      cases hg
      rw [if_pos rfl, ← hi.out hc, List.append_assoc]
      rfl
    · rw [if_neg ‹_›, List.append_nil]
      exact hi.out hg
  · intro g hg
    rw [Server.setConn_trace, Server.log_trace, hown]
    exact (hi.closed hg).trans (List.prefix_append ..)

theorem register {f : Fd} {c : Connection} {mark : List UInt8}
    (hc : s.gConnections.lookup f = some c) (hreg : c.registered = false)
    (hlen : mark.length = markSize) (hfree : s.gMarkToFd.lookup (markToKey mark) = none) :
    Inv (({ s.setConn f { c with mark := mark, registered := true } with
      gMarkToFd := s.gMarkToFd.insert (markToKey mark) f } : Server).log (.register f mark)) := by
  have hnone : s.markAt f = none := by
    rw [Server.markAt_of_lookup hc, Connection.regMark, hreg]
    rfl
  have hl := AssocList.lookup_replace hc { c with mark := mark, registered := true }
  have hat : ∀ g, ((s.gConnections.replace f { c with mark := mark, registered := true }).lookup
      g).bind Connection.regMark = if g = f then some mark else s.markAt g := by
    intro g
    rw [hl, Server.markAt]
    split <;> rfl
  have hentry : ∀ {g d}, (s.gConnections.replace f { c with mark := mark, registered := true }).lookup
      g = some d → d.fd = g ∧ 0 ≤ g ∧ d.mark.length = markSize :=
    hi.entry hl (show c.fd = f from hi.fd_eq hc) (hi.nonneg hc) hlen
  refine ⟨fun h => (hentry h).1, fun h => (hentry h).2.1, fun h => (hentry h).2.2,
    fun {key g} => ?_, ?_, fun g => ?_, fun g => ?_, fun {g d} h => ?_, fun {g} h => ?_⟩
  · rw [Server.markAt, Server.log_gConnections, Server.setConn_gConnections, hat]
    by_cases hk : key = markToKey mark
    · subst hk
      by_cases hg : g = f
      · simp [hg]
      · have := (hi.owner : s.gMarkToFd.lookup (markToKey mark) = some g ↔ _)
        rw [hfree] at this
        simpa [hg, Ne.symm hg] using this
    · have hkey : (s.gMarkToFd.insert (markToKey mark) f).lookup key = s.gMarkToFd.lookup key :=
        AList.lookup_insert_ne hk
      by_cases hg : g = f
      · subst hg
        have := (hi.owner : s.gMarkToFd.lookup key = some g ↔ _)
        rw [hnone] at this
        simpa [hkey, Ne.symm hk] using this
      · have := (hi.owner : s.gMarkToFd.lookup key = some g ↔ _)
        simpa [hkey, hg] using this
  · exact (AssocList.length_replace f _).trans_le hi.size
  · rw [Server.log_gConnections, Server.setConn_gConnections, hl]
    by_cases hg : g = f
    · subst hg
      simpa [isOpen, hc] using hi.opened g
    · simpa [isOpen, hg] using hi.opened g
  · rw [Server.markAt, Server.log_gConnections, Server.setConn_gConnections, hat]
    by_cases hg : g = f
    · simp [markOf, hg]
    · simpa [markOf, hg, Ne.symm hg] using hi.marked g
  · rw [Server.log_gConnections, Server.setConn_gConnections, hl] at h
    split at h
    · subst_vars
      cases h
      exact (hi.out hc :)
    · exact hi.out h
  · exact hi.sent g

end Inv

end IsaacP2P.Relay
