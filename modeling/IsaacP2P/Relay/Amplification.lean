import IsaacP2P.Relay.Statistics

/-!
# No amplification

The bytes the relay has written, those it holds in its buffers and what the
packets cost are no more than the bytes it has read (`no_amplification`): a
frame that is forwarded is shorter than the one it came in by the mark.
-/

namespace IsaacP2P.Relay

variable {k : Kernel} {s s' : Server} {f : Fd}

/-- The bytes in the buffers of all connections. -/
def Server.held (s : Server) : Nat :=
  AssocList.total (fun c => c.sendBuf.length + c.recvBuf.length) s.gConnections

/-- The bytes written and held, and what the packets cost: five bytes each, and three
more when forwarded. -/
def Server.load (s : Server) : Nat :=
  bytesWritten s.trace + s.held + 5 * (fates s.trace).length +
    3 * (fates s.trace).count .forwarded

/-- The load grows by at most `n` more than the bytes read meanwhile. -/
def Costs (n : Nat) (s s' : Server) : Prop :=
  s'.load + bytesRead s.trace ≤ s.load + bytesRead s'.trace + n

theorem Costs.trans {m n : Nat} {s₁ s₂ s₃ : Server} (h : Costs m s₁ s₂) (h' : Costs n s₂ s₃) :
    Costs (m + n) s₁ s₃ := by
  unfold Costs at *
  omega

theorem load_closeConnection (f : Fd) (s : Server) :
    (closeConnection f s).load +
      ((s.gConnections.lookup f).elim 0 fun c => c.sendBuf.length + c.recvBuf.length) = s.load := by
  have hheld : (closeConnection f s).held +
      ((s.gConnections.lookup f).elim 0 fun c => c.sendBuf.length + c.recvBuf.length) =
        s.held := by
    unfold Server.held
    rw [closeConnection, Server.log_gConnections, Server.log_gConnections]
    cases hc : s.gConnections.lookup f with
    | none => rw [Server.dropConn_none hc, Option.elim_none, Nat.add_zero]
    | some c =>
      rw [Server.dropConn_some hc]
      exact AssocList.total_erase hc
  simp only [Server.load, closeConnection_trace, bytesWritten, fates]
  omega

theorem costs_closeConnection (f : Fd) (s : Server) : Costs 0 s (closeConnection f s) := by
  have := load_closeConnection f s
  simp only [Costs, closeConnection_trace, bytesRead]
  omega

theorem held_setConn {c : Connection} (c' : Connection) (hc : s.gConnections.lookup f = some c) :
    (s.setConn f c').held + (c.sendBuf.length + c.recvBuf.length) =
      s.held + (c'.sendBuf.length + c'.recvBuf.length) :=
  AssocList.total_replace hc c'

theorem OutputOn.bytesWritten {new : List Ev} (h : OutputOn f new) (tr : List Ev) :
    bytesWritten (new ++ tr) = bytesWritten tr + (written f new).length := by
  induction new with
  | nil => rfl
  | cons e new ih =>
    have he := h e (List.mem_cons_self ..)
    have ih := ih fun e' he' => h e' (List.mem_cons_of_mem _ he')
    cases e with
    | write g bytes =>
      obtain rfl : g = f := he
      simp only [List.cons_append, Relay.bytesWritten, written, if_pos, List.length_append, ih]
      omega
    | writeAgain _ | writeFail _ | epollMod _ _ _ => exact ih
    | _ => exact he.elim

theorem costs_flushedState {c : Connection} {buf w rest : List UInt8} {failed : Bool}
    {new : List Ev} (hc : s.gConnections.lookup f = some c)
    (hF : Flushed f buf w rest failed new) :
    Costs (buf.length - c.sendBuf.length) s (flushedState f c rest failed new s) := by
  have hfates : fates (new ++ s.trace) = fates s.trace :=
    hF.output.ignored (fun e tr he => by cases e <;> first | exact he.elim | rfl) s.trace
  have hread : bytesRead (new ++ s.trace) = bytesRead s.trace :=
    hF.output.ignored (fun e tr he => by cases e <;> first | exact he.elim | rfl) s.trace
  have hwritten := hF.output.bytesWritten s.trace
  rw [hF.written] at hwritten
  have hlen := congrArg List.length hF.split
  rw [List.length_append] at hlen
  have hsent : Costs (buf.length - c.sendBuf.length) s
      ((s.logs new).setConn f { c with sendBuf := rest }) := by
    have hheld := held_setConn (s := s.logs new) { c with sendBuf := rest } hc
    have hsame : (s.logs new).held = s.held := rfl
    simp only [Costs, Server.load, Server.setConn_trace, Server.logs_trace, hfates, hread,
      hwritten] at hheld ⊢
    omega
  cases failed with
  | false => exact hsent
  | true => exact hsent.trans (costs_closeConnection f _)

theorem lt_length_of_forwarded {a : Fd} {data : List UInt8} {tr : List Ev}
    (h : fate a data tr = .forwarded) : markSize < data.length := by
  unfold fate at h
  split at h
  · split at h <;> cases h
  · split at h
    · cases h
    · split at h
      · cases h
      · split at h
        · cases h
        · rename_i hd
          exact Nat.lt_of_not_le fun hle => hd (List.drop_eq_nil_of_le hle)

/-- Counting a packet costs no more than its frame has bytes, and what is forwarded
less than that by the frame it becomes. -/
theorem costs_packet (a : Fd) {data : List UInt8} (hd : data ≠ []) (s : Server) :
    Costs (4 + data.length) s (s.log (.packet a data)) ∧
      (data.drop markSize ≠ [] → Costs 8 s (s.log (.packet a data))) := by
  have hpos := List.length_pos_iff.mpr hd
  have hsame : (s.log (.packet a data)).held = s.held := rfl
  simp only [Costs, Server.load, hsame, Server.log_trace, bytesRead, bytesWritten, fates,
    List.length_cons, List.count_cons]
  by_cases hf : fate a data s.trace = .forwarded
  · have := lt_length_of_forwarded hf
    simp only [hf, beq_self_eq_true, if_true, markSize] at this ⊢
    omega
  · simp only [beq_iff_eq, hf, if_false]
    omega

theorem costs_setConn {c : Connection} (c' : Connection) (hc : s.gConnections.lookup f = some c)
    (hsend : c'.sendBuf = c.sendBuf) (hrecv : c'.recvBuf = c.recvBuf) :
    Costs 0 s (s.setConn f c') := by
  have := held_setConn c' hc
  rw [hsend, hrecv] at this
  simp only [Costs, Server.load, Server.setConn_trace]
  omega

theorem Outcome.costs {a : Fd} {c : Connection} {p : List UInt8} {more : Bool}
    (h : Outcome k a c p s more s') (hc : s.gConnections.lookup a = some c) (hp : p ≠ []) :
    Costs (4 + p.length) s s' := by
  obtain ⟨hpacket, hforward⟩ := costs_packet a hp s
  cases h with
  | wrongLength _ _ | dropped _ _ => exact hpacket
  | taken _ _ _ => exact hpacket.trans (costs_setConn { c with mark := p } hc rfl rfl)
  | registers _ _ _ =>
    exact hpacket.trans (costs_setConn { c with mark := p, registered := true } hc rfl rfl)
  | @forwards t tc m w rest failed new _ ht _ htake hd _ hF =>
    have hflush := (hforward hd).trans
      (costs_flushedState (s := s.log (.packet a p)) ht hF)
    have hframe : (frameFor m p).length = 4 + (p.length - 8) := by
      rw [frameFor, if_pos ⟨htake, hd⟩, LengthPrefixed.length_frame, List.length_drop, markSize]
    have hlen : 8 < p.length := Nat.lt_of_not_le fun hle => hd (List.drop_eq_nil_of_le hle)
    rw [List.length_append, hframe] at hflush
    unfold Costs at *
    omega

theorem Loop.costs {a : Fd} (h : Loop k a s s') (hi : Inv s) : Costs 0 s s' := by
  induction h with
  | wait => exact Nat.le_refl _
  | bad => exact costs_closeConnection a _
  | @reject s m c p rest hc hnext ho =>
    -- the packet is still in the buffer when the connection is closed
    obtain ⟨hbuf, hp, -⟩ := LengthPrefixed.next_item hnext
    have hlen := congrArg List.length hbuf
    rw [List.length_append, LengthPrefixed.length_frame] at hlen
    have hcost := ho.costs hc hp
    have hclose := load_closeConnection a m
    rcases ho.lookup_ref hc with ⟨c', hc', hrecv, -⟩ | ⟨hmore, -⟩
    · rw [hc', Option.elim_some, hrecv] at hclose
      simp only [Costs, closeConnection_trace, bytesRead] at hcost ⊢
      omega
    · cases hmore
  | @more s m s' c c' p rest hc hnext ho hc' _ ih =>
    obtain ⟨hbuf, hp, -⟩ := LengthPrefixed.next_item hnext
    have hlen := congrArg List.length hbuf
    rw [List.length_append, LengthPrefixed.length_frame] at hlen
    have hcost := ho.costs hc hp
    have htake := held_setConn { c' with recvBuf := rest } hc'
    rw [(ho.kept_ref hc hc').1] at htake
    have ih := ih ((ho.inv hi hc).setRecv hc' _)
    simp only [Costs, Server.load, Server.setConn_trace] at hcost htake ih ⊢
    omega

theorem costs_read (f : Fd) (bytes : List UInt8) (s : Server) :
    Costs 0 s (s.log (.read f bytes)) ∧
      ∀ c, s.gConnections.lookup f = some c → Costs 0 s
        ((s.log (.read f bytes)).setConn f { c with recvBuf := c.recvBuf ++ bytes }) := by
  have hsame : (s.log (.read f bytes)).held = s.held := rfl
  constructor
  · simp only [Costs, Server.load, hsame, Server.log_trace, bytesRead, bytesWritten, fates]
    omega
  · intro c hc
    have := held_setConn (s := s.log (.read f bytes)) { c with recvBuf := c.recvBuf ++ bytes } hc
    simp only [Costs, Server.load, hsame, Server.setConn_trace, Server.log_trace, bytesRead,
      bytesWritten, fates, List.length_append] at this ⊢
    omega

theorem Receives.costs {a : Fd} (h : Receives k a s s') (hi : Inv s) : Costs 0 s s' := by
  cases h with
  | unknown _ | full _ _ => exact costs_closeConnection a s
  | ended _ _ => exact (costs_read a [] s).1.trans (costs_closeConnection a _)
  | again _ _ => exact (costs_read a [] s).1
  | @data c b s' hc _ _ hloop =>
    exact ((costs_read a b s).2 c hc).trans (hloop.costs ((hi.read a b).setRecv hc _))

theorem Accepts.costs (h : Accepts k s s') (hi : Inv s) : Costs 0 s s' := by
  cases h with
  | nothing _ => exact Nat.le_refl _
  | refused _ _ hnew => rcases hnew with rfl | ⟨ok, rfl⟩ <;> exact Nat.le_refl _
  | @accepted f hf =>
    have hopen := (Server.free_iff.mp (free_of_accept hf.1)).2.2.2
    rw [hi.opened, Option.isSome_eq_false_iff, Option.isNone_iff_eq_none,
      AList.lookup_eq_none] at hopen
    have hheld : (s.enter f).held = s.held := AssocList.total_insert hopen _
    show (s.enter f).load + bytesRead s.trace ≤ s.load + bytesRead s.trace + 0
    rw [Server.load, hheld]
    exact Nat.le_refl _

theorem Dispatches.costs {ev : Event} (h : Dispatches k ev s s') (hi : Inv s) :
    Costs 0 s s' := by
  have hreacts : ∀ {m}, Reacts k ev s m → Costs 0 s m := by
    intro m hm
    cases hm with
    | error _ => exact costs_closeConnection ev.fd s
    | input _ _ hr => exact hr.costs hi
    | neither _ _ => exact Nat.le_refl _
  cases h with
  | accept _ ha => exact ha.costs hi
  | take _ _ ht => exact hreacts ht
  | write _ _ ht hw =>
    cases hw with
    | unknown _ => exact (hreacts ht).trans (costs_closeConnection ev.fd _)
    | @flushed c w rest new hc hF =>
      have hflush := costs_flushedState hc hF
      rw [Nat.sub_self] at hflush
      exact (hreacts ht).trans hflush

/-- **No amplification**: in every reachable state the bytes written, the bytes in
all buffers, five bytes for every packet and three more for every packet forwarded
are together no more than the bytes read. -/
theorem no_amplification (h : Reachable s) :
    bytesWritten s.trace + s.held + 5 * (fates s.trace).length +
      3 * (fates s.trace).count .forwarded ≤ bytesRead s.trace := by
  obtain ⟨listenFd, epfd, hr⟩ := h
  have hload := hr.invariant (P := fun s => Inv s ∧ s.load ≤ bytesRead s.trace)
    ⟨init_inv listenFd epfd, Nat.le_refl _⟩ fun i s s' hs hm => by
      have hd := dispatch_dispatches hs.1 hm
      have hcost := hd.costs hs.1
      unfold Costs at hcost
      exact ⟨hd.inv hs.1, by omega⟩
  exact hload.2

theorem twoClientsEnd_load :
    bytesWritten twoClientsEnd.trace + twoClientsEnd.held + 5 * (fates twoClientsEnd.trace).length +
      3 * (fates twoClientsEnd.trace).count .forwarded ≤ bytesRead twoClientsEnd.trace :=
  no_amplification twoClientsEnd_reachable

end IsaacP2P.Relay