import IsaacP2P.Relay.Induction
import IsaacP2P.Relay.Segmentation

/-!
# The timing of writes

`Ledger` is what the relay knows of its clients: its view and the bytes it has
not dealt with. What an event brings in (`Stimulus`) changes the ledger as
`Ledger.step` says, a function; when sockets take bytes, how many at a time,
and which writability events are reported does not enter. While no write fails
hard the server follows the ledger (`step_ledger`), so two runs on the same
input agree on everything but how much was sent (`write_timing_irrelevant`).
-/

namespace IsaacP2P.Relay

open LengthPrefixed (frame next stream)
open Streaming (feed)

variable {k : Kernel} {a : Fd} {s s' : Server} {ev : Event}

/-- The view of the server, and the received bytes of each connection. -/
structure Ledger where
  view : View
  recv : Fd → Option (List UInt8)

/-- What an event brings in: a new client and whether it is let in, an error on a
descriptor, or the answer of `read()`. -/
inductive Stimulus where
  | join (client : Option Fd) (admitted : Bool)
  | hangUp (fd : Fd)
  | data (fd : Fd) (answer : ReadResult)

/-- What the server is told by an event, if anything: an event that only reports
writability tells nothing. -/
def stimulus (listenFd : Fd) (i : Kernel × Event) : Option Stimulus :=
  if i.2.fd = listenFd then
    some (.join i.1.accept
      (i.1.accept.all fun f => i.1.setNonblocking f && i.1.epollCtl 0 f))
  else if i.2.errHup then some (.hangUp i.2.fd)
  else if i.2.input then some (.data i.2.fd (i.1.read i.2.fd))
  else none

/-- The answer to `EPOLL_CTL_ADD` depends on the descriptor alone; it is the only
`epoll_ctl` call of an accept. -/
def AddsAlike (listenFd : Fd) (i : Kernel × Event) : Prop :=
  i.2.fd = listenFd → ∀ n f, i.1.epollCtl n f = i.1.epollCtl 0 f

namespace Ledger

def close (a : Fd) (l : Ledger) : Ledger :=
  ⟨l.view.close a, Function.update l.recv a none⟩

/-- A new client; one that is not let in is closed again, and only what was owed
under its number before is gone. -/
noncomputable def join (listenFd epfd : Fd) (client : Option Fd) (admitted : Bool) (l : Ledger) :
    Ledger :=
  match client with
  | none => l
  | some f =>
    if 0 ≤ f ∧ f ≠ listenFd ∧ f ≠ epfd ∧ l.recv f = none then
      let view := { l.view with owed := Function.update l.view.owed f [] }
      if Set.ncard {g | l.recv g ≠ none} < maxConnections ∧ admitted = true then
        ⟨{ view with conns := Function.update view.conns f (some none) },
          Function.update l.recv f (some [])⟩
      else { l with view := view }
    else l

/-- The packets of the stream of `a` are dealt with. -/
def take (a : Fd) (buf : List UInt8) (l : Ledger) : Ledger :=
  match feed (stream maxPayload) (View.process a) (buf.length + 1) l.view buf with
  | (view, some rest) => ⟨view, Function.update l.recv a (some rest)⟩
  | (view, none) => close a { l with view := view }

def data (a : Fd) (answer : ReadResult) (l : Ledger) : Ledger :=
  match l.recv a with
  | none => l
  | some buf =>
    if bufferSize ≤ buf.length then l.close a
    else match answer with
      | .bytes b =>
        if b.take (bufferSize - buf.length) = [] then l.close a
        else l.take a (buf ++ b.take (bufferSize - buf.length))
      | .again => l
      | .fail => l.close a

noncomputable def step (listenFd epfd : Fd) (l : Ledger) : Stimulus → Ledger
  | .join client admitted => l.join listenFd epfd client admitted
  | .hangUp fd => l.close fd
  | .data fd answer => l.data fd answer

end Ledger

/-- The ledger of the server. -/
def Server.ledger (s : Server) : Ledger where
  view := s.view
  recv f := (s.gConnections.lookup f).map (·.recvBuf)

theorem Ledger.ext {l l' : Ledger} (hv : l.view = l'.view) (hr : ∀ f, l.recv f = l'.recv f) :
    l = l' := by
  cases l
  cases l'
  obtain rfl : _ = _ := hv
  obtain rfl : _ = _ := funext hr
  rfl

@[simp] theorem Server.ledger_view (s : Server) : s.ledger.view = s.view := rfl
@[simp] theorem Server.ledger_recv (s : Server) (f : Fd) :
    s.ledger.recv f = (s.gConnections.lookup f).map (·.recvBuf) := rfl

/-! ## Closing -/

theorem ledger_closeConnection (hi : Inv s) (a : Fd) :
    (closeConnection a s).ledger = s.ledger.close a := by
  refine Ledger.ext (view_closeConnection hi a) fun f => ?_
  show ((closeConnection a s).gConnections.lookup f).map (·.recvBuf) =
    Function.update s.ledger.recv a none f
  rw [closeConnection_lookup, Function.update_apply]
  split <;> rfl

theorem ledger_close_unknown (hi : Inv s) (h : s.gConnections.lookup a = none) :
    s.ledger.close a = s.ledger := by
  refine Ledger.ext ?_ fun f => ?_
  · ext1
    · funext f
      show (if f = a then none else s.view.conns f) = s.view.conns f
      split
      · subst_vars
        simp [h]
      · rfl
    · funext key
      show (if s.view.owner key = some a then none else s.view.owner key) = s.view.owner key
      split
      · rename_i ho
        obtain ⟨m, hm, -⟩ := hi.owner.mp ho
        rw [Server.markAt_of_none h] at hm
        cases hm
      · rfl
    · rfl
    · rfl
  · show Function.update s.ledger.recv a none f = _
    rw [Function.update_apply]
    split
    · subst_vars
      simp [h]
    · rfl

/-! ## The packet loop -/

theorem Loop.recv_other (h : Loop k a s s') (hi : Inv s) {c : Connection}
    (hc : s.gConnections.lookup a = some c) (hw : writeErrors s'.trace = writeErrors s.trace)
    {b : Fd} (hb : b ≠ a) : s'.ledger.recv b = s.ledger.recv b := by
  obtain ⟨new, ps, htr, -, ht⟩ := h.touched hi hc
  have hnew : ∀ f, .writeFail f ∉ new := by
    intro f hf
    obtain ⟨x, y, rfl⟩ := List.append_of_mem hf
    rw [htr, writeErrors_append, writeErrors_append] at hw
    simp only [writeErrors] at hw
    omega
  rw [Server.ledger_recv, Server.ledger_recv]
  cases ht b hb with
  | absent h0 h1 => rw [h0, h1]
  | removed _ _ _ hf => exact absurd hf (hnew b)
  | kept h0 h1 _ _ _ hbuf _ _ _ => simp [h0, h1, hbuf]

/-- Without a hard error the packet loop is `Ledger.take`. -/
theorem Loop.ledger (h : Loop k a s s') (hi : Inv s) {c : Connection}
    (hc : s.gConnections.lookup a = some c) (hw : writeErrors s'.trace = writeErrors s.trace) :
    s'.ledger = s.ledger.take a c.recvBuf := by
  obtain ⟨ps, v, r, hf, hend⟩ := h.feeds hi hc hw
  have hprog : ∀ {bs x rest}, (stream maxPayload).next bs = .item x rest →
      rest.length < bs.length := by
    intro bs x rest hx
    obtain ⟨rfl, -, -⟩ := LengthPrefixed.next_item hx
    simp only [List.length_append, LengthPrefixed.length_frame]
    omega
  have hfeed := hf.feed_eq hprog (Nat.lt_succ_self _)
  have hother : ∀ b, b ≠ a → s'.ledger.recv b = s.ledger.recv b := fun b =>
    h.recv_other hi hc hw
  rw [Ledger.take, Server.ledger_view, hfeed]
  rcases hend with ⟨c', hc', rfl, rfl⟩ | ⟨hn, rfl, hv⟩
  · refine Ledger.ext rfl fun b => ?_
    show s'.ledger.recv b = Function.update s.ledger.recv a (some c'.recvBuf) b
    rw [Function.update_apply]
    split
    · subst_vars
      simp [hc']
    · exact hother b ‹_›
  · refine Ledger.ext hv fun b => ?_
    show s'.ledger.recv b = Function.update s.ledger.recv a none b
    rw [Function.update_apply]
    split
    · subst_vars
      simp [hn]
    · exact hother b ‹_›

/-! ## The handlers -/

theorem writeErrors_suffix {tr tr' : List Ev} (h : tr <:+ tr') : writeErrors tr ≤ writeErrors tr' := by
  obtain ⟨new, rfl⟩ := h
  rw [writeErrors_append]
  exact Nat.le_add_left ..

theorem ledger_setRecv {c : Connection} (hc : s.gConnections.lookup a = some c) (b : List UInt8) :
    (s.setConn a { c with recvBuf := b }).ledger =
      { s.ledger with recv := Function.update s.ledger.recv a (some b) } := by
  refine Ledger.ext (Server.view_setConn _ hc rfl) fun f => ?_
  show ((s.setConn a _).gConnections.lookup f).map (·.recvBuf) =
    Function.update s.ledger.recv a (some b) f
  rw [Server.setConn_gConnections, AssocList.lookup_replace hc, Function.update_apply]
  split <;> rfl

theorem Ledger.take_update (a : Fd) (r : Option (List UInt8)) (buf : List UInt8) (l : Ledger) :
    ({ l with recv := Function.update l.recv a r } : Ledger).take a buf = l.take a buf := by
  show (match feed (stream maxPayload) (View.process a) (buf.length + 1) l.view buf with
    | (view, some rest) => _
    | (view, none) => _) = _
  rw [Ledger.take]
  split <;> simp only [Ledger.close, Function.update_idem]

/-- **`handle_client_data` on the ledger**, while no write fails hard. -/
theorem handleClientData_ledger (hi : Inv s) (h : handleClientData k a s = some s')
    (hw : writeErrors s'.trace = writeErrors s.trace) :
    s'.ledger = s.ledger.data a (k.read a) := by
  have hread : ∀ b, (s.log (.read a b)).ledger = s.ledger := fun _ => rfl
  unfold handleClientData at h
  rw [Ledger.data, Server.ledger_recv]
  cases hc : s.gConnections.lookup a with
  | none =>
    rw [hc] at h
    cases h
    exact (ledger_closeConnection hi a).trans (ledger_close_unknown hi hc)
  | some c =>
    simp only [hc] at h
    show _ = if bufferSize ≤ c.recvBuf.length then _ else _
    by_cases hfull : bufferSize ≤ c.recvBuf.length
    · rw [if_pos (by omega)] at h
      cases h
      rw [if_pos hfull]
      exact ledger_closeConnection hi a
    · rw [if_neg (by omega)] at h
      rw [if_neg hfull]
      cases hr : k.read a with
      | again =>
        rw [hr] at h
        cases h
        exact hread []
      | fail =>
        rw [hr] at h
        cases h
        exact ledger_closeConnection (hi.read a []) a
      | bytes b =>
        simp only [hr] at h
        by_cases hb : b.take (bufferSize - c.recvBuf.length) = []
        · rw [if_pos (by simp [hb])] at h
          cases h
          exact (ledger_closeConnection (hi.read a _) a).trans (if_pos hb).symm
        · rw [if_neg (by simpa using hb)] at h
          have hi' := (hi.read a (b.take (bufferSize - c.recvBuf.length))).setRecv hc
            (c.recvBuf ++ b.take (bufferSize - c.recvBuf.length))
          let c' := { c with recvBuf := c.recvBuf ++ b.take (bufferSize - c.recvBuf.length) }
          have hc' : ((s.log (.read a (b.take (bufferSize - c.recvBuf.length)))).setConn a
              c').gConnections.lookup a = some c' :=
            Server.setConn_lookup_self hc
          have hloop := packetLoop_loop hi' hc' (Nat.le_refl _) h
          show _ = if b.take (bufferSize - c.recvBuf.length) = [] then _ else _
          rw [if_neg hb, hloop.ledger hi' hc' hw, ledger_setRecv (s := s.log (.read a _)) hc,
            Ledger.take_update, hread]

theorem handleClientWrite_ledger (hi : Inv s) (h : handleClientWrite k a s = some s')
    (hw : writeErrors s'.trace = writeErrors s.trace) : s'.ledger = s.ledger := by
  obtain ⟨s₁, hs₁, hwrites⟩ := handleClientWrite_writes k a hi
  rw [h] at hs₁
  cases hs₁
  cases hwrites with
  | unknown hn => exact (ledger_closeConnection hi a).trans (ledger_close_unknown hi hn)
  | @flushed c w rest new hc hF =>
    have hfail : flushFails k a s.trace.length c.sendBuf = false := by
      apply hF.not_failed
      rw [flushedState_trace, writeErrors_append, writeErrors_append] at hw
      omega
    rw [hfail] at hF ⊢
    refine Ledger.ext (view_flushed hc hF) fun f => ?_
    rw [Server.ledger_recv, Server.ledger_recv, flushedState_lookup hc]
    split
    · subst_vars
      rw [hc]
      rfl
    · rfl

/-- A refused client leaves nothing but what its number was owed before. -/
theorem ledger_refused {f : Fd} {new : List Ev} (hnew : new = [] ∨ ∃ ok, new = [.epollAdd f ok]) :
    (s.logs (.close f :: new ++ [.accept f])).ledger =
      { s.ledger with view := { s.view with owed := Function.update s.view.owed f [] } } := by
  refine Ledger.ext ?_ fun _ => rfl
  ext1
  · rfl
  · rfl
  · funext g
    show forwarded g (.close f :: new ++ [.accept f] ++ s.trace) =
      Function.update (fun g => forwarded g s.trace) f [] g
    rw [Function.update_apply]
    rcases hnew with rfl | ⟨ok, rfl⟩ <;> simp [forwarded, eq_comm]
  · rcases hnew with rfl | ⟨ok, rfl⟩ <;> rfl

theorem ledger_enter (f : Fd) (s : Server) :
    (s.enter f).ledger =
      ⟨{ s.view with
          owed := Function.update s.view.owed f []
          conns := Function.update s.view.conns f (some none) },
        Function.update s.ledger.recv f (some [])⟩ := by
  have hl : ∀ g, (s.enter f).gConnections.lookup g =
      if g = f then some (.ofSocket f) else s.gConnections.lookup g := by
    intro g
    split
    · subst_vars
      exact AList.lookup_insert _
    · exact AList.lookup_insert_ne ‹_›
  refine Ledger.ext ?_ fun g => ?_
  · ext1
    · funext g
      show ((s.enter f).gConnections.lookup g).map Connection.regMark =
        Function.update s.view.conns f (some none) g
      rw [hl, Function.update_apply]
      split <;> rfl
    · rfl
    · funext g
      show forwarded g (.epollAdd f true :: .accept f :: s.trace) =
        Function.update (fun g => forwarded g s.trace) f [] g
      rw [Function.update_apply]
      simp [forwarded, eq_comm]
    · rfl
  · show ((s.enter f).gConnections.lookup g).map (·.recvBuf) =
      Function.update s.ledger.recv f (some []) g
    rw [hl, Function.update_apply]
    split <;> rfl

/-- **`handle_new_connection` on the ledger.** -/
theorem handleNewConnection_ledger (hi : Inv s) (hadd : ∀ n f, k.epollCtl n f = k.epollCtl 0 f) :
    (handleNewConnection k s).ledger = s.ledger.join s.listenFd s.epfd k.accept
      (k.accept.all fun f => k.setNonblocking f && k.epollCtl 0 f) := by
  have hsize : Set.ncard {g | s.ledger.recv g ≠ none} = s.gConnections.entries.length := by
    rw [← AssocList.ncard_lookup]
    congr 1
    ext g
    simp
  have hfree : ∀ f, (0 ≤ f ∧ f ≠ s.listenFd ∧ f ≠ s.epfd ∧ s.ledger.recv f = none) ↔
      s.free f = true := by
    intro f
    have hlook : s.gConnections.lookup f = none ↔ isOpen f s.trace = false := by
      rw [hi.opened]
      cases s.gConnections.lookup f <;> simp
    rw [Server.free_iff, Server.ledger_recv, Option.map_eq_none_iff, hlook]
  cases ha : k.accept with
  | none =>
    have hnone : handleNewConnection k s = s := by simp [handleNewConnection, ha]
    rw [hnone]
    rfl
  | some f =>
    -- letting the client in is what the ledger tests
    have hadmits : s.free f = true → (Admits k s f ↔
        Set.ncard {g | s.ledger.recv g ≠ none} < maxConnections ∧
          (some f).all (fun f => k.setNonblocking f && k.epollCtl 0 f) = true) := by
      intro hf
      rw [hsize, Admits, hadd, ha, Option.filter_some, if_pos hf]
      simp
    show _ = if _ then (if _ then _ else _) else _
    simp only [hfree]
    have haccepts := handleNewConnection_accepts k s
    generalize handleNewConnection k s = s' at haccepts
    cases haccepts with
    | nothing hn =>
      have hf : ¬ s.free f = true := by
        intro hf
        rw [ha, Option.filter_some, if_pos hf] at hn
        cases hn
      rw [if_neg hf]
    | @refused g new hg hna hnew =>
      obtain ⟨hag, hf⟩ := Option.filter_eq_some_iff.mp hg
      obtain rfl : f = g := Option.some.inj (ha.symm.trans hag)
      rw [if_pos hf, if_neg (mt (hadmits hf).mpr hna)]
      exact ledger_refused hnew
    | @accepted g hg =>
      obtain ⟨hag, hf⟩ := Option.filter_eq_some_iff.mp hg.1
      obtain rfl : f = g := Option.some.inj (ha.symm.trans hag)
      rw [if_pos hf, if_pos ((hadmits hf).mp hg)]
      exact ledger_enter f s

/-! ## Runs -/

theorem step_ledger {i : Kernel × Event} (hi : Inv s) (hadd : AddsAlike s.listenFd i)
    (h : step i s = some s') (hw : writeErrors s'.trace = writeErrors s.trace) :
    s'.ledger = (stimulus s.listenFd i).toList.foldl (Ledger.step s.listenFd s.epfd) s.ledger := by
  obtain ⟨k, ev⟩ := i
  unfold step dispatch at h
  unfold stimulus
  by_cases hl : ev.fd = s.listenFd
  · rw [if_pos hl] at h
    cases h
    rw [if_pos hl]
    exact handleNewConnection_ledger hi (hadd hl)
  · rw [if_neg hl] at h
    rw [if_neg hl]
    obtain ⟨m, hm, h⟩ := Option.bind_eq_some_iff.mp h
    -- the first half tells the server something, the second sends
    have hfirst : Inv m ∧ s.trace <:+ m.trace ∧
        (writeErrors m.trace = writeErrors s.trace → m.ledger =
          (if ev.errHup then some (.hangUp ev.fd)
            else if ev.input then some (.data ev.fd (k.read ev.fd)) else none : Option Stimulus).toList.foldl
              (Ledger.step s.listenFd s.epfd) s.ledger) := by
      cases he : ev.errHup with
      | true =>
        rw [he] at hm
        cases hm
        exact ⟨hi.closeConnection ev.fd, (Keeps.closeConnection ev.fd ev.fd s).suffix List.suffix_rfl,
          fun _ => ledger_closeConnection hi ev.fd⟩
      | false =>
        cases hin : ev.input with
        | true =>
          simp only [he, hin, Bool.false_eq_true, if_false, if_true] at hm
          have hr := handleClientData_receives hi hm
          exact ⟨hr.inv hi, (hr.keeps ev.fd).suffix List.suffix_rfl, handleClientData_ledger hi hm⟩
        | false =>
          simp only [he, hin, Bool.false_eq_true, if_false] at hm
          cases hm
          exact ⟨hi, List.suffix_rfl, fun _ => rfl⟩
    obtain ⟨him, hsm, hledger⟩ := hfirst
    have h1 := writeErrors_suffix hsm
    split at h
    · obtain ⟨m', hm', hwrites⟩ := handleClientWrite_writes k ev.fd him
      rw [h] at hm'
      cases hm'
      have h2 := writeErrors_suffix ((hwrites.keeps ev.fd).suffix List.suffix_rfl)
      rw [handleClientWrite_ledger him h (by omega)]
      exact hledger (by omega)
    · cases h
      exact hledger hw

/-- **The server follows the ledger** along a run in which no write fails hard. -/
theorem run_ledger {is : List (Kernel × Event)} (hi : Inv s)
    (hadd : ∀ i ∈ is, AddsAlike s.listenFd i) (h : Runs.run step is s = some s')
    (hw : writeErrors s'.trace = writeErrors s.trace) :
    s'.ledger = (is.filterMap (stimulus s.listenFd)).foldl (Ledger.step s.listenFd s.epfd)
      s.ledger := by
  induction is generalizing s with
  | nil =>
    cases h
    rfl
  | cons i is ih =>
    obtain ⟨m, hm, hr⟩ := Runs.run_cons_iff.mp h
    have him := step_inv i s m hi hm
    have hone : Runs.run step [i] s = some m := by simp [Runs.run, hm]
    obtain ⟨hml, hme⟩ := (fds_kept s.listenFd s.epfd).run hi ⟨rfl, rfl⟩ hone
    have h1 := writeErrors_suffix (run_suffix hi hone)
    have h2 := writeErrors_suffix (run_suffix him hr)
    have hrest := ih him (fun j hj => hml ▸ hadd j (List.mem_cons_of_mem _ hj)) hr (by omega)
    rw [hml, hme, step_ledger hi (hadd i (List.mem_cons_self ..)) hm (by omega)] at hrest
    rw [hrest, List.filterMap_cons]
    cases stimulus s.listenFd i <;> rfl

/-- **The timing of writes does not matter**: two runs on the same input in which no
write fails hard process the same packets and leave the same registry, the same
connections with the same bytes not dealt with, and the same bytes sent or
waiting on each, whatever the sockets took at which time. -/
theorem write_timing_irrelevant (h : Reachable s) {is₁ is₂ : List (Kernel × Event)}
    {s₁ s₂ : Server} (h₁ : Runs.run step is₁ s = some s₁) (h₂ : Runs.run step is₂ s = some s₂)
    (hsame : is₁.filterMap (stimulus s.listenFd) = is₂.filterMap (stimulus s.listenFd))
    (hadd : ∀ i ∈ is₁ ++ is₂, AddsAlike s.listenFd i)
    (hw₁ : writeErrors s₁.trace = writeErrors s.trace)
    (hw₂ : writeErrors s₂.trace = writeErrors s.trace) :
    packets s₁.trace = packets s₂.trace ∧
    (∀ key, s₁.gMarkToFd.lookup key = s₂.gMarkToFd.lookup key) ∧
    (∀ f, s₁.gConnections.lookup f = none ↔ s₂.gConnections.lookup f = none) ∧
    ∀ f c₁ c₂, s₁.gConnections.lookup f = some c₁ → s₂.gConnections.lookup f = some c₂ →
      c₁.regMark = c₂.regMark ∧ c₁.recvBuf = c₂.recvBuf ∧
      written f s₁.trace ++ c₁.sendBuf = written f s₂.trace ++ c₂.sendBuf := by
  have hi := reachable_inv h
  have hi₁ := Runs.run_invariant step_inv hi h₁
  have hi₂ := Runs.run_invariant step_inv hi h₂
  have hledger : s₁.ledger = s₂.ledger := by
    rw [run_ledger hi (fun i hi => hadd i (List.mem_append_left _ hi)) h₁ hw₁,
      run_ledger hi (fun i hi => hadd i (List.mem_append_right _ hi)) h₂ hw₂, hsame]
  have hview : s₁.view = s₂.view := congrArg Ledger.view hledger
  have hrecv : ∀ f, (s₁.gConnections.lookup f).map (·.recvBuf) =
      (s₂.gConnections.lookup f).map (·.recvBuf) := congrFun (congrArg Ledger.recv hledger)
  have hconns : ∀ f, (s₁.gConnections.lookup f).map Connection.regMark =
      (s₂.gConnections.lookup f).map Connection.regMark := congrFun (congrArg View.conns hview)
  refine ⟨congrArg View.packets hview, congrFun (congrArg View.owner hview), fun f => ?_,
    fun f c₁ c₂ hc₁ hc₂ => ⟨?_, ?_, ?_⟩⟩
  · rw [← Option.map_eq_none_iff (f := Connection.regMark), hconns, Option.map_eq_none_iff]
  · have := hconns f
    rw [hc₁, hc₂] at this
    exact Option.some.inj this
  · have := hrecv f
    rw [hc₁, hc₂] at this
    exact Option.some.inj this
  · rw [hi₁.out hc₁, hi₂.out hc₂]
    exact congrFun (congrArg View.owed hview) f

/-- After `twoClients` the receiver's socket takes what waits at once, or one byte
at the first report of writability. -/
theorem twoClientsEnd_timing : ∃ s₁ s₂,
    Runs.run step [({ write := fun _ _ => .wrote 9 }, { fd := 6, output := true })] twoClientsEnd
      = some s₁ ∧
    Runs.run step [({ write := fun n _ => if n = 15 then .wrote 0 else .again },
      { fd := 6, output := true }), ({}, { fd := 6, output := true })] twoClientsEnd = some s₂ ∧
    packets s₁.trace = packets s₂.trace ∧
    written 6 s₁.trace = [3, 0, 0, 0, 7, 8, 9] ∧ written 6 s₂.trace = [3, 0, 0, 0, 7] := by
  let is₁ : List (Kernel × Event) :=
    [({ write := fun _ _ => .wrote 9 }, { fd := 6, output := true })]
  let is₂ : List (Kernel × Event) :=
    [({ write := fun n _ => if n = 15 then .wrote 0 else .again }, { fd := 6, output := true }),
      ({}, { fd := 6, output := true })]
  let s₁ := (Runs.run step is₁ twoClientsEnd).get (by decide +kernel)
  let s₂ := (Runs.run step is₂ twoClientsEnd).get (by decide +kernel)
  have h₁ : Runs.run step is₁ twoClientsEnd = some s₁ := by simp [s₁]
  have h₂ : Runs.run step is₂ twoClientsEnd = some s₂ := by simp [s₂]
  have hfd : ∀ i ∈ is₁ ++ is₂, i.2.fd = 6 := by simp [is₁, is₂]
  have hadd : ∀ i ∈ is₁ ++ is₂, AddsAlike twoClientsEnd.listenFd i := by
    intro i hi hl
    rw [hfd i hi] at hl
    exact absurd hl (by decide +kernel)
  exact ⟨s₁, s₂, h₁, h₂, (write_timing_irrelevant twoClientsEnd_reachable h₁ h₂ rfl hadd
    (by decide +kernel) (by decide +kernel)).1, by decide +kernel, by decide +kernel⟩

end IsaacP2P.Relay
