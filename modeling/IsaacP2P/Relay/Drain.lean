import IsaacP2P.Relay.Contract
import IsaacP2P.Relay.Induction

/-!
# Every byte owed is written

A report of writability at which the socket takes something shortens the send
buffer by a byte at least, and nothing the server does takes back a byte that
was written or is owed. So after as many such reports as bytes waited, all that
was owed at the beginning has been written, whatever else the server did
meanwhile (`owed_bytes_leave`).
-/

namespace IsaacP2P.Relay

open LengthPrefixed (frame)

variable {k : Kernel} {s s' : Server} {t : Fd} {new tr : List Ev}

/-! ## Nothing is taken back -/

theorem written_mono (h : .accept t ∉ new) : written t tr <+: written t (new ++ tr) := by
  induction new with
  | nil => exact List.prefix_rfl
  | cons e new ih =>
    have ih := ih fun hm => h (List.mem_cons_of_mem _ hm)
    cases e with
    | accept g =>
      have hg : g ≠ t := by
        rintro rfl
        exact h (List.mem_cons_self ..)
      simpa [written, hg] using ih
    | write g bytes =>
      simp only [List.cons_append, written]
      split
      · exact ih.trans (List.prefix_append ..)
      · exact ih
    | _ => exact ih

theorem forwarded_mono (h : .accept t ∉ new) : forwarded t tr <+: forwarded t (new ++ tr) := by
  induction new with
  | nil => exact List.prefix_rfl
  | cons e new ih =>
    have ih := ih fun hm => h (List.mem_cons_of_mem _ hm)
    cases e with
    | accept g =>
      have hg : g ≠ t := by
        rintro rfl
        exact h (List.mem_cons_self ..)
      simpa [forwarded, hg] using ih
    | packet a data =>
      simp only [List.cons_append, forwarded]
      split
      · exact ih.trans (List.prefix_append ..)
      · exact ih
    | _ => exact ih

theorem step_new {i : Kernel × Event} (hi : Inv s) (ht : t ∈ s.gConnections)
    (h : step i s = some s') : ∃ new, s'.trace = new ++ s.trace ∧ .accept t ∉ new := by
  have hopen : isOpen t s.trace = true := by
    rw [hi.opened]
    exact AList.lookup_isSome.mpr ht
  have hkeeps : ∀ {m}, Keeps t s m → ∃ new, m.trace = new ++ s.trace ∧ .accept t ∉ new := by
    rintro m ⟨-, new, htr, ha, -⟩
    exact ⟨new, htr, ha t⟩
  have hother : ∀ {f}, i.1.accept.filter s.free = some f → t ≠ f := by
    rintro f hf rfl
    have := hopen.symm.trans (Server.free_iff.mp (free_of_accept hf)).2.2.2
    cases this
  cases dispatch_dispatches hi h with
  | accept _ ha =>
    cases ha with
    | nothing _ => exact ⟨[], rfl, List.not_mem_nil⟩
    | @refused f new hf _ hnew =>
      refine ⟨.close f :: new ++ [.accept f], rfl, ?_⟩
      have := hother hf
      rcases hnew with rfl | ⟨ok, rfl⟩ <;> simpa using this
    | @accepted f hf =>
      refine ⟨[.epollAdd f true, .accept f], rfl, ?_⟩
      simpa using hother hf.1
  | take _ _ hr => exact hkeeps (hr.keeps t)
  | write _ _ hr hw => exact hkeeps ((hr.keeps t).trans (hw.keeps t))

/-! ## A report of writability -/

/-- The event reports that `t` is writable, and the first `write()` takes something. -/
def serves (t : Fd) (i : Kernel × Event) (s : Server) : Bool :=
  i.2 = { fd := t, output := true } &&
    match i.1.write s.trace.length t with
    | .wrote _ => true
    | _ => false

/-- A flush whose first `write()` takes something writes a byte. -/
theorem flushSendBuffer_writes {c : Connection} {m : Nat} (hi : Inv s)
    (hc : s.gConnections.lookup t = some c) (hbuf : c.sendBuf ≠ [])
    (hw : k.write s.trace.length t = .wrote m) (h : flushSendBuffer k t s = some s') :
    (written t s.trace).length < (written t s'.trace).length := by
  obtain ⟨n, hn⟩ := Nat.exists_eq_succ_of_ne_zero (mt List.length_eq_zero_iff.mp hbuf)
  let b := c.sendBuf.take (min (m + 1) c.sendBuf.length)
  let c' : Connection := { c with sendBuf := c.sendBuf.drop (min (m + 1) c.sendBuf.length) }
  let m' := (s.log (.write t b)).setConn t c'
  have hfd := hi.fd_eq hc
  have hloop : flushSendBuffer k t s = flushLoop k t n m' := by
    have hn' : c.sendBuf.length = n + 1 := hn
    simp [flushSendBuffer, hc, hfd, Int.not_lt.mpr (hi.nonneg hc), hbuf, hn', flushLoop, hw, m', b,
      c']
  have hc' : m'.gConnections.lookup t = some c' := Server.setConn_lookup_self (s := s.log _) hc
  have hlen : c'.sendBuf.length ≤ n := by
    show (c.sendBuf.drop _).length ≤ n
    rw [List.length_drop]
    omega
  obtain ⟨w, rest, new, hF, he⟩ := flushLoop_eq (k := k) hc' hfd hlen
  rw [hloop, he] at h
  cases h
  obtain ⟨hbooks, -, -⟩ := hF.books c' m' t
  rw [hbooks, if_pos rfl]
  show _ < ((if t = t then written t s.trace ++ b else written t s.trace) ++ w).length
  rw [if_pos rfl, List.length_append, List.length_append]
  have : 0 < b.length := by
    rw [List.length_take]
    omega
  omega

theorem OwnFds.ne_listenFd (hown : OwnFds s) (hi : Inv s) {c : Connection}
    (hc : s.gConnections.lookup t = some c) : t ≠ s.listenFd := by
  refine (hown t (accept_of_isOpen ?_)).1
  rw [hi.opened, hc]
  rfl

theorem step_serves {i : Kernel × Event} {c : Connection} (hi : Inv s)
    (hlisten : t ≠ s.listenFd) (hc : s.gConnections.lookup t = some c) (hbuf : c.sendBuf ≠ [])
    (hserves : serves t i s = true) (h : step i s = some s') :
    (written t s.trace).length < (written t s'.trace).length := by
  obtain ⟨k, ev⟩ := i
  simp only [serves, Bool.and_eq_true, decide_eq_true_eq] at hserves
  obtain ⟨rfl, htakes⟩ := hserves
  have hflush : flushSendBuffer k t s = some s' := by
    simpa [step, dispatch, hlisten, handleClientWrite, hc] using h
  cases hw : k.write s.trace.length t with
  | wrote m => exact flushSendBuffer_writes hi hc hbuf hw hflush
  | again | fail => simp [hw] at htakes

/-! ## Runs -/

/-- The connection of `t` is there after the step. -/
def StaysConnected (t : Fd) (i : Kernel × Event) (s : Server) : Prop :=
  ∀ s' ∈ step i s, t ∈ s'.gConnections

instance (t : Fd) (i : Kernel × Event) (s : Server) : Decidable (StaysConnected t i s) :=
  inferInstanceAs (Decidable (∀ s' ∈ step i s, t ∈ s'.gConnections))

/-- The bytes of `w` not yet written to `t`. -/
def unwritten (t : Fd) (w : List UInt8) (s : Server) : Nat :=
  w.length - (written t s.trace).length

/-- One step brings the bytes `w`, owed to `t`, no farther from being written, and a
report of writability brings one of them out. -/
theorem step_unwritten {w : List UInt8} (i : Kernel × Event) (s s' : Server)
    (hs : Inv s ∧ OwnFds s ∧ t ∈ s.gConnections ∧ w <+: forwarded t s.trace)
    (hstay : StaysConnected t i s) (h : step i s = some s') :
    (Inv s' ∧ OwnFds s' ∧ t ∈ s'.gConnections ∧ w <+: forwarded t s'.trace) ∧
      unwritten t w s' ≤ unwritten t w s ∧
      (serves t i s = true → unwritten t w s ≠ 0 → unwritten t w s' < unwritten t w s) := by
  obtain ⟨hi, hown, ht, hw⟩ := hs
  obtain ⟨new, htr, hnew⟩ := step_new hi ht h
  have hwritten : written t s.trace <+: written t (new ++ s.trace) := written_mono hnew
  have hforwarded : forwarded t s.trace <+: forwarded t (new ++ s.trace) := forwarded_mono hnew
  rw [← htr] at hwritten hforwarded
  obtain ⟨hi', hown'⟩ := ownFds_kept.step i s s' ⟨hi, hown⟩ h
  have hle := hwritten.length_le
  refine ⟨⟨hi', hown', hstay s' h, hw.trans hforwarded⟩, by unfold unwritten; omega, ?_⟩
  intro hserves hne
  obtain ⟨c, hc⟩ := AssocList.exists_lookup ht
  have hbuf : c.sendBuf ≠ [] := by
    intro he
    -- everything owed would be written
    have hout := hi.out hc
    rw [he, List.append_nil] at hout
    rw [← hout] at hw
    have := hw.length_le
    unfold unwritten at hne
    omega
  have := step_serves hi (hown.ne_listenFd hi hc) hc hbuf hserves h
  unfold unwritten at hne ⊢
  omega

/-- **Every byte owed is written**: after as many reports of writability at which the
socket of `t` takes something as there are bytes waiting, all that was owed to `t`
at the beginning has been written, in whatever order other events come between. -/
theorem owed_bytes_leave (h : Reachable s) {c : Connection}
    (hc : s.gConnections.lookup t = some c) {is : List (Kernel × Event)}
    (hr : Runs.run step is s = some s') (hstay : Runs.Meets step (StaysConnected t) is s)
    (hn : c.sendBuf.length ≤ Runs.count step (serves t) is s) :
    forwarded t s.trace <+: written t s'.trace := by
  have hi := reachable_inv h
  have hstart : Inv s ∧ OwnFds s ∧ t ∈ s.gConnections ∧
      forwarded t s.trace <+: forwarded t s.trace :=
    ⟨hi, reachable_ownFds h, AssocList.mem_of_lookup hc, List.prefix_rfl⟩
  obtain ⟨⟨hi', -, -, hw⟩, hle⟩ := Runs.run_variant (step_unwritten (t := t)) hstart hstay hr
  have hout := congrArg List.length (hi.out hc)
  rw [List.length_append] at hout
  unfold unwritten at hle
  exact List.prefix_of_prefix_length_le hw (hi'.sent t) (by omega)

/-- The socket takes one byte at every report. -/
def byteByByte : List (Kernel × Event) :=
  List.replicate 3 ({ write := fun n _ => if n % 3 = 0 then .wrote 0 else .again },
    { fd := 6, output := true })

theorem twoClientsEnd_drained : ∃ s', Runs.run step byteByByte twoClientsEnd = some s' ∧
    forwarded 6 twoClientsEnd.trace <+: written 6 s'.trace := by
  let s' := (Runs.run step byteByByte twoClientsEnd).get (by decide +kernel)
  let c := (twoClientsEnd.gConnections.lookup 6).get (by decide +kernel)
  have hr : Runs.run step byteByByte twoClientsEnd = some s' := by simp [s']
  have hc : twoClientsEnd.gConnections.lookup 6 = some c := by simp [c]
  exact ⟨s', hr, owed_bytes_leave twoClientsEnd_reachable hc hr (by decide +kernel)
    (by decide +kernel)⟩

end IsaacP2P.Relay
