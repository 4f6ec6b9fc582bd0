import IsaacP2P.Lib.Alternation
import IsaacP2P.Relay.Contract

/-!
# Who closes a descriptor

`handovers f` is the log of the calls of `accept()` that returned the number `f`
and of the calls of `close()` on it. The handlers close a descriptor without
looking whether it is theirs; `OnlyKnown` is the condition on an event under
which it is, and the runs whose events all satisfy it are exactly those in which
every descriptor is closed once (`closedOnce_iff`).
-/

namespace IsaacP2P.Relay

open Alternation (Alternates isOn)
open LengthPrefixed (next frame)

variable {k : Kernel} {s s' : Server} {f g : Fd}

/-! ## The log of one descriptor -/

/-- The times the number was handed out (`true`) and closed (`false`), newest first. -/
def handovers (f : Fd) : List Ev → List Bool
  | [] => []
  | .accept g :: tr => if g = f then true :: handovers f tr else handovers f tr
  | .close g :: tr => if g = f then false :: handovers f tr else handovers f tr
  | _ :: tr => handovers f tr

/-- Every descriptor is closed once before its number is handed out again, and
never while the server does not own it. -/
def ClosedOnce (tr : List Ev) : Prop := ∀ f, Alternates (handovers f tr)

theorem not_closedOnce {tr : List Ev} (h : ¬ Alternates (handovers f tr)) : ¬ ClosedOnce tr :=
  fun hall => h (hall f)

theorem isOn_handovers (f : Fd) (tr : List Ev) : isOn (handovers f tr) = isOpen f tr := by
  induction tr with
  | nil => rfl
  | cons e tr ih =>
    cases e with
    | accept g | close g =>
      simp only [handovers, isOpen]
      split
      · rfl
      · exact ih
    | _ => exact ih

theorem closedOnce_accept {tr : List Ev} (f : Fd) (hf : isOpen f tr = false) :
    ClosedOnce (.accept f :: tr) ↔ ClosedOnce tr := by
  refine forall_congr' fun g => ?_
  by_cases hg : f = g
  · subst hg
    simp [handovers, isOn_handovers, hf]
  · simp only [handovers, if_neg hg]

theorem closedOnce_close (f : Fd) (tr : List Ev) :
    ClosedOnce (.close f :: tr) ↔ ClosedOnce tr ∧ isOpen f tr = true := by
  have hself : Alternates (handovers f (.close f :: tr)) ↔
      isOpen f tr = true ∧ Alternates (handovers f tr) := by
    simp [handovers, isOn_handovers]
  constructor
  · intro h
    refine ⟨fun g => ?_, (hself.mp (h f)).1⟩
    have hg := h g
    by_cases hfg : f = g
    · subst hfg
      exact (hself.mp hg).2
    · rwa [handovers, if_neg hfg] at hg
  · rintro ⟨h, hopen⟩ g
    by_cases hfg : f = g
    · subst hfg
      exact hself.mpr ⟨hopen, h f⟩
    · rw [handovers, if_neg hfg]
      exact h g

theorem closedOnce_output {new : List Ev} (h : OutputOn f new) (tr : List Ev) :
    ClosedOnce (new ++ tr) = ClosedOnce tr :=
  h.ignored (fun e tr he => by cases e <;> first | exact he.elim | rfl) tr

/-! ## What the handlers close -/

/-- `close_connection` does well exactly on the connections there are. -/
theorem closeConnection_closedOnce (hi : Inv s) (f : Fd) :
    ClosedOnce (closeConnection f s).trace ↔ ClosedOnce s.trace ∧ f ∈ s.gConnections := by
  have hopen : isOpen f (.epollDel f :: s.trace) = isOpen f s.trace := rfl
  rw [closeConnection_trace, closedOnce_close, hopen, hi.opened, AList.lookup_isSome]
  exact Iff.rfl

theorem flushedState_closedOnce {c : Connection} {buf w rest : List UInt8} {failed : Bool}
    {new : List Ev} (hopen : isOpen f s.trace = true) (hF : Flushed f buf w rest failed new) :
    ClosedOnce (flushedState f c rest failed new s).trace ↔ ClosedOnce s.trace := by
  have hout := closedOnce_output hF.output s.trace
  rw [flushedState_trace]
  cases failed with
  | false => exact iff_of_eq hout
  | true =>
    show ClosedOnce (.close f :: .epollDel f :: (new ++ s.trace)) ↔ _
    rw [closedOnce_close, ← hout]
    exact and_iff_left ((isOpen_output hF.output f s.trace).trans hopen)

theorem Outcome.closedOnce {a : Fd} {c : Connection} {p : List UInt8} {more : Bool}
    (h : Outcome k a c p s more s') (hi : Inv s) : ClosedOnce s'.trace ↔ ClosedOnce s.trace := by
  cases h with
  | wrongLength _ _ | taken _ _ _ | registers _ _ _ | dropped _ _ => exact Iff.rfl
  | @forwards t _ _ _ _ _ _ _ ht _ _ _ _ hF =>
    refine flushedState_closedOnce ?_ hF
    have hopen : isOpen t s.trace = true := by
      rw [hi.opened, ht]
      rfl
    exact hopen

theorem Loop.closedOnce {a : Fd} (h : Loop k a s s') (hi : Inv s) :
    ClosedOnce s'.trace ↔ ClosedOnce s.trace := by
  induction h with
  | wait _ _ => exact Iff.rfl
  | bad hc _ =>
    rw [closeConnection_closedOnce hi]
    exact and_iff_left (AssocList.mem_of_lookup hc)
  | reject hc _ hp =>
    rw [closeConnection_closedOnce (hp.inv hi hc), hp.closedOnce hi]
    rcases hp.lookup_ref hc with ⟨c', hc', -, -⟩ | ⟨hf, -⟩
    · exact and_iff_left (AssocList.mem_of_lookup hc')
    · cases hf
  | more hc _ hp hc' _ ih =>
    rw [ih ((hp.inv hi hc).setRecv hc' _)]
    exact hp.closedOnce hi

theorem Receives.closedOnce (h : Receives k f s s') (hi : Inv s) :
    ClosedOnce s'.trace ↔ ClosedOnce s.trace ∧ f ∈ s.gConnections := by
  cases h with
  | unknown _ => exact closeConnection_closedOnce hi f
  | full _ _ => exact closeConnection_closedOnce hi f
  | ended _ _ => exact closeConnection_closedOnce (hi.read f []) f
  | again hc _ => exact (and_iff_left (AssocList.mem_of_lookup hc)).symm
  | data hc _ _ hloop =>
    rw [hloop.closedOnce ((hi.read f _).setRecv hc _)]
    exact (and_iff_left (AssocList.mem_of_lookup hc)).symm

theorem Writes.closedOnce (h : Writes k f s s') (hi : Inv s) :
    ClosedOnce s'.trace ↔ ClosedOnce s.trace ∧ f ∈ s.gConnections := by
  cases h with
  | unknown _ => exact closeConnection_closedOnce hi f
  | flushed hc hF =>
    have hopen : isOpen f s.trace = true := by
      rw [hi.opened, hc]
      rfl
    rw [flushedState_closedOnce hopen hF]
    exact (and_iff_left (AssocList.mem_of_lookup hc)).symm

theorem Accepts.closedOnce (h : Accepts k s s') : ClosedOnce s'.trace ↔ ClosedOnce s.trace := by
  cases h with
  | nothing _ => exact Iff.rfl
  | @refused f new hf _ hnew =>
    have hfree := (Server.free_iff.mp (free_of_accept hf)).2.2.2
    have hclose : ClosedOnce (.close f :: .accept f :: s.trace) ↔ ClosedOnce s.trace := by
      rw [closedOnce_close, closedOnce_accept f hfree]
      exact and_iff_left (by simp [isOpen])
    rcases hnew with rfl | ⟨ok, rfl⟩
    · exact hclose
    · exact hclose
  | accepted hf => exact closedOnce_accept _ (Server.free_iff.mp (free_of_accept hf.1)).2.2.2

/-! ## When receiving closes -/

/-- The packet loop closes the connection: it finds an illegal length, or a first
packet that is no registration under a free mark. -/
def loopCloses (marks : AList fun _ : UInt64 => Fd) : Nat → Bool → List UInt8 → Bool
  | 0, _, _ => false
  | n + 1, registered, buf =>
    match next maxPayload buf with
    | .wait => false
    | .bad => true
    | .item p rest =>
      if !registered && (p.length != markSize || (marks.lookup (markToKey p)).isSome) then true
      else loopCloses marks n true rest

/-- `handle_client_data` closes the connection: it is unknown, its buffer is full,
the stream has ended or failed, or the packet loop closes it. -/
def dataCloses (k : Kernel) (fd : Fd) (s : Server) : Bool :=
  match s.gConnections.lookup fd with
  | none => true
  | some conn =>
    if conn.recvBuf.length ≥ bufferSize then true
    else match k.read fd with
      | .bytes b =>
        let buf := conn.recvBuf ++ b.take (bufferSize - conn.recvBuf.length)
        b.isEmpty || loopCloses s.gMarkToFd buf.length conn.registered buf
      | .again => false
      | .fail => true

/-- The registry matters to a connection that is not registered only. -/
theorem loopCloses_registered (marks marks' : AList fun _ : UInt64 => Fd) (n : Nat)
    (buf : List UInt8) : loopCloses marks n true buf = loopCloses marks' n true buf := by
  induction n generalizing buf with
  | zero => rfl
  | succ n ih =>
    simp only [loopCloses, Bool.not_true, Bool.false_and, Bool.false_eq_true, if_false]
    split
    · rfl
    · rfl
    · exact ih _

/-- `process_packet` returns false on a bad registration only. -/
theorem Outcome.more_eq {a : Fd} {c : Connection} {p : List UInt8} {more : Bool}
    (h : Outcome k a c p s more s') : more = !(!c.registered &&
      (p.length != markSize || (s.gMarkToFd.lookup (markToKey p)).isSome)) := by
  cases h with
  | wrongLength hr hl => simp [hr, hl]
  | taken hr hl hk => simp [hr, hl, Option.isSome_iff_ne_none, hk]
  | registers hr hl hk => simp [hr, hl, hk]
  | dropped hr _ | forwards hr _ _ _ _ _ _ => simp [hr]

theorem Loop.lookup_eq_none_iff {a : Fd} (h : Loop k a s s') {c : Connection}
    (hc : s.gConnections.lookup a = some c) {n : Nat} (hn : c.recvBuf.length ≤ n) :
    s'.gConnections.lookup a = none ↔ loopCloses s.gMarkToFd n c.registered c.recvBuf = true := by
  -- a buffer without a byte holds no packet
  have hpos : ∀ {c : Connection} {n : Nat}, next maxPayload c.recvBuf ≠ .wait →
      c.recvBuf.length ≤ n → ∃ j, n = j + 1 := by
    intro c n hw hn
    cases n with
    | zero =>
      rw [List.length_eq_zero_iff.mp (Nat.le_zero.mp hn)] at hw
      exact absurd (LengthPrefixed.next_nil _) hw
    | succ j => exact ⟨j, rfl⟩
  induction h generalizing c n with
  | wait hc₀ hw =>
    rw [hc] at hc₀
    cases hc₀
    cases n with
    | zero => simp [hc, loopCloses]
    | succ n => simp [hc, loopCloses, hw]
  | bad hc₀ hb =>
    rw [hc] at hc₀
    cases hc₀
    obtain ⟨j, rfl⟩ := hpos (by rw [hb]; nofun) hn
    simp [closeConnection_lookup, loopCloses, hb]
  | reject hc₀ hp ho =>
    rw [hc] at hc₀
    cases hc₀
    obtain ⟨j, rfl⟩ := hpos (by rw [hp]; nofun) hn
    have hbad := ho.more_eq
    rw [eq_comm, Bool.not_eq_false'] at hbad
    simp only [closeConnection_lookup, if_true, loopCloses, hp, hbad]
  | more hc₀ hp ho hc' _ ih =>
    rw [hc] at hc₀
    cases hc₀
    obtain ⟨j, rfl⟩ := hpos (by rw [hp]; nofun) hn
    have hgood := ho.more_eq
    rw [eq_comm, Bool.not_eq_true'] at hgood
    have hrest := length_item_lt hp
    have hreg := (ho.kept_ref hc hc').2 rfl
    have hrec := ih (Server.setConn_lookup_self hc')
      (Nat.lt_succ_iff.mp (Nat.lt_of_lt_of_le hrest hn))
    apply hrec.trans
    simp only [loopCloses, hp, hgood, Bool.false_eq_true, if_false, hreg]
    exact iff_of_eq (congrArg (· = true) (loopCloses_registered _ _ j _))

theorem handleClientData_lookup_eq_none_iff (hi : Inv s) (h : handleClientData k f s = some s') :
    s'.gConnections.lookup f = none ↔ dataCloses k f s = true := by
  unfold handleClientData at h
  unfold dataCloses
  cases hc : s.gConnections.lookup f with
  | none =>
    rw [hc] at h
    cases h
    simp [closeConnection_lookup]
  | some c =>
    simp only [hc] at h ⊢
    by_cases hfull : bufferSize - c.recvBuf.length = 0
    · rw [if_pos hfull] at h
      cases h
      rw [if_pos (by omega)]
      simp [closeConnection_lookup]
    · rw [if_neg hfull] at h
      rw [if_neg (by omega)]
      cases hr : k.read f with
      | again =>
        rw [hr] at h
        cases h
        simp [hc]
      | fail =>
        rw [hr] at h
        cases h
        simp [closeConnection_lookup]
      | bytes b =>
        simp only [hr] at h ⊢
        cases b with
        | nil =>
          simp only [List.take_nil, List.isEmpty_nil, if_true, Option.some.injEq] at h
          subst h
          simp [closeConnection_lookup]
        | cons x xs =>
          have hne : (List.take (bufferSize - c.recvBuf.length) (x :: xs)).isEmpty = false := by
            simpa using hfull
          simp only [hne, Bool.false_eq_true, if_false] at h
          generalize List.take (bufferSize - c.recvBuf.length) (x :: xs) = b at h ⊢
          have hc' : ((s.log (.read f b)).setConn f
              { c with recvBuf := c.recvBuf ++ b }).gConnections.lookup f =
                some { c with recvBuf := c.recvBuf ++ b } := Server.setConn_lookup_self hc
          have hloop := packetLoop_loop ((hi.read f b).setRecv hc _) hc' (Nat.le_refl _) h
          rw [hloop.lookup_eq_none_iff hc' (Nat.le_refl _)]
          simp

/-! ## Runs -/

/-- The descriptor of the event is a connection's, and with `EPOLLOUT` it still is
when the rest of the event was dealt with. -/
def OnlyKnown (i : Kernel × Event) (s : Server) : Prop :=
  i.2.fd ≠ s.listenFd → (i.2.errHup || i.2.input || i.2.output) = true →
    i.2.fd ∈ s.gConnections ∧ (i.2.output = true →
      i.2.errHup = false ∧ (i.2.input = true → dataCloses i.1 i.2.fd s = false))

/-- The first half of a dispatch: a descriptor that is a connection's is closed
once, and it is closed on an error, or if receiving closes it. -/
theorem firstHalf_closedOnce {ev : Event} {m : Server} (hi : Inv s)
    (h : (if ev.errHup then some (closeConnection ev.fd s)
      else if ev.input then handleClientData k ev.fd s else some s) = some m) :
    Inv m ∧
    (ClosedOnce m.trace ↔ ClosedOnce s.trace ∧
      ((ev.errHup || ev.input) = true → ev.fd ∈ s.gConnections)) ∧
    (ev.fd ∈ m.gConnections ↔ ev.fd ∈ s.gConnections ∧ ev.errHup = false ∧
      (ev.input = true → dataCloses k ev.fd s = false)) := by
  cases he : ev.errHup with
  | true =>
    simp only [he, if_true, Option.some.injEq] at h
    subst h
    have hclose := closeConnection_closedOnce hi ev.fd
    refine ⟨hi.closeConnection ev.fd, hclose.trans (by simp), ?_⟩
    simp [← AList.lookup_isSome, closeConnection_lookup]
  | false =>
    cases hin : ev.input with
    | false =>
      simp only [he, hin, Bool.false_eq_true, if_false, Option.some.injEq] at h
      subst h
      exact ⟨hi, by simp, by simp⟩
    | true =>
      simp only [he, hin, Bool.false_eq_true, if_false, if_true] at h
      have hr := handleClientData_receives hi h
      refine ⟨hr.inv hi, by simp [hr.closedOnce hi], ?_⟩
      have hnone := handleClientData_lookup_eq_none_iff hi h
      rw [← not_iff_not, AList.lookup_eq_none, Bool.not_eq_true, not_not] at hnone
      rw [hnone]
      refine ⟨fun hd => ⟨?_, rfl, fun _ => hd⟩, fun hd => hd.2.2 rfl⟩
      by_contra hno
      simp [dataCloses, AList.lookup_eq_none.mpr hno] at hd

theorem step_closedOnce (i : Kernel × Event) (s s' : Server) (hi : Inv s)
    (h : step i s = some s') :
    ClosedOnce s'.trace ↔ ClosedOnce s.trace ∧ OnlyKnown i s := by
  obtain ⟨k, ev⟩ := i
  unfold step dispatch at h
  unfold OnlyKnown
  by_cases hl : ev.fd = s.listenFd
  · simp only [if_pos hl, Option.some.injEq] at h
    subst h
    rw [(handleNewConnection_accepts k s).closedOnce]
    simp [hl]
  · simp only [if_neg hl] at h
    obtain ⟨m, hm, h⟩ := Option.bind_eq_some_iff.mp h
    obtain ⟨him, hfirst, hleft⟩ := firstHalf_closedOnce hi hm
    cases ho : ev.output with
    | false =>
      simp only [ho, Bool.false_eq_true, if_false, Option.some.injEq] at h
      subst h
      simpa [hl] using hfirst
    | true =>
      simp only [ho, if_true] at h
      obtain ⟨m', hm', hw⟩ := handleClientWrite_writes k ev.fd him
      rw [h] at hm'
      cases hm'
      rw [hw.closedOnce him, hfirst, hleft]
      simp only [hl, not_false_eq_true, ne_eq, Bool.or_true, true_implies,
        and_assoc]
      exact and_congr_right fun _ => and_iff_right_of_imp fun h _ => h.1

/-- **Descriptor ownership**: in a run every descriptor is closed once before its
number is handed out again, and never while the server does not own it, if and
only if every event is for a connection and none that asks for `EPOLLOUT` has
closed its connection before. -/
theorem closedOnce_iff (listenFd epfd : Fd) (is : List (Kernel × Event))
    (h : Runs.run step is (start listenFd epfd) = some s) :
    ClosedOnce s.trace ↔ Runs.Meets step OnlyKnown is (start listenFd epfd) := by
  have := Runs.run_iff_meets (P := Inv) (Q := fun s => ClosedOnce s.trace) (C := OnlyKnown)
    step_inv step_closedOnce (init_inv listenFd epfd) h
  rw [this]
  exact and_iff_right fun _ => trivial

theorem twoClientsEnd_closedOnce :
    ClosedOnce twoClientsEnd.trace ↔ Runs.Meets step OnlyKnown twoClients (start 3 4) :=
  closedOnce_iff 3 4 twoClients (by simp [twoClientsEnd])

/-- The second client's socket breaks while bytes wait for it: the poller reports
an error together with `EPOLLOUT`. -/
def brokenClient : List (Kernel × Event) :=
  twoClients.concat ({}, { fd := 6, errHup := true, output := true })

theorem brokenClient_closedOnce :
    ∃ s, Runs.run step brokenClient (start 3 4) = some s ∧ ¬ ClosedOnce s.trace := by
  let s := (Runs.run step brokenClient (start 3 4)).get (by decide +kernel)
  have hr : Runs.run step brokenClient (start 3 4) = some s := by simp [s]
  have hbad : ¬ Alternates (handovers 6 s.trace) := by decide +kernel
  exact ⟨s, hr, not_closedOnce hbad⟩

end IsaacP2P.Relay
