import IsaacP2P.Client.PeerIDs
import IsaacP2P.Lib.Alternation
import IsaacP2P.Lib.Ownership

/-!
# Who owns a socket

A socket is held by an entry of `m_connections` or by `m_listenSocket`. `Handles`
says what a step of the library does with sockets: it obtains one into an empty
place or closes one out of its place, and no step overwrites a place that holds
one. So nothing held is closed, and nothing open is lost as long as no new ID is
the key of an entry (`sockets_owned`).
-/

namespace IsaacP2P.Client

open Alternation (Alternates isOn)
open Function (update)
open Ownership (Holds Owns)

variable {υ : Type} {cb : Callback υ} {k : Kernel} {w w' : World υ} {m m' : Manager} {peer : PeerID}
  {s : SocketHandle} {g : Guard}

inductive Place where
  | listener
  | entry (peer : PeerID)
  deriving DecidableEq

/-- The socket in a field that may hold the invalid handle. -/
def holding (h : SocketHandle) : Option SocketHandle :=
  if h = invalidSocketHandle then none else some h

def Manager.held (m : Manager) : Place → Option SocketHandle
  | .listener => holding m.mListenSocket
  | .entry peer => (m.mConnections.lookup peer).bind fun c => holding c.socket

/-- The socket was obtained and has not been closed since. -/
def opened (tr : List Ev) (h : SocketHandle) : Bool := h != invalidSocketHandle && isOpen h tr

/-- The calls that obtain the handle (`true`) and close it, newest first. -/
def handovers (h : SocketHandle) : List Ev → List Bool
  | [] => []
  | .socket g :: tr => if g = h then true :: handovers h tr else handovers h tr
  | .accept g :: tr => if g = h then true :: handovers h tr else handovers h tr
  | .close g :: tr => if g = h then false :: handovers h tr else handovers h tr
  | _ :: tr => handovers h tr

theorem isOn_handovers (h : SocketHandle) (tr : List Ev) : isOn (handovers h tr) = isOpen h tr := by
  induction tr with
  | nil => rfl
  | cons e tr ih =>
    cases e with
    | socket g | accept g | close g =>
      unfold handovers isOpen
      split
      · rfl
      · exact ih
    | _ => exact ih

/-- Every socket is obtained and closed in turns. -/
def InTurns (tr : List Ev) : Prop :=
  ∀ h, h ≠ invalidSocketHandle → Alternates (handovers h tr)

/-! ## The events of a handle -/

/-- An event that neither obtains nor closes a socket. -/
def Ev.quiet : Ev → Bool
  | .socket g => g == invalidSocketHandle
  | .accept _ | .close _ => false
  | _ => true

theorem Ev.quiet_of_traffic {e : Ev} (h : e.traffic = true) : e.quiet = true := by
  cases e <;> first | rfl | cases h

theorem isOpen_quiet {e : Ev} (he : e.quiet = true) (hs : s ≠ invalidSocketHandle)
    (tr : List Ev) : isOpen s (e :: tr) = isOpen s tr := by
  cases e with
  | socket g =>
    have hg : g = invalidSocketHandle := by simpa [Ev.quiet] using he
    exact if_neg fun h => hs (h.symm.trans hg)
  | accept g => cases he
  | close g => cases he
  | _ => rfl

theorem handovers_quiet {e : Ev} (he : e.quiet = true) (hs : s ≠ invalidSocketHandle)
    (tr : List Ev) : handovers s (e :: tr) = handovers s tr := by
  cases e with
  | socket g =>
    have hg : g = invalidSocketHandle := by simpa [Ev.quiet] using he
    exact if_neg fun h => hs (h.symm.trans hg)
  | accept g => cases he
  | close g => cases he
  | _ => rfl

theorem opened_quiet {new : List Ev} (hq : ∀ e ∈ new, e.quiet = true) (tr : List Ev) :
    opened (new ++ tr) = opened tr := by
  induction new with
  | nil => rfl
  | cons e new ih =>
    rw [← ih fun e he => hq e (List.mem_cons_of_mem _ he)]
    funext h
    unfold opened
    by_cases hs : h = invalidSocketHandle
    · simp [hs]
    · rw [List.cons_append, isOpen_quiet (hq e (List.mem_cons_self ..)) hs]

theorem InTurns.quiet {new tr : List Ev} (h : InTurns tr) (hq : ∀ e ∈ new, e.quiet = true) :
    InTurns (new ++ tr) := by
  intro g hg
  induction new with
  | nil => exact h g hg
  | cons e new ih =>
    rw [List.cons_append, handovers_quiet (hq e (List.mem_cons_self ..)) hg]
    exact ih fun e he => hq e (List.mem_cons_of_mem _ he)

/-- The event obtains the socket. -/
def Ev.Obtains (h : SocketHandle) (e : Ev) : Prop := e = .socket h ∨ e = .accept h

theorem opened_obtain {e : Ev} (he : e.Obtains s) (hs : s ≠ invalidSocketHandle) (tr : List Ev) :
    opened (e :: tr) = update (opened tr) s true := by
  funext h
  by_cases hh : h = s
  · subst hh
    rw [Function.update_self, opened]
    rcases he with rfl | rfl <;> simp [isOpen, hs]
  · rw [Function.update_of_ne hh, opened, opened]
    have hne : ¬ s = h := fun h' => hh h'.symm
    rcases he with rfl | rfl <;> simp [isOpen, hne]

theorem opened_close (s : SocketHandle) (tr : List Ev) :
    opened (.close s :: tr) = update (opened tr) s false := by
  funext h
  by_cases hh : h = s
  · subst hh
    rw [Function.update_self, opened]
    simp [isOpen]
  · rw [Function.update_of_ne hh, opened, opened]
    have hne : ¬ s = h := fun h' => hh h'.symm
    simp [isOpen, hne]

theorem InTurns.obtain {e : Ev} {tr : List Ev} (h : InTurns tr) (he : e.Obtains s)
    (hs : isOpen s tr = false) : InTurns (e :: tr) := by
  intro g hg
  have hon : handovers g (e :: tr) = if s = g then true :: handovers g tr else handovers g tr := by
    rcases he with rfl | rfl <;> rfl
  rw [hon]
  split
  · subst_vars
    exact ⟨by rw [isOn_handovers, hs]; decide, h _ hg⟩
  · exact h g hg

theorem InTurns.close {tr : List Ev} (h : InTurns tr) (hs : isOpen s tr = true) :
    InTurns (.close s :: tr) := by
  intro g hg
  unfold handovers
  split
  · subst_vars
    exact ⟨by rw [isOn_handovers, hs]; decide, h _ hg⟩
  · exact h g hg

/-! ## What a step does with sockets -/

/-- `m'` follows `m` in the ownership of sockets. `leaky` says whether a socket
may be obtained into no place. -/
inductive Handles (leaky : Prop) (m m' : Manager) : Prop where
  | keeps (new : List Ev) : m'.held = m.held → m'.trace = new ++ m.trace →
      (∀ e ∈ new, e.quiet = true) → Handles leaky m m'
  /-- A socket is closed right after it was obtained. -/
  | dials {h : SocketHandle} : m'.held = m.held → m.free h = true →
      m'.trace = .close h :: .socket h :: m.trace → Handles leaky m m'
  | obtains {p : Place} {h : SocketHandle} {e : Ev} (new : List Ev) :
      m.held p = none → m.free h = true → m'.held = update m.held p (some h) → e.Obtains h →
      m'.trace = new ++ e :: m.trace → (∀ e ∈ new, e.quiet = true) → Handles leaky m m'
  | releases {p : Place} {h : SocketHandle} (new : List Ev) :
      m.held p = some h → m'.held = update m.held p none →
      m'.trace = new ++ .close h :: m.trace → (∀ e ∈ new, e.quiet = true) → Handles leaky m m'
  | loses {h : SocketHandle} {e : Ev} (new : List Ev) : leaky → m.free h = true →
      m'.held = m.held → e.Obtains h → m'.trace = new ++ e :: m.trace →
      (∀ e ∈ new, e.quiet = true) → Handles leaky m m'

theorem Manager.closed_of_free {h : SocketHandle} (hf : m.free h = true) :
    isOpen h m.trace = false := by
  simp only [Manager.free, Bool.and_eq_true, Bool.not_eq_true'] at hf
  exact hf.2

theorem opened_of_free {h : SocketHandle} (hf : m.free h = true) : opened m.trace h = false := by
  rw [opened, Manager.closed_of_free hf, Bool.and_false]

theorem opened_dial {h : SocketHandle} (hf : m.free h = true) :
    opened (.close h :: .socket h :: m.trace) = opened m.trace := by
  rw [opened_close, opened_obtain (.inl rfl) (Manager.valid_of_free hf), Function.update_idem,
    ← opened_of_free hf, Function.update_eq_self]

theorem Handles.holds {leaky : Prop} (h : Handles leaky m m') (hm : Holds m.held (opened m.trace)) :
    Holds m'.held (opened m'.trace) := by
  cases h with
  | keeps new hh ht hq => rwa [hh, ht, opened_quiet hq]
  | dials hh hf ht => rwa [hh, ht, opened_dial hf]
  | obtains new hp hf hh he ht hq =>
    rw [hh, ht, opened_quiet hq, opened_obtain he (Manager.valid_of_free hf)]
    exact hm.obtain (opened_of_free hf) _
  | releases new hp hh ht hq =>
    rw [hh, ht, opened_quiet hq, opened_close]
    exact hm.release hp
  | loses new _ hf hh he ht hq =>
    rw [hh, ht, opened_quiet hq, opened_obtain he (Manager.valid_of_free hf)]
    exact hm.lost

theorem Handles.owns (h : Handles False m m') (hm : Owns m.held (opened m.trace)) :
    Owns m'.held (opened m'.trace) := by
  cases h with
  | keeps new hh ht hq => rwa [hh, ht, opened_quiet hq]
  | dials hh hf ht => rwa [hh, ht, opened_dial hf]
  | obtains new hp hf hh he ht hq =>
    rw [hh, ht, opened_quiet hq, opened_obtain he (Manager.valid_of_free hf)]
    exact hm.obtain (opened_of_free hf) hp
  | releases new hp hh ht hq =>
    rw [hh, ht, opened_quiet hq, opened_close]
    exact hm.release hp
  | loses _ hno _ _ _ _ _ => exact hno.elim

theorem isOpen_of_held (hm : Holds m.held (opened m.trace)) {p : Place} (hp : m.held p = some s) :
    isOpen s m.trace = true := by
  have ho := hm.isOpen hp
  simp only [opened, Bool.and_eq_true] at ho
  exact ho.2

theorem Handles.inTurns {leaky : Prop} (h : Handles leaky m m')
    (hm : Holds m.held (opened m.trace)) (ht : InTurns m.trace) : InTurns m'.trace := by
  cases h with
  | keeps new _ he hq =>
    rw [he]
    exact ht.quiet hq
  | @dials s _ hf he =>
    rw [he]
    exact (ht.obtain (.inl rfl) (Manager.closed_of_free hf)).close (by simp [isOpen])
  | obtains new _ hf _ ho he hq =>
    rw [he]
    exact (ht.obtain ho (Manager.closed_of_free hf)).quiet hq
  | releases new hp _ he hq =>
    rw [he]
    exact (ht.close (isOpen_of_held hm hp)).quiet hq
  | loses new _ hf _ ho he hq =>
    rw [he]
    exact (ht.obtain ho (Manager.closed_of_free hf)).quiet hq

/-- A place gives up a socket only when the socket is closed. -/
def Kept (m m' : Manager) : Prop :=
  ∃ new, m'.trace = new ++ m.trace ∧
    ∀ p h, m.held p = some h → m'.held p = some h ∨ .close h ∈ new

theorem Kept.refl (m : Manager) : Kept m m := ⟨[], rfl, fun _ _ h => .inl h⟩

theorem Kept.trans {m'' : Manager} (h : Kept m m') (h' : Kept m' m'') : Kept m m'' := by
  obtain ⟨new, ht, hk⟩ := h
  obtain ⟨new', ht', hk'⟩ := h'
  refine ⟨new' ++ new, by rw [ht', ht, List.append_assoc], fun p s hp => ?_⟩
  rcases hk p s hp with hp' | hc
  · exact (hk' p s hp').imp_right fun hc => List.mem_append_left _ hc
  · exact .inr (List.mem_append_right _ hc)

theorem Handles.kept {leaky : Prop} (h : Handles leaky m m') : Kept m m' := by
  cases h with
  | keeps new hh ht _ => exact ⟨new, ht, fun p s hp => .inl (by rw [hh, hp])⟩
  | @dials s hh _ ht => exact ⟨[.close s, .socket s], ht, fun p s hp => .inl (by rw [hh, hp])⟩
  | @obtains p s e new hp _ hh _ ht _ =>
    refine ⟨new ++ [e], by rw [ht, List.append_assoc]; rfl, fun q g hq => .inl ?_⟩
    rw [hh, Function.update_of_ne]
    · exact hq
    · rintro rfl
      rw [hp] at hq
      cases hq
  | @releases p s new hp hh ht _ =>
    refine ⟨new ++ [Ev.close s], by rw [ht, List.append_assoc]; rfl, fun q g hq => ?_⟩
    by_cases hqp : q = p
    · subst hqp
      rw [hp] at hq
      cases hq
      exact .inr (List.mem_append_right _ (List.mem_singleton.mpr rfl))
    · rw [hh, Function.update_of_ne hqp]
      exact .inl hq
  | @loses s e new _ _ hh _ ht _ =>
    exact ⟨new ++ [e], by rw [ht, List.append_assoc]; rfl, fun p g hp => .inl (by rw [hh, hp])⟩

/-! ## The places -/

@[simp] theorem holding_invalid : holding invalidSocketHandle = none := rfl

theorem holding_valid {h : SocketHandle} (hs : h ≠ invalidSocketHandle) : holding h = some h :=
  if_neg hs

theorem held_ext (he : ∀ p, m'.held (.entry p) = m.held (.entry p))
    (hl : m'.mListenSocket = m.mListenSocket) : m'.held = m.held := by
  funext p
  cases p with
  | listener =>
    show holding m'.mListenSocket = holding m.mListenSocket
    rw [hl]
  | entry p => exact he p

theorem held_of_eq (hc : m'.mConnections = m.mConnections)
    (hl : m'.mListenSocket = m.mListenSocket) : m'.held = m.held := by
  refine held_ext (fun p => ?_) hl
  show (m'.mConnections.lookup p).bind _ = (m.mConnections.lookup p).bind _
  rw [hc]

theorem held_entry {c : Connection} (hc : m.mConnections.lookup peer = some c) :
    m.held (.entry peer) = holding c.socket := by
  show (m.mConnections.lookup peer).bind _ = _
  rw [hc, Option.bind_some]

theorem held_update {o : Option Connection}
    (ho : ∀ p, m'.mConnections.lookup p = if p = peer then o else m.mConnections.lookup p)
    (hl : m'.mListenSocket = m.mListenSocket) :
    m'.held = update m.held (.entry peer) (o.bind fun c => holding c.socket) := by
  funext p
  cases p with
  | listener =>
    rw [Function.update_of_ne (by simp)]
    show holding m'.mListenSocket = holding m.mListenSocket
    rw [hl]
  | entry p =>
    show (m'.mConnections.lookup p).bind _ = _
    rw [ho]
    by_cases hp : p = peer
    · subst hp
      rw [if_pos rfl, Function.update_self]
    · rw [if_neg hp, Function.update_of_ne (by simpa using hp)]
      rfl

theorem held_replace {c c' : Connection} (hc : m.mConnections.lookup peer = some c)
    (hr : m'.mConnections = m.mConnections.replace peer c')
    (hl : m'.mListenSocket = m.mListenSocket) :
    m'.held = update m.held (.entry peer) (holding c'.socket) :=
  held_update (fun p => by rw [hr, AssocList.lookup_replace hc]) hl

theorem held_same {c c' : Connection} (hc : m.mConnections.lookup peer = some c)
    (hr : m'.mConnections = m.mConnections.replace peer c')
    (hl : m'.mListenSocket = m.mListenSocket) (hs : c'.socket = c.socket) : m'.held = m.held := by
  rw [held_replace hc hr hl, hs, ← held_entry hc, Function.update_eq_self]

theorem held_erase (m : Manager) (peer : PeerID) :
    (m.erase peer).held = update m.held (.entry peer) none := by
  refine held_update (o := none) (fun p => ?_) rfl
  rw [Manager.erase_mConnections]
  split
  · rename_i hp
    rw [hp, AList.lookup_erase]
  · rename_i hp
    exact AList.lookup_erase_ne hp

theorem held_insert {c : Connection} (hi : m'.mConnections = m.mConnections.insert peer c)
    (hl : m'.mListenSocket = m.mListenSocket) :
    m'.held = update m.held (.entry peer) (holding c.socket) := by
  refine held_update (o := some c) (fun p => ?_) hl
  rw [hi]
  split
  · rename_i hp
    rw [hp, AList.lookup_insert]
  · rename_i hp
    exact AList.lookup_insert_ne hp

theorem held_listener (hc : m'.mConnections = m.mConnections) :
    m'.held = update m.held .listener (holding m'.mListenSocket) := by
  funext p
  cases p with
  | listener => rw [Function.update_self]; rfl
  | entry p =>
    rw [Function.update_of_ne (by simp)]
    show (m'.mConnections.lookup p).bind _ = (m.mConnections.lookup p).bind _
    rw [hc]

/-! ## The steps of the library -/

theorem stopListen_handles {leaky : Prop} (m : Manager) : Handles leaky m (stopListen m) := by
  by_cases hl : m.mListenSocket = invalidSocketHandle
  · have hm : stopListen m = m := if_neg (by simpa using hl)
    rw [hm]
    exact .keeps [] rfl rfl (by simp)
  · have hm : stopListen m = { m.log (.close m.mListenSocket) with
        mListenSocket := invalidSocketHandle, mListenPort := 0 } := by
      unfold stopListen Manager.closeSocket
      simp [hl]
    rw [hm]
    exact .releases [] (p := .listener) (holding_valid hl) (held_listener rfl) rfl (by simp)

theorem Minor.handles {leaky : Prop} (h : Minor m m') : Handles leaky m m' := by
  cases h with
  | @logged e he =>
    exact .keeps [e] (held_of_eq rfl rfl) rfl 
      (by simpa using Ev.quiet_of_traffic (Ev.traffic_of_idle he))
  | dialed hd =>
    cases hd with
    | noSocket => exact .keeps [.socket invalidSocketHandle] (held_of_eq rfl rfl) rfl (by decide)
    | refused hf => exact .dials (held_of_eq rfl rfl) hf rfl
    | made hf => exact absurd rfl (Manager.valid_of_free hf)
  | @framed peer c d w rest len r hc _ _ _ =>
    exact .keeps [.send c.socket (createSendFrame d).length len r, .packet c.socket d]
      (held_same hc rfl rfl rfl) rfl (by simp [Ev.quiet])
  | @wrote peer c w rest len r hc _ _ _ =>
    exact .keeps [.send c.socket c.sendBuffer.length len r] (held_same hc rfl rfl rfl) rfl
      (by simp [Ev.quiet])
  | @parsed peer c b ps rest hc _ _ _ =>
    exact .keeps [.pushed c.socket ps, .recv c.socket b] (held_same hc rfl rfl rfl) rfl
      (by simp [Ev.quiet])
  | popped hc _ => exact .keeps [] (held_same hc rfl rfl rfl) rfl (by simp)
  | @failed peer c e old id hc _ he hold _ =>
    refine .keeps (e :: old) (held_same hc rfl rfl rfl) rfl fun e' he' => ?_
    rcases List.mem_cons.mp he' with rfl | he'
    · exact Ev.quiet_of_traffic (Ev.traffic_of_breaks he)
    · exact Ev.quiet_of_traffic (Ev.traffic_of_framing hold e' he')
  | options enable b x hc => exact .keeps [] (held_same hc rfl rfl rfl) rfl (by simp)
  | initialized => exact .keeps [] (held_of_eq rfl rfl) rfl (by simp)
  | unlistened => exact stopListen_handles m
  | @listening s port hnone hf =>
    have hv := Manager.valid_of_free hf
    refine .obtains [] (p := .listener) (e := .socket s) ?_ hf ?_ (.inl rfl) rfl (by simp)
    · show holding m.mListenSocket = none
      rw [hnone, holding_invalid]
    · rw [← holding_valid hv]
      exact held_listener rfl

theorem noted_quiet (peer : PeerID) (event : ConnectionEvent) (m : Manager) :
    ∃ new : List Ev, (m.noted peer event).trace = new ++ m.trace ∧ (∀ e ∈ new, e.quiet = true) ∧
      (m.noted peer event).held = m.held := by
  unfold Manager.noted
  split
  · exact ⟨[.notify peer event], rfl, by simp [Ev.quiet], held_of_eq rfl rfl⟩
  · exact ⟨[], rfl, by simp, rfl⟩

theorem held_enter {e : Ev} {ip : Text} {port : UInt16} (hs : s ≠ invalidSocketHandle)
    (hnew : m.mNextPeerID ∉ m.mConnections) :
    ((m.log e).enter s ip port).held = update m.held (.entry m.mNextPeerID) (some s) := by
  have hc := Manager.enter_mConnections s ip port (m.log e)
  rw [if_neg (by exact hnew)] at hc
  rw [held_insert hc (Manager.enter_mListenSocket ..)]
  exact congrArg _ (holding_valid hs)

theorem held_reconnected {c : Connection} {e : Ev} (hs : s ≠ invalidSocketHandle)
    (hc : m.mConnections.lookup peer = some c) :
    ((m.log e).setConn peer (c.reconnected s)).held = update m.held (.entry peer) (some s) := by
  rw [← holding_valid hs]
  show _ = update m.held (.entry peer) (holding (c.reconnected s).socket)
  exact held_replace hc rfl rfl

theorem held_down {c : Connection} (hc : m.mConnections.lookup peer = some c) :
    ((m.closeSocket c.socket).setConn peer c.down).held = update m.held (.entry peer) none := by
  rw [← holding_invalid]
  show _ = update m.held (.entry peer) (holding c.down.socket)
  refine held_replace hc ?_ ?_
  · rw [Manager.setConn_mConnections, Manager.closeSocket_mConnections]
  · rw [Manager.setConn_mListenSocket, Manager.closeSocket_mListenSocket]

theorem held_none (hno : peer ∉ m.mConnections) : m.held (.entry peer) = none := by
  show (m.mConnections.lookup peer).bind _ = none
  rw [AList.lookup_eq_none.mpr hno]
  rfl

theorem held_down_entry {c : Connection} (hc : m.mConnections.lookup peer = some c)
    (hs : c.socket = invalidSocketHandle) : m.held (.entry peer) = none := by
  rw [held_entry hc, hs, holding_invalid]

theorem enter_handles {leaky : Prop} {e : Ev} {ip : Text} {port : UInt16} (he : e.Obtains s)
    (hf : m.free s = true) (hleak : m.mNextPeerID ∈ m.mConnections → leaky) :
    Handles leaky m (((m.log e).enter s ip port).noted m.mNextPeerID .connected) := by
  obtain ⟨new, ht, hq, hh⟩ := noted_quiet m.mNextPeerID .connected ((m.log e).enter s ip port)
  rw [Manager.enter_trace] at ht
  by_cases hin : m.mNextPeerID ∈ m.mConnections
  · refine .loses new (hleak hin) hf ?_ he ht hq
    have hc := Manager.enter_mConnections s ip port (m.log e)
    rw [if_pos (by exact hin)] at hc
    rw [hh]
    exact held_of_eq hc (Manager.enter_mListenSocket ..)
  · refine .obtains new (held_none hin) hf ?_ he ht hq
    rw [hh, held_enter (Manager.valid_of_free hf) hin]

theorem tearDown_handles {leaky : Prop} {c : Connection}
    (hc : m.mConnections.lookup peer = some c) : Handles leaky m (m.tearDown peer c) := by
  obtain ⟨new, ht, hq, hh⟩ := noted_quiet peer .disconnected
    ((m.closeSocket c.socket).setConn peer c.down)
  by_cases hs : c.socket = invalidSocketHandle
  · refine .keeps new ?_ ?_ hq
    · rw [Manager.tearDown, hh, held_down hc, ← held_down_entry hc hs, Function.update_eq_self]
    · rw [Manager.tearDown, ht]
      simp [Manager.closeSocket, hs]
  · have hlog : m.closeSocket c.socket = m.log (.close c.socket) := if_pos (by simpa using hs)
    refine .releases new (p := .entry peer) (h := c.socket) ?_ ?_ ?_ hq
    · rw [held_entry hc, holding_valid hs]
    · rw [Manager.tearDown, hh, held_down hc]
    · rw [Manager.tearDown, ht, hlog]
      rfl

/-- **What a step does with sockets.** -/
theorem Step.handles {leaky : Prop}
    (hg : ∀ m, g.enters m → m.mNextPeerID ∈ m.mConnections → leaky)
    (hm : m.Settled) (h : Step g m m') : Handles leaky m m' := by
  cases h with
  | minor hmin => exact hmin.handles
  | entered he hf hE => exact enter_handles he hf (hg (m.log _) hE)
  | @reconnected peer c s now hc hdue hf _ =>
    obtain ⟨new, ht, hq, hh⟩ := noted_quiet peer .connected
      ((m.log (.socket s)).setConn peer (c.reconnected s))
    have hnone : m.held (.entry peer) = none := held_down_entry hc ((hm peer c hc).due hdue).1
    refine .obtains new hnone hf ?_ (.inl rfl) ht hq
    rw [hh, held_reconnected (Manager.valid_of_free hf) hc]
  | tornDown hc _ => exact tearDown_handles hc
  | scheduled _ _ hc _ => exact .keeps [] (held_same hc rfl rfl rfl) rfl (by simp)
  | @erased peer c hc hD =>
    refine .keeps [] ?_ rfl (by simp)
    rw [held_erase, ← held_down_entry hc hD.1, Function.update_eq_self]
  | pending _ => exact .keeps [] (held_of_eq rfl rfl) rfl (by simp)

/-! ## Shutting down -/

/-- Before `initialize` there is nothing to close. -/
def Ready (m : Manager) : Prop :=
  m.mInitialized = false → m.mConnections = ∅ ∧ m.mListenSocket = invalidSocketHandle

abbrev Handled (leaky : Prop) : Manager → Manager → Prop := Relation.ReflTransGen (Handles leaky)

theorem closeSocket_trace_congr (h : SocketHandle) (heq : m.trace = m'.trace) :
    (m.closeSocket h).trace = (m'.closeSocket h).trace := by
  unfold Manager.closeSocket
  split
  · exact congrArg (List.cons (Ev.close h)) heq
  · exact heq

theorem foldl_closeSocket_mListenSocket (es : List (Sigma fun _ : PeerID => Connection))
    (m : Manager) :
    (es.foldl (fun m e => m.closeSocket e.2.socket) m).mListenSocket = m.mListenSocket := by
  induction es generalizing m with
  | nil => rfl
  | cons e es ih =>
    rw [List.foldl_cons, ih, Manager.closeSocket_mListenSocket]

/-- Closing the sockets of all entries leaves the trace that closing them one by
one and erasing each leaves. -/
theorem closeAll_handled {leaky : Prop} {es : List (Sigma fun _ : PeerID => Connection)}
    {m m₁ : Manager} (he : m₁.mConnections.entries = es) (ht : m.trace = m₁.trace) :
    ∃ m₂, Handled leaky m₁ m₂ ∧ m₂.mConnections.entries = [] ∧
      m₂.mListenSocket = m₁.mListenSocket ∧
      (es.foldl (fun m e => m.closeSocket e.2.socket) m).trace = m₂.trace := by
  induction es generalizing m m₁ with
  | nil => exact ⟨m₁, .refl, he, rfl, ht⟩
  | cons e es ih =>
    obtain ⟨p, c⟩ := e
    have hlook : m₁.mConnections.lookup p = some c :=
      AList.mem_lookup_iff.mpr (by rw [he]; exact List.mem_cons_self ..)
    have herase : ((m₁.closeSocket c.socket).erase p).mConnections.entries = es := by
      rw [Manager.erase_mConnections, Manager.closeSocket_mConnections]
      show List.kerase p m₁.mConnections.entries = es
      rw [he]
      exact List.kerase_cons_eq rfl
    have hlisten : ((m₁.closeSocket c.socket).erase p).mListenSocket = m₁.mListenSocket :=
      Manager.closeSocket_mListenSocket c.socket m₁
    have hone : Handles leaky m₁ ((m₁.closeSocket c.socket).erase p) := by
      have hheld : ((m₁.closeSocket c.socket).erase p).held = update m₁.held (.entry p) none := by
        rw [held_erase]
        exact congrArg (update · _ _) (held_of_eq (Manager.closeSocket_mConnections _ _)
          (Manager.closeSocket_mListenSocket _ _))
      by_cases hs : c.socket = invalidSocketHandle
      · refine .keeps [] ?_ (by simp [Manager.closeSocket, hs]) (by simp)
        rw [hheld, ← held_down_entry hlook hs, Function.update_eq_self]
      · refine .releases [] (p := .entry p) (h := c.socket) ?_ hheld ?_ (by simp)
        · rw [held_entry hlook, holding_valid hs]
        · simp [Manager.closeSocket, hs]
    obtain ⟨m₂, hm₂, hempty, hl, hfold⟩ := ih herase (closeSocket_trace_congr c.socket ht)
    exact ⟨m₂, .head hone hm₂, hempty, hl.trans hlisten, hfold⟩

theorem held_of_empty (hc : m.mConnections.entries = [])
    (hl : m.mListenSocket = invalidSocketHandle) (p : Place) : m.held p = none := by
  have hempty : m.mConnections = ∅ := AList.ext hc
  cases p with
  | listener =>
    show holding m.mListenSocket = none
    rw [hl, holding_invalid]
  | entry p =>
    show (m.mConnections.lookup p).bind _ = none
    rw [hempty, AList.lookup_empty]
    rfl

theorem shutdown_handled (leaky : Prop) (hr : Ready m) :
    ∃ m₂, Handled leaky m m₂ ∧ (shutdown m).trace = m₂.trace ∧ (shutdown m).held = m₂.held ∧
      ∀ p, (shutdown m).held p = none := by
  cases hi : m.mInitialized with
  | false =>
    obtain ⟨hc, hl⟩ := hr hi
    rw [shutdown_of_uninitialized hi]
    exact ⟨m, .refl, rfl, rfl, held_of_empty (by rw [hc]; rfl) hl⟩
  | true =>
    obtain ⟨m₂, hm₂, hempty, hl, ht⟩ :=
      @closeAll_handled leaky _ (stopListen m) (stopListen m) rfl rfl
    have hnone : ∀ p, (shutdown m).held p = none := by
      refine held_of_empty ?_ ?_
      · rw [shutdown_mConnections, hi, if_pos rfl]
        rfl
      · unfold shutdown
        rw [hi]
        exact (foldl_closeSocket_mListenSocket _ _).trans (stopListen_mListenSocket m)
    refine ⟨m₂, .head (stopListen_handles m) hm₂, ?_, ?_, hnone⟩
    · rw [← ht]
      unfold shutdown
      rw [hi]
      rfl
    · funext p
      rw [hnone p, held_of_empty hempty (hl.trans (stopListen_mListenSocket m)) p]

/-! ## Runs -/

theorem Minor.mInitialized (h : Minor m m') (hi : m.mInitialized = true) :
    m'.mInitialized = true := by
  cases h with
  | dialed hd => cases hd <;> exact hi
  | initialized => rfl
  | unlistened =>
    rw [stopListen_eq]
    exact hi
  | _ => exact hi

theorem Step.mInitialized (h : Step g m m') (hi : m.mInitialized = true) :
    m'.mInitialized = true := by
  cases h with
  | minor hm => exact hm.mInitialized hi
  | entered _ _ _ =>
    rw [Manager.noted_mInitialized, Manager.enter_mInitialized]
    exact hi
  | reconnected _ _ _ _ =>
    rw [Manager.noted_mInitialized]
    exact hi
  | @tornDown peer c _ _ =>
    rw [Manager.tearDown, Manager.noted_mInitialized, Manager.setConn_mInitialized,
      Manager.closeSocket_mInitialized]
    exact hi
  | _ => exact hi

theorem call_vacant_eq {i : Kernel × Call} (hi : w.mgr.mInitialized = false)
    (hc : w.mgr.mConnections = ∅) (hl : w.mgr.mListenSocket = invalidSocketHandle)
    (hop : i.2 ≠ .initializeManager) (h : call cb i w = some w') : w'.mgr = w.mgr := by
  obtain ⟨k, op⟩ := i
  have hnone : ∀ p, w.mgr.mConnections.lookup p = none := fun p => by rw [hc, AList.lookup_empty]
  unfold call at h
  cases op with
  | initializeManager => exact absurd rfl hop
  | listen port =>
    cases h
    show (listen k port w.mgr).2 = w.mgr
    unfold listen
    rw [hi]
    rfl
  | stopListen =>
    cases h
    exact if_neg (by simp [hl])
  | connect ip port =>
    cases ip with
    | none => cases h; rfl
    | some ip =>
      unfold connect at h
      simp only [hi, Bool.not_false, if_true, Option.map_some, Option.some.injEq] at h
      rw [← h]
  | disconnect peer =>
    unfold disconnect at h
    simp only [hnone peer] at h
    cases h
    rfl
  | setAutoReconnect peer enable b x =>
    cases h
    show setAutoReconnect peer enable b x w.mgr = w.mgr
    unfold setAutoReconnect
    rw [hnone peer]
  | sendPacket peer data =>
    cases h
    have hs := sendPacket_sends k peer data w.mgr
    rw [World.onMgr_mgr]
    generalize (sendPacket k peer data w.mgr).1 = b at hs
    generalize (sendPacket k peer data w.mgr).2 = m' at hs ⊢
    cases hs with
    | refused _ => rfl
    | sent hf _ _ _ | failed hf _ =>
      have := hf.2.2.1
      rw [hnone peer] at this
      cases this
  | readPacket peer buffer size =>
    cases h
    have hp := readPacket_pops peer buffer size w.mgr
    rw [World.onMgr_mgr]
    generalize (readPacket peer buffer size w.mgr).1 = out at hp
    generalize (readPacket peer buffer size w.mgr).2 = m' at hp ⊢
    cases hp with
    | nothing => rfl
    | popped hp _ | lost hp _ =>
      rw [hnone _] at hp
      cases hp
  | processEvents =>
    cases (processEvents_uninitialized hi).symm.trans h
    rfl
  | shutdown =>
    cases h
    exact shutdown_of_uninitialized hi

theorem call_vacant {i : Kernel × Call} (hi : w.mgr.mInitialized = false)
    (hc : w.mgr.mConnections = ∅) (hl : w.mgr.mListenSocket = invalidSocketHandle)
    (h : call cb i w = some w') :
    w'.mgr.mConnections = ∅ ∧ w'.mgr.mListenSocket = invalidSocketHandle := by
  by_cases hop : i.2 = .initializeManager
  · obtain ⟨k, op⟩ := i
    cases hop
    cases h
    rw [World.onMgr_mgr]
    unfold Client.initializeManager
    constructor
    · repeat' split
      all_goals exact hc
    · repeat' split
      all_goals exact hl
  · rw [call_vacant_eq hi hc hl hop h]
    exact ⟨hc, hl⟩

theorem shutdown_ready (hr : Ready m) : Ready (shutdown m) := by
  intro _
  cases hi : m.mInitialized with
  | false =>
    rw [shutdown_of_uninitialized hi]
    exact hr hi
  | true =>
    refine ⟨by rw [shutdown_mConnections, hi, if_pos rfl], ?_⟩
    unfold shutdown
    rw [hi]
    exact (foldl_closeSocket_mListenSocket _ _).trans (stopListen_mListenSocket m)

theorem call_ready (hcb : Leaf cb) {i : Kernel × Call} (hr : Ready w.mgr)
    (h : call cb i w = some w') : Ready w'.mgr := by
  cases hi : w.mgr.mInitialized with
  | false =>
    obtain ⟨hc, hl⟩ := hr hi
    exact fun _ => call_vacant hi hc hl h
  | true =>
    rcases call_free_steps hcb h with hs | ⟨-, rfl⟩
    · intro hno
      rw [hs.invariant (fun _ _ hm hs => hs.mInitialized hm) hi] at hno
      cases hno
    · exact shutdown_ready hr

/-- What holds of the sockets in every run. -/
structure Sockets (m : Manager) : Prop where
  settled : m.Settled
  ready : Ready m
  holds : Holds m.held (opened m.trace)
  turns : InTurns m.trace

/-- A call obtains and closes sockets one after another; `leaky` has to hold
where an ID is taken that is the key of an entry. -/
theorem call_handled (leaky : Prop) (hcb : Leaf cb) {i : Kernel × Call}
    (hleak : ∀ s ip port m, HandsOut cb i.1 w s ip port i.2 m →
      m.mNextPeerID ∈ m.mConnections → leaky)
    (hs : w.mgr.Settled) (hr : Ready w.mgr) (h : call cb i w = some w') :
    ∃ m, Handled leaky w.mgr m ∧ w'.mgr.trace = m.trace ∧ w'.mgr.held = m.held := by
  obtain ⟨k, op⟩ := i
  rcases call_steps (g := { enters := fun m => m.mNextPeerID ∈ m.mConnections → leaky }) hcb
    hleak (fun _ _ => trivial) (fun _ _ => trivial) h with hsteps | ⟨-, rfl⟩
  · refine ⟨w'.mgr, ?_, rfl, rfl⟩
    have := hsteps.invariant (P := fun v => v.Settled ∧ Handled leaky w.mgr v)
      (fun m m' hm hstep => ⟨hstep.settled hm.1,
        hm.2.tail (hstep.handles (fun _ hE => hE) hm.1)⟩) ⟨hs, .refl⟩
    exact this.2
  · obtain ⟨m, hm, ht, hh, -⟩ := shutdown_handled leaky hr
    exact ⟨m, hm, ht, hh⟩

theorem call_sockets (hcb : Leaf cb) (i : Kernel × Call) (w w' : World υ) (hw : Sockets w.mgr)
    (h : call cb i w = some w') : Sockets w'.mgr := by
  obtain ⟨m, hm, ht, hh⟩ := call_handled True hcb (fun _ _ _ _ _ _ => trivial)
    hw.settled hw.ready h
  have hend : Holds m.held (opened m.trace) ∧ InTurns m.trace := by
    clear ht hh
    induction hm with
    | refl => exact ⟨hw.holds, hw.turns⟩
    | tail _ hs ih => exact ⟨hs.holds ih.1, hs.inTurns ih.1 ih.2⟩
  refine ⟨call_settled hcb i w w' hw.settled h, call_ready hcb hw.ready h, ?_, ?_⟩
  · rw [hh, ht]
    exact hend.1
  · rw [ht]
    exact hend.2

theorem Handled.kept {leaky : Prop} (h : Handled leaky m m') : Kept m m' := by
  induction h with
  | refl => exact .refl m
  | tail _ hs ih => exact ih.trans hs.kept

theorem call_kept (hcb : Leaf cb) {i : Kernel × Call} (hw : Sockets w.mgr)
    (h : call cb i w = some w') : Kept w.mgr w'.mgr := by
  obtain ⟨m, hm, ht, hh⟩ := call_handled True hcb (fun _ _ _ _ _ _ => trivial)
    hw.settled hw.ready h
  obtain ⟨new, hnew, hk⟩ := hm.kept
  exact ⟨new, by rw [ht, hnew], fun p s hp => by rw [hh]; exact hk p s hp⟩

/-- Nothing is lost in a call that takes no ID of an entry. -/
theorem call_owns (hcb : Leaf cb) {i : Kernel × Call} (hw : Sockets w.mgr)
    (ho : Owns w.mgr.held (opened w.mgr.trace)) (hp : HandsProper cb i w)
    (h : call cb i w = some w') : Owns w'.mgr.held (opened w'.mgr.trace) := by
  obtain ⟨m, hm, ht, hh⟩ := call_handled False hcb
    (fun s ip port m hho hin => (hp s ip port m hho).2.1 hin) hw.settled hw.ready h
  rw [hh, ht]
  clear ht hh
  induction hm with
  | refl => exact ho
  | tail _ hs ih => exact hs.owns ih

theorem fresh_holds (callback : Bool) (user : υ) :
    Owns (fresh callback user).mgr.held (opened (fresh callback user).mgr.trace) := by
  have hnone : ∀ p, (fresh callback user).mgr.held p = none := held_of_empty rfl rfl
  refine ⟨⟨fun hp => ?_, fun hp _ => ?_⟩, fun ho => ?_⟩
  · rw [hnone] at hp
    cases hp
  · rw [hnone] at hp
    cases hp
  · simp [opened, fresh, isOpen] at ho

theorem fresh_sockets (callback : Bool) (user : υ) : Sockets (fresh callback user).mgr :=
  ⟨fresh_settled callback user, fun _ => ⟨rfl, rfl⟩, (fresh_holds callback user).toHolds,
    fun _ _ => trivial⟩

theorem reachable_sockets (hcb : Leaf cb) {callback : Bool} {user : υ}
    (h : Runs.Reachable (call cb) (fresh callback user) w) : Sockets w.mgr :=
  h.invariant (fresh_sockets callback user) (call_sockets hcb)

/-- The call closes a socket before its place is used again, and `shutdown` closes all. -/
def Careful (cb : Callback υ) (i : Kernel × Call) (w : World υ) : Prop :=
  ∀ w', call cb i w = some w' →
    Kept w.mgr w'.mgr ∧ (i.2 = .shutdown → ∀ h, opened w'.mgr.trace h = false)

theorem call_careful (hcb : Leaf cb) {i : Kernel × Call} (hw : Sockets w.mgr)
    (ho : Owns w.mgr.held (opened w.mgr.trace)) (hp : HandsProper cb i w) : Careful cb i w := by
  intro w' h
  refine ⟨call_kept hcb hw h, fun hop s => ?_⟩
  have howns := call_owns hcb hw ho hp h
  have hw' : w' = w.onMgr shutdown := by
    obtain ⟨k, op⟩ := i
    cases hop
    cases h
    rfl
  by_contra hopen
  obtain ⟨p, hp⟩ := howns.owner (Bool.not_eq_false _ ▸ hopen)
  obtain ⟨-, -, -, -, hnone⟩ := shutdown_handled True hw.ready
  rw [hw', World.onMgr_mgr, hnone p] at hp
  cases hp

/-- **Ownership of sockets.** In a run that hands out fewer than `2 ^ 32 - 1` peer
IDs, the sockets that are open are those with a place, which is one for each;
every handle is obtained and closed in turns; and no call gives up a place's
socket without closing it, or leaves one open after `shutdown`. -/
theorem sockets_owned (hcb : Leaf cb) {callback : Bool} {user : υ} {is : List (Kernel × Call)}
    (h : Runs.run (call cb) is (fresh callback user) = some w)
    (hids : allocated cb is (fresh callback user) < 2 ^ 32 - 1) :
    (∀ s, opened w.mgr.trace s = true ↔ ∃! p, w.mgr.held p = some s) ∧
      (∀ s, s ≠ invalidSocketHandle → Alternates (handovers s w.mgr.trace)) ∧
      Runs.Meets (call cb) (Careful cb) is (fresh callback user) := by
  have hproper := (ids_proper_iff hcb h).mpr (by omega)
  have howns : Owns w.mgr.held (opened w.mgr.trace) := by
    have := Runs.run_invariant_of_meets
      (P := fun v : World υ => Sockets v.mgr ∧ Owns v.mgr.held (opened v.mgr.trace))
      (fun i v v' hv hp hc => ⟨call_sockets hcb i v v' hv.1 hc, call_owns hcb hv.1 hv.2 hp hc⟩)
      ⟨fresh_sockets callback user, fresh_holds callback user⟩ hproper h
    exact this.2
  refine ⟨fun s => ⟨howns.existsUnique, fun ⟨p, hp, _⟩ => howns.isOpen hp⟩,
    (reachable_sockets hcb ⟨is, h⟩).turns, ?_⟩
  exact Runs.Meets.of_meets
    (P := fun v : World υ => Sockets v.mgr ∧ Owns v.mgr.held (opened v.mgr.trace))
    (fun i v v' hv hp hc => ⟨call_sockets hcb i v v' hv.1 hc, call_owns hcb hv.1 hv.2 hp hc⟩)
    (fun i v hv hp => call_careful hcb hv.1 hv.2 hp)
    ⟨fresh_sockets callback user, fresh_holds callback user⟩ hproper

/-- Every `socket()` returns another handle, a peer is waiting to be accepted, and
the other end closes the connection on 12. -/
def busyKernel : Kernel where
  nowMs _ := 1000
  socket n := UInt64.ofNat (n + 10)
  accept _ := [(5, ['a'], 1)]
  select _ := { readable := fun h => h == 11 }
  recv _ h := ([], if h == 11 then .closed else .again)

/-- One peer is connected and reconnected, and another is accepted. -/
def lifeRun : List (Kernel × Call) :=
  [.initializeManager, .listen 80, .connect (some ['h']) 1, .setAutoReconnect 1 true 0 0,
    .processEvents, .shutdown].map (busyKernel, ·)

theorem lifeRun_owned :
    ∃ w, Runs.run (call ignore) lifeRun (fresh true ()) = some w ∧
      (∀ s, opened w.mgr.trace s = true ↔ ∃! p, w.mgr.held p = some s) ∧
      (∀ s, s ≠ invalidSocketHandle → Alternates (handovers s w.mgr.trace)) ∧
      Runs.Meets (call ignore) (Careful ignore) lifeRun (fresh true ()) := by
  let w := (Runs.run (call ignore) lifeRun (fresh true ())).get (by decide +kernel)
  have hr : Runs.run (call ignore) lifeRun (fresh true ()) = some w := by simp [w]
  exact ⟨w, hr, sockets_owned ignore_mute.leaf hr (by decide +kernel)⟩

end IsaacP2P.Client
