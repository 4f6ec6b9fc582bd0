import IsaacP2P.Client.Sockets

/-!
# Links start clean

`Links` is the moment at which a socket becomes the live socket of a peer: a new
connection is entered, or one of the two rounds of `attemptReconnects` in a call
of `processEvents` reconnects a peer. Its buffers are empty then, since what is
due for a reconnect is down. So whatever is in them later has to do with that
socket alone (`Own`).
-/

namespace IsaacP2P.Client

variable {υ : Type} {cb : Callback υ} {k : Kernel} {w w' : World υ} {m m' : Manager} {peer : PeerID}
  {s : SocketHandle} {c : Connection} {g : Guard}

def Connection.Empty (c : Connection) : Prop :=
  c.sendBuffer = [] ∧ c.recvBuffer = [] ∧ c.receiveQueue = []

/-! ## The moment a link is made -/

/-- The loop of `attemptReconnects` on a list of peers, entered in the first
state, comes to `p` in the second. -/
inductive Attempting (cb : Callback υ) (k : Kernel) (now : UInt64) (p : PeerID) :
    List PeerID → World υ → World υ → Prop where
  | here {rest : List PeerID} {w : World υ} : Attempting cb k now p (p :: rest) w w
  | later {q : PeerID} {rest : List PeerID} {w w₁ v : World υ} :
      reconnectLoop cb k now [q] w = some w₁ → Attempting cb k now p rest w₁ v →
      Attempting cb k now p (q :: rest) w v

/-- `attemptReconnects`, called in `w`, gives the peer `p` the socket `s`, which
makes `m` of the manager. -/
def Retries (cb : Callback υ) (k : Kernel) (w : World υ) (s : SocketHandle) (p : PeerID)
    (m : Manager) : Prop :=
  let now := k.nowMs w.mgr.trace.length
  ∃ v c m₀, Attempting cb k now p w.mgr.mConnections.keys (w.onMgr (·.log (.clock now))) v ∧
    v.mgr.mConnections.lookup p = some c ∧ c.reconnectDue now = true ∧
    connectWithTimeout k c.remoteIP v.mgr = (s, m₀) ∧ s ≠ invalidSocketHandle ∧
    m = m₀.setConn p { c with
      socket := s, connected := true, reconnectAttempt := 0, nextReconnectAtMs := 0 }

/-- In the call the socket `s` becomes the socket of the peer `p`, which makes
`m` of the manager. `emplace` ignores an ID that is a key. -/
inductive Links (cb : Callback υ) (k : Kernel) (w : World υ) (s : SocketHandle) (p : PeerID) :
    Call → Manager → Prop where
  | entered {ip : Text} {port : UInt16} {op : Call} {m : Manager} :
      HandsOut cb k w s ip port op m → m.mNextPeerID = p → p ∉ m.mConnections →
      Links cb k w s p op (m.enter s ip port)
  | first {m : Manager} : w.mgr.mInitialized = true → Retries cb k w s p m →
      Links cb k w s p .processEvents m
  | again {v v' : World υ} {m : Manager} : beforeRemoval cb k w = some v →
      removeDisconnected cb k v = some v' → Retries cb k v' s p m →
      Links cb k w s p .processEvents m

theorem Attempting.settled (hcb : Leaf cb) {now : UInt64} {peers : List PeerID} {v : World υ}
    (h : Attempting cb k now peer peers w v) (hw : w.mgr.Settled) : v.mgr.Settled := by
  induction h with
  | here => exact hw
  | later hone _ ih =>
    have hs := Redials.steps (g := {}) hcb (fun _ _ => trivial) (reconnectLoop_redials hone)
    exact ih (hs.settled hw)

theorem Retries.clean (hcb : Leaf cb) (h : Retries cb k w s peer m) (hw : w.mgr.Settled) :
    ∃ c, m.mConnections.lookup peer = some c ∧ c.socket = s ∧ c.Empty := by
  obtain ⟨v, c, m₀, hat, hc, hdue, hd, -, rfl⟩ := h
  have hv : v.mgr.Settled := hat.settled hcb hw
  obtain ⟨-, -, -, hr, hq, hb⟩ := (hv peer c hc).due hdue
  have hdials := connectWithTimeout_dials k c.remoteIP v.mgr
  rw [hd] at hdials
  have hc₀ : m₀.mConnections.lookup peer = some c := by
    rw [hdials.mConnections_eq, hc]
  exact ⟨_, Manager.setConn_lookup_self hc₀, rfl, hb, hr, hq⟩

/-- **At the moment a link is made its buffers are empty.** -/
theorem Links.clean (hcb : Leaf cb) {op : Call} (h : Links cb k w s peer op m)
    (hw : w.mgr.Settled) :
    ∃ c, m.mConnections.lookup peer = some c ∧ c.socket = s ∧ c.Empty := by
  cases h with
  | entered _ hp hnew =>
    subst hp
    exact ⟨_, enter_lookup_self hnew, rfl, rfl, rfl, rfl⟩
  | first _ hr => exact hr.clean hcb hw
  | again hclean hrem hr =>
    have hv := (beforeRemoval_steps (g := {}) hcb (fun _ _ _ _ _ => trivial)
      (fun _ ha => attemptReconnects_steps hcb (fun _ _ => trivial) ha) hclean).settled hw
    have hv' := (removeDisconnected_steps (g := {}) hcb (fun _ _ => trivial) hrem).settled hv
    exact hr.clean hcb hv'

/-! ## What is in the buffers -/

/-- The bytes are what is left to send of the frames of these packets: of each
frame a tail, in order. -/
def Tails (ds : List Packet) (bytes : List UInt8) : Prop :=
  ∃ ts : List (List UInt8), List.Forall₂ (fun t d => t <:+ createSendFrame d) ts ds ∧
    bytes = ts.flatten

theorem Tails.nil : Tails [] [] := ⟨[], .nil, rfl⟩

theorem Tails.snoc {ds : List Packet} {bytes t : List UInt8} {d : Packet} (h : Tails ds bytes)
    (ht : t <:+ createSendFrame d) : Tails (ds ++ [d]) (bytes ++ t) := by
  obtain ⟨ts, hts, rfl⟩ := h
  exact ⟨ts ++ [t], List.rel_append hts (.cons ht .nil), by simp⟩

theorem Tails.drop {ds : List Packet} {w rest : List UInt8} (h : Tails ds (w ++ rest)) :
    Tails ds rest := by
  obtain ⟨ts, hts, he⟩ := h
  induction hts generalizing w with
  | nil =>
    obtain ⟨-, rfl⟩ := List.append_eq_nil_iff.mp he
    exact .nil
  | @cons t d ts ds ht hts ih =>
    rw [List.flatten_cons] at he
    rcases List.append_eq_append_iff.mp he with ⟨u, hu, hrest⟩ | ⟨u, hu, hrest⟩
    · have hut : u <:+ t := ⟨w, hu.symm⟩
      exact ⟨u :: ts, .cons (hut.trans ht) hts, hrest⟩
    · obtain ⟨ts', hts', he'⟩ := ih hrest.symm
      exact ⟨[] :: ts', .cons List.nil_suffix hts', he'⟩

/-- All that an entry holds has to do with its own socket. -/
structure Own (c : Connection) (tr : List Ev) : Prop where
  unparsed : c.recvBuffer <:+ received c.socket tr
  unread : c.receiveQueue <:+ arrived c.socket tr
  parsed : ∀ p ∈ arrived c.socket tr, LengthPrefixed.frame p <:+: received c.socket tr
  unsent : Tails (framed c.socket tr) c.sendBuffer
  onWire : (sent c.socket tr ++ c.sendBuffer).Subperm
    ((framed c.socket tr).flatMap createSendFrame)

/-- An event of the traffic on `h`, or the event that obtains it. -/
def Ev.on (h : SocketHandle) : Ev → Bool
  | .socket g | .accept g | .packet g _ | .send g _ _ _ | .recv g _ | .pushed g _ => g == h
  | _ => false

theorem streams_skip {e : Ev} (he : e.on s = false) (tr : List Ev) :
    received s (e :: tr) = received s tr ∧ arrived s (e :: tr) = arrived s tr ∧
      framed s (e :: tr) = framed s tr ∧ sent s (e :: tr) = sent s tr := by
  cases e with
  | socket g | accept g | packet g d | recv g b | pushed g ps =>
    have hg : ¬ g = s := by simpa [Ev.on] using he
    simp [received, arrived, framed, sent, hg]
  | send g size len r =>
    have hg : ¬ g = s := by simpa [Ev.on] using he
    cases r <;> simp [received, arrived, framed, sent, hg]
  | _ => exact ⟨rfl, rfl, rfl, rfl⟩

theorem Own.skip {new tr : List Ev} (h : Own c tr) (hnew : ∀ e ∈ new, e.on c.socket = false) :
    Own c (new ++ tr) := by
  induction new with
  | nil => exact h
  | cons e new ih =>
    have hold := ih fun e he => hnew e (List.mem_cons_of_mem _ he)
    obtain ⟨hr, ha, hf, hs⟩ := streams_skip (hnew e (List.mem_cons_self ..)) (new ++ tr)
    rw [List.cons_append]
    exact ⟨by rw [hr]; exact hold.unparsed, by rw [ha]; exact hold.unread,
      by rw [ha, hr]; exact hold.parsed, by rw [hf]; exact hold.unsent,
      by rw [hs, hf]; exact hold.onWire⟩

theorem Own.obtained {e : Ev} {tr : List Ev} (he : e.Obtains c.socket) (h : c.Empty) :
    Own c (e :: tr) := by
  obtain ⟨hb, hr, hq⟩ := h
  have hz : received c.socket (e :: tr) = [] ∧ arrived c.socket (e :: tr) = [] ∧
      framed c.socket (e :: tr) = [] ∧ sent c.socket (e :: tr) = [] := by
    rcases he with rfl | rfl <;> simp [received, arrived, framed, sent]
  obtain ⟨h₁, h₂, h₃, h₄⟩ := hz
  refine ⟨?_, ?_, ?_, ?_, ?_⟩
  · rw [h₁, hr]
  · rw [h₂, hq]
  · rw [h₂]
    simp
  · rw [h₃, hb]
    exact .nil
  · rw [h₄, h₃, hb]
    exact List.Subperm.refl _

theorem Drained.sub {buf rest : ReceiveBuffer} {ps : List Packet} (h : Drained buf ps rest) :
    rest <:+ buf ∧ ∀ p ∈ ps, LengthPrefixed.frame p <:+: buf := by
  have htakes : ∀ {bs r : List UInt8} {ps : List Packet},
      Streaming.Takes (LengthPrefixed.stream maxPacket) bs ps r →
        r <:+ bs ∧ ∀ p ∈ ps, LengthPrefixed.frame p <:+: bs := by
    intro bs r ps ht
    induction ht with
    | nil => exact ⟨List.suffix_rfl, by simp⟩
    | @item bs rest r p ps hi _ ih =>
      obtain ⟨hbuf, -, -⟩ := LengthPrefixed.next_item hi
      have hsuf : rest <:+ bs := ⟨_, hbuf.symm⟩
      refine ⟨ih.1.trans hsuf, fun q hq => ?_⟩
      rcases List.mem_cons.mp hq with rfl | hq
      · exact ⟨[], rest, hbuf.symm⟩
      · exact (ih.2 q hq).trans hsuf.isInfix
  cases h with
  | waits hd => exact htakes hd.1
  | cleared ht _ => exact ⟨List.nil_suffix, (htakes ht).2⟩

theorem Own.received {b : List UInt8} {ps : List Packet} {rest : ReceiveBuffer} {tr : List Ev}
    (h : Own c tr) (hd : Drained (c.recvBuffer ++ b) ps rest) :
    Own { c with receiveQueue := c.receiveQueue ++ ps, recvBuffer := rest }
      (.pushed c.socket ps :: .recv c.socket b :: tr) := by
  obtain ⟨hrest, hps⟩ := hd.sub
  have hin : c.recvBuffer ++ b <:+ Client.received c.socket tr ++ b := by
    obtain ⟨front, hfront⟩ := h.unparsed
    exact ⟨front, by rw [← List.append_assoc, hfront]⟩
  have hr : Client.received c.socket (.pushed c.socket ps :: .recv c.socket b :: tr) =
      Client.received c.socket tr ++ b := by simp [Client.received]
  have ha : arrived c.socket (.pushed c.socket ps :: .recv c.socket b :: tr) =
      arrived c.socket tr ++ ps := by simp [arrived]
  refine ⟨?_, ?_, ?_, h.unsent, h.onWire⟩
  · rw [hr]
    exact hrest.trans hin
  · rw [ha]
    obtain ⟨front, hfront⟩ := h.unread
    exact ⟨front, by rw [← List.append_assoc, hfront]⟩
  · rw [ha, hr]
    intro p hp
    rcases List.mem_append.mp hp with hp | hp
    · exact (h.parsed p hp).trans (List.prefix_append _ _).isInfix
    · exact (hps p hp).trans hin.isInfix

/-- A frame is made for the connection: `w` is sent, and `rest` waits. -/
theorem Own.framed {d : Packet} {w rest : List UInt8} {e : Ev} {tr : List Ev} (h : Own c tr)
    (hsplit : ∃ more, createSendFrame d = w ++ more ++ rest)
    (he : ∀ tr, Client.sent c.socket (e :: tr) = Client.sent c.socket tr ++ w ∧
      Client.received c.socket (e :: tr) = Client.received c.socket tr ∧
      arrived c.socket (e :: tr) = arrived c.socket tr ∧
      Client.framed c.socket (e :: tr) = Client.framed c.socket tr) :
    Own { c with sendBuffer := c.sendBuffer ++ rest } (e :: .packet c.socket d :: tr) := by
  obtain ⟨more, hmore⟩ := hsplit
  obtain ⟨hs, hr, ha, hf⟩ := he (.packet c.socket d :: tr)
  have hf' : Client.framed c.socket (e :: .packet c.socket d :: tr) =
      Client.framed c.socket tr ++ [d] := by
    rw [hf]
    exact if_pos rfl
  refine ⟨?_, ?_, ?_, ?_, ?_⟩
  · rw [hr]
    exact h.unparsed
  · rw [ha]
    exact h.unread
  · rw [ha, hr]
    exact h.parsed
  · rw [hf']
    exact h.unsent.snoc ⟨w ++ more, hmore.symm⟩
  · rw [hs, hf', List.flatMap_append, List.flatMap_singleton, hmore]
    show (Client.sent c.socket tr ++ w ++ (c.sendBuffer ++ rest)).Subperm _
    refine List.subperm_ext_iff.mpr fun b _ => ?_
    have hold := List.Subperm.count_le h.onWire b
    simp only [List.count_append] at hold ⊢
    omega

theorem Own.wrote {w rest : List UInt8} {size : Nat} {len : Int} {r : Sent} {tr : List Ev}
    (h : Own c tr) (hr : r.bytes = some w) (hsplit : c.sendBuffer = w ++ rest) :
    Own { c with sendBuffer := rest } (.send c.socket size len r :: tr) := by
  refine ⟨h.unparsed, h.unread, h.parsed, ?_, ?_⟩
  · have hu := h.unsent
    rw [hsplit] at hu
    exact hu.drop
  · show (Client.sent c.socket (.send c.socket size len r :: tr) ++ rest).Subperm _
    have hw := h.onWire
    rw [hsplit, ← List.append_assoc] at hw
    rw [sent_send hr]
    exact hw

theorem streams_breaks {e : Ev} (he : e.breaks s = true) (tr : List Ev) :
    received s (e :: tr) = received s tr ∧ arrived s (e :: tr) = arrived s tr ∧
      framed s (e :: tr) = framed s tr ∧ sent s (e :: tr) = sent s tr := by
  cases e with
  | send g size len r => cases r <;> first | exact ⟨rfl, rfl, rfl, rfl⟩ | cases he
  | except g | recvEnd g | recvFail g => exact ⟨rfl, rfl, rfl, rfl⟩
  | _ => cases he

theorem Ev.eq_of_breaks_on {e : Ev} {g : SocketHandle} (he : e.breaks s = true)
    (hg : e.on g = true) : s = g := by
  cases e with
  | send h size len r =>
    have hh : h = g := by simpa [Ev.on] using hg
    cases r with
    | fail => exact ((by simpa [Ev.breaks] using he : h = s)).symm.trans hh
    | _ => cases he
  | except h | recvEnd h | recvFail h => cases hg
  | _ => cases he

theorem Own.failed {e : Ev} {old tr : List Ev} (h : Own c tr) (he : e.breaks c.socket = true)
    (hold : old = [] ∨ ∃ d, old = [.packet c.socket d]) : Own c (e :: old ++ tr) := by
  rcases hold with rfl | ⟨d, rfl⟩
  · obtain ⟨hr, ha, hf, hs⟩ := streams_breaks he tr
    exact ⟨by rw [List.cons_append, List.nil_append, hr]; exact h.unparsed,
      by rw [List.cons_append, List.nil_append, ha]; exact h.unread,
      by rw [List.cons_append, List.nil_append, ha, hr]; exact h.parsed,
      by rw [List.cons_append, List.nil_append, hf]; exact h.unsent,
      by rw [List.cons_append, List.nil_append, hf, hs]; exact h.onWire⟩
  · have := h.framed (d := d) (w := []) (e := e) ⟨createSendFrame d, (List.append_nil _).symm⟩
      fun tr => by
        obtain ⟨hr, ha, hf, hs⟩ := streams_breaks he tr
        exact ⟨by rw [hs, List.append_nil], hr, ha, hf⟩
    simpa using this

/-! ## Where an entry comes from -/

/-- What a step makes of an entry with a socket, and the events it does so with. -/
inductive Evolves (c : Connection) : List Ev → Connection → Prop where
  | same : Evolves c [] c
  | framed {d w rest : List UInt8} {len : Int} {r : Sent} : r.bytes = some w →
      createSendFrame d = w ++ rest →
      Evolves c [.send c.socket (createSendFrame d).length len r, .packet c.socket d]
        { c with sendBuffer := c.sendBuffer ++ rest }
  | wrote {w rest : List UInt8} {len : Int} {r : Sent} : r.bytes = some w →
      c.sendBuffer = w ++ rest →
      Evolves c [.send c.socket c.sendBuffer.length len r] { c with sendBuffer := rest }
  | parsed {b : List UInt8} {ps : List Packet} {rest : ReceiveBuffer} :
      Drained (c.recvBuffer ++ b) ps rest →
      Evolves c [.pushed c.socket ps, .recv c.socket b]
        { c with receiveQueue := c.receiveQueue ++ ps, recvBuffer := rest }
  | popped {packet : Packet} {rest : PacketQueue} : c.receiveQueue = packet :: rest →
      Evolves c [] { c with receiveQueue := rest }
  | failed {e : Ev} {old : List Ev} : e.breaks c.socket = true →
      (old = [] ∨ ∃ d, old = [.packet c.socket d]) →
      Evolves c (e :: old) { c with connected := false }
  | options (enable : Bool) (baseDelayMs maxDelayMs : UInt32) :
      Evolves c [] (c.setOptions enable baseDelayMs maxDelayMs)

theorem Evolves.socket_eq {new : List Ev} {c' : Connection} (h : Evolves c new c') :
    c'.socket = c.socket := by
  cases h <;> rfl

theorem Evolves.on {new : List Ev} {c' : Connection} (h : Evolves c new c') :
    ∀ e ∈ new, ∀ g, e.on g = true → c.socket = g := by
  cases h with
  | @failed e old he hold =>
    intro e' he' g hg
    rcases List.mem_cons.mp he' with rfl | he'
    · exact Ev.eq_of_breaks_on he hg
    · rcases hold with rfl | ⟨d, rfl⟩
      · cases he'
      · rw [List.mem_singleton.mp he'] at hg
        simpa [Ev.on] using hg
  | _ => simp [Ev.on]

/-- Where the entry `c'` of `p` in the state after `m` comes from, if it has a
socket: from the entry of `m` with that socket, or the socket is new to it. The
events `new` of the step end with others that are not of this socket. -/
inductive Origin (m : Manager) (p : PeerID) (c' : Connection) (new : List Ev) : Prop where
  | evolved {c : Connection} {late mid : List Ev} : m.mConnections.lookup p = some c →
      Evolves c mid c' → new = late ++ mid → (∀ e ∈ late, e.on c'.socket = false) →
      Origin m p c' new
  | linked {e : Ev} {late : List Ev} : m.held (.entry p) = none → e.Obtains c'.socket →
      c'.Empty → new = late ++ [e] → (∀ e ∈ late, e.on c'.socket = false) → Origin m p c' new

/-- Every entry with a socket has an origin in the state before the step. -/
def Origins (m m' : Manager) : Prop :=
  ∃ new, m'.trace = new ++ m.trace ∧ ∀ p c', m'.mConnections.lookup p = some c' →
    c'.socket ≠ invalidSocketHandle → Origin m p c' new

/-- What the origins rest on. -/
def Apart (m : Manager) : Prop := m.Settled ∧ Ownership.Holds m.held (opened m.trace)

theorem Apart.ne (hm : Apart m) {p : PeerID} {d : Connection}
    (hc : m.mConnections.lookup peer = some c) (hd : m.mConnections.lookup p = some d)
    (hs : d.socket ≠ invalidSocketHandle) (hp : p ≠ peer) : c.socket ≠ d.socket := by
  intro he
  have h₁ : m.held (.entry p) = some d.socket := by rw [held_entry hd, holding_valid hs]
  have h₂ : m.held (.entry peer) = some d.socket := by
    rw [held_entry hc, he, holding_valid hs]
  exact hp (Place.entry.inj (hm.2.inj h₁ h₂))

theorem Apart.free (hm : Apart m) (hf : m.free s = true) {p : PeerID} {d : Connection}
    (hd : m.mConnections.lookup p = some d) (hs : d.socket ≠ invalidSocketHandle) :
    d.socket ≠ s := by
  rintro rfl
  have hheld : m.held (.entry p) = some d.socket := by rw [held_entry hd, holding_valid hs]
  exact hm.2.ne_of_closed (opened_of_free hf) _ hheld

theorem Origins.skip (new : List Ev) (hc : m'.mConnections = m.mConnections)
    (ht : m'.trace = new ++ m.trace)
    (hnew : ∀ e ∈ new, ∀ p c, m.mConnections.lookup p = some c →
      c.socket ≠ invalidSocketHandle → e.on c.socket = false) : Origins m m' := by
  refine ⟨new, ht, fun p c hp hs => ?_⟩
  rw [hc] at hp
  exact .evolved hp .same (List.append_nil _).symm fun e he => hnew e he p c hp hs

theorem Origins.evolve {new : List Ev} {c' : Connection} (hm : Apart m)
    (hc : m.mConnections.lookup peer = some c)
    (hr : m'.mConnections = m.mConnections.replace peer c') (ht : m'.trace = new ++ m.trace)
    (he : Evolves c new c') : Origins m m' := by
  refine ⟨new, ht, fun p d hd hs => ?_⟩
  rw [hr, AssocList.lookup_replace hc] at hd
  split at hd
  · rename_i hp
    subst hp
    cases hd
    exact .evolved hc he (List.nil_append _).symm (by simp)
  · rename_i hp
    refine .evolved hd .same (List.append_nil _).symm fun e hmem => ?_
    by_contra hon
    exact hm.ne hc hd hs hp (he.on e hmem d.socket (by simpa using hon))

theorem Origins.drop (c' : Connection) (new : List Ev) (hs : c'.socket = invalidSocketHandle)
    (hc : m.mConnections.lookup peer = some c)
    (hr : m'.mConnections = m.mConnections.replace peer c') (ht : m'.trace = new ++ m.trace)
    (hnew : ∀ e ∈ new, ∀ g, e.on g = false) : Origins m m' := by
  refine ⟨new, ht, fun p d hd hsd => ?_⟩
  rw [hr, AssocList.lookup_replace hc] at hd
  split at hd
  · cases hd
    exact absurd hs hsd
  · exact .evolved hd .same (List.append_nil _).symm fun e he => hnew e he _

theorem Origins.link {e : Ev} (c' : Connection) (hm : Apart m) (hf : m.free s = true)
    (he : e.Obtains s) (hpeer : m.held (.entry peer) = none) (hc' : c'.socket = s)
    (hempty : c'.Empty) (ht : m'.trace = e :: m.trace)
    (hp : ∀ p d, m'.mConnections.lookup p = some d →
      p = peer ∧ d = c' ∨ m.mConnections.lookup p = some d) : Origins m m' := by
  refine ⟨[e], ht, fun p d hd hs => ?_⟩
  rcases hp p d hd with ⟨rfl, rfl⟩ | hd
  · exact .linked hpeer (hc' ▸ he) hempty (List.nil_append _).symm (by simp)
  · refine .evolved hd .same (List.append_nil _).symm fun e' he' => ?_
    have hne := hm.free hf hd hs
    rw [List.mem_singleton.mp he']
    rcases he with rfl | rfl <;> simpa [Ev.on] using fun h => hne h.symm

theorem Origins.noted {event : ConnectionEvent} (h : Origins m m') :
    Origins m (m'.noted peer event) := by
  obtain ⟨new, ht, horg⟩ := h
  unfold Manager.noted
  split
  · refine ⟨.notify peer event :: new, by rw [Manager.log_trace, ht]; rfl, fun p c hp hs => ?_⟩
    cases horg p c hp hs with
    | @evolved _ late _ hc he hnew hlate =>
      exact .evolved hc he (congrArg (_ :: ·) hnew) (List.forall_mem_cons.mpr ⟨rfl, hlate⟩)
    | @linked _ late hno ho hempty hnew hlate =>
      exact .linked hno ho hempty (congrArg (_ :: ·) hnew) (List.forall_mem_cons.mpr ⟨rfl, hlate⟩)
  · exact ⟨new, ht, horg⟩

theorem Minor.origins (h : Minor m m') (hm : Apart m) : Origins m m' := by
  cases h with
  | @logged e he =>
    refine .skip [e] rfl rfl fun e' he' p c _ _ => ?_
    rw [List.mem_singleton.mp he']
    cases e <;> first | rfl | cases he
  | dialed hd =>
    cases hd with
    | noSocket =>
      refine .skip [.socket invalidSocketHandle] rfl rfl fun e he p c _ hs => ?_
      rw [List.mem_singleton.mp he]
      simpa [Ev.on] using fun h => hs h.symm
    | @refused s hf =>
      refine .skip [.close s, .socket s] rfl rfl fun e he p c hc hs => ?_
      have hne := hm.free hf hc hs
      rcases List.mem_pair.mp he with rfl | rfl
      · rfl
      · simpa [Ev.on] using fun h => hne h.symm
    | made hf => exact absurd rfl (Manager.valid_of_free hf)
  | framed hc _ hr hsplit => exact .evolve hm hc rfl rfl (.framed hr hsplit)
  | wrote hc _ hr hsplit => exact .evolve hm hc rfl rfl (.wrote hr hsplit)
  | parsed hc _ _ hd => exact .evolve hm hc rfl rfl (.parsed hd)
  | popped hc hq => exact .evolve hm hc rfl rfl (.popped hq)
  | failed hc _ he hold _ => exact .evolve hm hc rfl rfl (.failed he hold)
  | options enable b x hc => exact .evolve hm hc rfl rfl (.options enable b x)
  | initialized => exact .skip [] rfl rfl (by simp)
  | unlistened =>
    unfold stopListen
    split
    · rename_i hl
      refine .skip [.close m.mListenSocket] ?_ ?_ ?_
      · exact Manager.closeSocket_mConnections _ _
      · show (m.closeSocket m.mListenSocket).trace = _
        rw [Manager.closeSocket, if_pos hl]
        rfl
      · intro e he p c _ _
        rw [List.mem_singleton.mp he]
        rfl
    · exact .skip [] rfl rfl (by simp)
  | @listening s port _ hf =>
    refine .skip [.socket s] rfl rfl fun e he p c hc hs => ?_
    rw [List.mem_singleton.mp he]
    simpa [Ev.on] using fun h => hm.free hf hc hs h.symm

theorem entered_origins {e : Ev} {ip : Text} {port : UInt16} (hm : Apart m)
    (he : e.Obtains s) (hf : m.free s = true) : Origins m ((m.log e).enter s ip port) := by
  by_cases hin : m.mNextPeerID ∈ m.mConnections
  · refine .skip [e] ?_ (Manager.enter_trace ..) fun e' he' p c hc hs => ?_
    · rw [Manager.enter_mConnections, if_pos (by exact hin)]
      rfl
    · have hne := hm.free hf hc hs
      rw [List.mem_singleton.mp he']
      rcases he with rfl | rfl <;> simpa [Ev.on] using fun h => hne h.symm
  · refine .link (.made s m.mNextPeerID ip port) hm hf he (held_none hin) rfl
      ⟨rfl, rfl, rfl⟩ (Manager.enter_trace ..) fun p d hd => ?_
    rcases Manager.enter_lookup s ip port (m.log e) p with hold | ⟨hp, -, hself⟩
    · exact .inr (hold ▸ hd)
    · rw [hself] at hd
      cases hd
      have hp : p = m.mNextPeerID := hp
      exact .inl ⟨hp, by rw [hp]⟩

/-- **Where the entries of a step come from.** -/
theorem Step.origins (h : Step g m m') (hm : Apart m) : Origins m m' := by
  cases h with
  | minor hmin => exact hmin.origins hm
  | entered he hf _ => exact (entered_origins hm he hf).noted
  | @reconnected peer c s now hc hdue hf _ =>
    obtain ⟨hs, -, -, hr, hq, hb⟩ := (hm.1 peer c hc).due hdue
    refine Origins.noted (.link (c.reconnected s) hm hf (.inl rfl) (held_down_entry hc hs) rfl
      ⟨hb, hr, hq⟩ rfl fun p d hd => ?_)
    have hc' : (m.log (.socket s)).mConnections.lookup peer = some c := hc
    exact (Manager.setConn_lookup_some hc' hd).imp_right (·.2)
  | @tornDown peer c hc _ =>
    refine Origins.noted (.drop c.down
      (if c.socket != invalidSocketHandle then [.close c.socket] else []) rfl hc ?_ ?_ ?_)
    · rw [Manager.setConn_mConnections, Manager.closeSocket_mConnections]
    · rw [Manager.setConn_trace, Manager.closeSocket]
      split <;> rfl
    · intro e he g
      split at he
      · rw [List.mem_singleton.mp he]
        rfl
      · cases he
  | @scheduled peer c attempt next hc hdown =>
    have hs : c.socket = invalidSocketHandle := by
      rcases hdown with hD | ⟨now, hdue⟩
      · exact hD.1
      · exact ((hm.1 peer c hc).due hdue).1
    exact .drop (c.scheduled attempt next) [] hs hc rfl rfl (by simp)
  | @erased peer c hc hD =>
    refine ⟨[], rfl, fun p d hd hs => ?_⟩
    by_cases hp : p = peer
    · subst hp
      rw [Manager.erase_mConnections, AList.lookup_erase] at hd
      cases hd
    · rw [Manager.erase_mConnections, AList.lookup_erase_ne hp] at hd
      exact .evolved hd .same (List.nil_append _).symm (by simp)
  | pending _ => exact .skip [] rfl rfl (by simp)

/-! ## Runs -/

/-- The connections with a socket. -/
def Manager.Own (m : Manager) : Prop :=
  ∀ p c, m.mConnections.lookup p = some c → c.socket ≠ invalidSocketHandle → Client.Own c m.trace

theorem Own.evolves {new tr : List Ev} {c' : Connection} (h : Own c tr) (he : Evolves c new c') :
    Own c' (new ++ tr) := by
  cases he with
  | same => exact h
  | @framed d w rest len r hr hsplit =>
    exact h.framed (w := w) ⟨[], by rw [List.append_nil, hsplit]⟩
      fun tr => ⟨sent_send hr _ _ tr, rfl, rfl, rfl⟩
  | wrote hr hsplit => exact h.wrote hr hsplit
  | parsed hd => exact h.received hd
  | @popped packet rest hq =>
    exact ⟨h.unparsed, List.IsSuffix.trans (hq ▸ List.suffix_cons packet rest) h.unread, h.parsed,
      h.unsent, h.onWire⟩
  | failed hb hold =>
    have hown := h.failed hb hold
    exact ⟨hown.unparsed, hown.unread, hown.parsed, hown.unsent, hown.onWire⟩
  | options enable b x => exact ⟨h.unparsed, h.unread, h.parsed, h.unsent, h.onWire⟩

/-- What changes within an entry keep, other sockets do not touch and a new link
starts with holds of every entry with a socket. -/
theorem Origins.entries {P : Connection → List Ev → Prop}
    (hevolves : ∀ {c c' : Connection} {new tr : List Ev}, P c tr → Evolves c new c' →
      P c' (new ++ tr))
    (hskip : ∀ {c : Connection} {new tr : List Ev}, P c tr →
      (∀ e ∈ new, e.on c.socket = false) → P c (new ++ tr))
    (hobtains : ∀ {c : Connection} {e : Ev} {tr : List Ev}, e.Obtains c.socket → c.Empty →
      P c (e :: tr))
    (h : Origins m m')
    (hP : ∀ p c, m.mConnections.lookup p = some c → c.socket ≠ invalidSocketHandle →
      P c m.trace) :
    ∀ p c, m'.mConnections.lookup p = some c → c.socket ≠ invalidSocketHandle →
      P c m'.trace := by
  obtain ⟨new, ht, horg⟩ := h
  intro p c' hc' hs
  rw [ht]
  cases horg p c' hc' hs with
  | @evolved c late mid hc he hnew hlate =>
    rw [hnew, List.append_assoc]
    exact hskip (hevolves (hP p c hc (he.socket_eq ▸ hs)) he) hlate
  | @linked e late _ he hempty hnew hlate =>
    rw [hnew, List.append_assoc]
    exact hskip (hobtains he hempty) hlate

theorem Step.own (h : Step g m m') (hm : Apart m) (ho : m.Own) : m'.Own :=
  (h.origins hm).entries Own.evolves Own.skip Own.obtained ho

theorem Step.apart (h : Step g m m') (hm : Apart m) : Apart m' :=
  have hh : Handles True m m' := h.handles (fun _ _ _ => trivial) hm.1
  ⟨h.settled hm.1, hh.holds hm.2⟩

theorem call_keeps (hcb : Leaf cb) {P : Manager → Prop}
    (hstep : ∀ m m', Step {} m m' → Apart m → P m → P m')
    (hnone : ∀ m, m.mConnections = ∅ → P m) (i : Kernel × Call) (w w' : World υ)
    (hw : Sockets w.mgr ∧ P w.mgr) (h : call cb i w = some w') :
    Sockets w'.mgr ∧ P w'.mgr := by
  refine ⟨call_sockets hcb i w w' hw.1 h, ?_⟩
  rcases call_free_steps hcb h with hs | ⟨-, rfl⟩
  · have := hs.invariant (P := fun v => Apart v ∧ P v)
      (fun m m' hv hs => ⟨hs.apart hv.1, hstep m m' hs hv.1 hv.2⟩)
      ⟨⟨hw.1.settled, hw.1.holds⟩, hw.2⟩
    exact this.2
  · rw [World.onMgr_mgr]
    cases hi : w.mgr.mInitialized with
    | true => exact hnone _ (by rw [shutdown_mConnections, hi, if_pos rfl])
    | false =>
      rw [shutdown_of_uninitialized hi]
      exact hw.2

theorem reachable_keeps (hcb : Leaf cb) {P : Manager → Prop}
    (hstep : ∀ m m', Step {} m m' → Apart m → P m → P m')
    (hnone : ∀ m, m.mConnections = ∅ → P m) {callback : Bool} {user : υ}
    (h : Runs.Reachable (call cb) (fresh callback user) w) : Sockets w.mgr ∧ P w.mgr :=
  h.invariant (P := fun v => Sockets v.mgr ∧ P v.mgr)
    ⟨fresh_sockets callback user, hnone _ rfl⟩ (call_keeps hcb hstep hnone)

/-- **Every new link starts clean**, in every state a run leads to: the buffers
are empty whenever a socket becomes the socket of a peer, and what is in the
buffers of an entry between two calls, or was sent and parsed for it, is of the
socket it has. -/
theorem links_clean (hcb : Leaf cb) {callback : Bool} {user : υ}
    (h : Runs.Reachable (call cb) (fresh callback user) w) :
    (∀ k op s p m, Links cb k w s p op m →
      ∃ c, m.mConnections.lookup p = some c ∧ c.socket = s ∧ c.Empty) ∧
    ∀ p c, w.mgr.mConnections.lookup p = some c → c.socket ≠ invalidSocketHandle →
      Own c w.mgr.trace := by
  have hend : Sockets w.mgr ∧ w.mgr.Own :=
    reachable_keeps hcb (fun _ _ hs => hs.own) (fun m hm p c hc => by simp [hm] at hc) h
  exact ⟨fun k op s p m hl => hl.clean hcb hend.1.settled, hend.2⟩

/-- The connection on 11 is lost, and the peer reconnected on 22. -/
theorem lifeRun_clean :
    ∃ w c, Runs.run (call ignore) (lifeRun.take 5) (fresh true ()) = some w ∧
      w.mgr.mConnections.lookup 1 = some c ∧ c.socket = 22 ∧ Own c w.mgr.trace ∧
      ∀ k op s p m, Links ignore k w s p op m →
        ∃ c, m.mConnections.lookup p = some c ∧ c.socket = s ∧ c.Empty := by
  let w := (Runs.run (call ignore) (lifeRun.take 5) (fresh true ())).get (by decide +kernel)
  let c := (w.mgr.mConnections.lookup 1).get (by decide +kernel)
  have hr : Runs.run (call ignore) (lifeRun.take 5) (fresh true ()) = some w := by simp [w]
  have hc : w.mgr.mConnections.lookup 1 = some c := by simp [c]
  obtain ⟨hlinks, hown⟩ := links_clean ignore_mute.leaf ⟨_, hr⟩
  exact ⟨w, c, hr, hc, by decide +kernel, hown 1 c hc (by decide +kernel), hlinks⟩

end IsaacP2P.Client
