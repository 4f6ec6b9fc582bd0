import IsaacP2P.Client.Arrivals

/-!
# The wire in whole runs

`outgoing_stream` is about the sends on one connection. Here the library runs as
it likes: while a link is up, the bytes on its wire followed by those in its send
buffer are the frames made for it, in their order (`reachable_wire`), unless one
of them overtook the buffer (`InOrder`). And what was framed on a socket stays
framed, until the socket is closed (`Grows`).
-/

namespace IsaacP2P.Client

variable {υ : Type} {cb : Callback υ} {w : World υ} {m m' : Manager} {g : Guard}
  {h : SocketHandle} {c c' : Connection} {tr new : List Ev}

/-- The newest event is a `send()` that took something of the frame just made,
while frames made before it were not on the wire as a whole. -/
def overtakesAt (h : SocketHandle) : List Ev → Bool
  | .send g _ _ (.took (_ :: _)) :: .packet _ _ :: old =>
    g == h && sent h old != (framed h old).flatMap createSendFrame
  | _ => false

/-- At no time a frame overtook what waited. -/
def InOrder (h : SocketHandle) (tr : List Ev) : Prop := ∀ old ∈ tr.tails, overtakesAt h old = false

instance (h : SocketHandle) (tr : List Ev) : Decidable (InOrder h tr) :=
  inferInstanceAs (Decidable (∀ old ∈ tr.tails, overtakesAt h old = false))

theorem InOrder.of_suffix {old : List Ev} (ho : InOrder h tr) (hs : old <:+ tr) : InOrder h old :=
  fun t ht => ho t ((List.mem_tails ..).mpr (((List.mem_tails ..).mp ht).trans hs))

theorem InOrder.wire {size : Nat} {len : Int} {b : UInt8} {bs : List UInt8} {d : Packet}
    (ho : InOrder h (.send h size len (.took (b :: bs)) :: .packet h d :: tr)) :
    sent h tr = (framed h tr).flatMap createSendFrame := by
  have := ho _ ((List.mem_tails ..).mpr List.suffix_rfl)
  simpa [overtakesAt] using this

/-- While the link of the entry is up. -/
def OnWire (c : Connection) (tr : List Ev) : Prop :=
  c.connected = true → InOrder c.socket tr →
    sent c.socket tr ++ c.sendBuffer = (framed c.socket tr).flatMap createSendFrame

theorem OnWire.skip (hw : OnWire c tr) (hnew : ∀ e ∈ new, e.on c.socket = false) :
    OnWire c (new ++ tr) := by
  intro hup ho
  have hold := hw hup (ho.of_suffix (List.suffix_append new tr))
  clear ho
  induction new with
  | nil => exact hold
  | cons e new ih =>
    obtain ⟨-, -, hf, hs⟩ := streams_skip (hnew e (List.mem_cons_self ..)) (new ++ tr)
    rw [List.cons_append, hf, hs]
    exact ih fun e he => hnew e (List.mem_cons_of_mem _ he)

theorem OnWire.obtained {e : Ev} (he : e.Obtains c.socket) (hc : c.Empty) : OnWire c (e :: tr) := by
  intro _ _
  obtain ⟨hb, -, -⟩ := hc
  rcases he with rfl | rfl <;> simp [sent, framed, hb]

/-- A frame is made. If the kernel takes nothing of it, it waits behind what waits;
otherwise nothing waited. -/
theorem OnWire.framed {d : Packet} {b rest : List UInt8} {len : Int} {r : Sent}
    (hw : OnWire c tr) (hr : r.bytes = some b) (hsplit : createSendFrame d = b ++ rest) :
    OnWire { c with sendBuffer := c.sendBuffer ++ rest }
      (.send c.socket (createSendFrame d).length len r :: .packet c.socket d :: tr) := by
  intro hup ho
  have hold := hw hup (ho.of_suffix ⟨[_, _], rfl⟩)
  have hframed : Client.framed c.socket (.packet c.socket d :: tr) =
      Client.framed c.socket tr ++ [d] := if_pos rfl
  rw [sent_send hr]
  show sent c.socket tr ++ b ++ (c.sendBuffer ++ rest) =
    (Client.framed c.socket (.packet c.socket d :: tr)).flatMap createSendFrame
  rw [hframed, List.flatMap_append, List.flatMap_singleton, hsplit, ← hold]
  cases b with
  | nil => simp
  | cons x xs =>
    have htook : r = .took (x :: xs) := by
      cases r <;> cases hr
      rfl
    subst htook
    have hempty : c.sendBuffer = [] := by
      rw [← ho.wire] at hold
      exact List.append_right_eq_self.mp hold
    rw [hempty, List.append_nil, List.nil_append, List.append_assoc]

theorem OnWire.wrote {b rest : List UInt8} {len : Int} {r : Sent} (hw : OnWire c tr)
    (hr : r.bytes = some b) (hsplit : c.sendBuffer = b ++ rest) :
    OnWire { c with sendBuffer := rest } (.send c.socket c.sendBuffer.length len r :: tr) := by
  intro hup ho
  have hold := hw hup (ho.of_suffix (List.suffix_cons _ _))
  rw [sent_send hr]
  show sent c.socket tr ++ b ++ rest = (Client.framed c.socket tr).flatMap createSendFrame
  rw [← hold, hsplit, List.append_assoc]

theorem OnWire.evolves (hw : OnWire c tr) (he : Evolves c new c') : OnWire c' (new ++ tr) := by
  cases he with
  | same | popped _ | options _ _ _ => exact hw
  | framed hr hsplit => exact hw.framed hr hsplit
  | wrote hr hsplit => exact hw.wrote hr hsplit
  | parsed hd =>
    intro hup ho
    exact hw hup (ho.of_suffix (List.suffix_append _ tr))
  | failed _ _ => exact nofun

/-- Every link that is up. -/
def Manager.OnWire (m : Manager) : Prop :=
  ∀ p c, m.mConnections.lookup p = some c → c.socket ≠ invalidSocketHandle →
    Client.OnWire c m.trace

theorem Step.onWire (hs : Step g m m') (hm : Apart m) (hw : m.OnWire) : m'.OnWire :=
  (hs.origins hm).entries OnWire.evolves OnWire.skip OnWire.obtained hw

theorem onWire_of_empty (hm : m.mConnections = ∅) : m.OnWire := by
  intro p c hc
  rw [hm] at hc
  cases hc

/-- **The wire of a link** in every state a run leads to. -/
theorem reachable_wire (hcb : Leaf cb) {callback : Bool} {user : υ}
    (h : Runs.Reachable (call cb) (fresh callback user) w) : w.mgr.OnWire :=
  (reachable_keeps hcb (fun _ _ hs => hs.onWire) (fun _ => onWire_of_empty) h).2

/-! ## What is framed stays framed -/

theorem framed_skip (hnew : ∀ e ∈ new, e.on h = false) : framed h (new ++ tr) = framed h tr := by
  induction new with
  | nil => rfl
  | cons e new ih =>
    rw [List.cons_append, (streams_skip (hnew e (List.mem_cons_self ..)) _).2.2.1]
    exact ih fun e he => hnew e (List.mem_cons_of_mem _ he)

theorem Evolves.framed_grows (he : Evolves c new c') (tr : List Ev) :
    Client.framed c.socket tr <+: Client.framed c.socket (new ++ tr) := by
  cases he with
  | @failed e old hb hold =>
    have hskip : Client.framed c.socket (e :: (old ++ tr)) = Client.framed c.socket (old ++ tr) := by
      cases e <;> simp [Ev.breaks] at hb <;> rfl
    rw [List.cons_append, hskip]
    rcases hold with rfl | ⟨d, rfl⟩
    · exact List.prefix_rfl
    · simp [Client.framed]
  | _ => simp [Client.framed]

/-- A link does not come up again on its socket. -/
theorem Evolves.connected_of (he : Evolves c new c') (hup : c'.connected = true) :
    c.connected = true := by
  cases he with
  | failed _ _ => cases hup
  | _ => exact hup

/-- The link of `peer` is up. -/
def Manager.up (peer : PeerID) (m : Manager) : Prop :=
  ∃ c, m.mConnections.lookup peer = some c ∧ c.connected = true

/-- If `peer` holds the socket `h`, it is closed, or `peer` still holds it: what was framed on
it stands in front of what is framed now, and it was up if it is. -/
def Grows (peer : PeerID) (h : SocketHandle) (m m' : Manager) : Prop :=
  ∃ new, m'.trace = new ++ m.trace ∧ (m.held (.entry peer) = some h → Ev.close h ∈ new ∨
    m'.held (.entry peer) = some h ∧ framed h m.trace <+: framed h m'.trace ∧
      (m'.up peer → m.up peer))

theorem Grows.refl (peer : PeerID) (h : SocketHandle) (m : Manager) : Grows peer h m m :=
  ⟨[], rfl, fun hheld => .inr ⟨hheld, List.prefix_rfl, id⟩⟩

theorem Grows.trans {peer : PeerID} {m'' : Manager} (hg : Grows peer h m m')
    (hg' : Grows peer h m' m'') : Grows peer h m m'' := by
  obtain ⟨new, ht, hr⟩ := hg
  obtain ⟨new', ht', hr'⟩ := hg'
  refine ⟨new' ++ new, by rw [ht', ht, List.append_assoc], fun hheld => ?_⟩
  rcases hr hheld with hclose | ⟨hmid, hf, hup⟩
  · exact .inl (List.mem_append_right _ hclose)
  · rcases hr' hmid with hclose | ⟨hend, hf', hup'⟩
    · exact .inl (List.mem_append_left _ hclose)
    · exact .inr ⟨hend, hf.trans hf', hup ∘ hup'⟩

theorem Step.grows {peer : PeerID} (hs : Step {} m m') (hm : Apart m) : Grows peer h m m' := by
  obtain ⟨new, ht, horg⟩ := hs.origins hm
  have hh : Handles True m m' := hs.handles (fun _ _ _ => trivial) hm.1
  obtain ⟨new', ht', hkept⟩ := hh.kept
  obtain rfl : new' = new := List.append_cancel_right (ht'.symm.trans ht)
  refine ⟨new', ht, fun hheld => ?_⟩
  rcases hkept _ _ hheld with hheld' | hclose
  · obtain ⟨hvalid, c', hc', rfl⟩ := lookup_of_held (hs.apart hm).2 hheld'
    cases horg peer c' hc' hvalid with
    | @evolved c late mid hc he hnew hlate =>
      refine .inr ⟨hheld', ?_, fun ⟨d, hd, hup⟩ => ⟨c, hc, ?_⟩⟩
      · rw [ht, hnew, List.append_assoc, framed_skip hlate, he.socket_eq]
        exact he.framed_grows m.trace
      · obtain rfl : c' = d := Option.some.inj (hc'.symm.trans hd)
        exact he.connected_of hup
    | linked hno _ _ _ _ =>
      rw [hheld] at hno
      cases hno
  · exact .inl hclose

theorem Steps.grows {peer : PeerID} (hs : Steps {} m m') (hm : Apart m) : Grows peer h m m' := by
  have hend := hs.invariant (P := fun v => Apart v ∧ Grows peer h m v)
    (fun _ _ hv hs => ⟨hs.apart hv.1, hv.2.trans (hs.grows hv.1)⟩) ⟨hm, .refl peer h m⟩
  exact hend.2

end IsaacP2P.Client
