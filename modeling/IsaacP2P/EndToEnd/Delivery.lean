import IsaacP2P.Hook.Buffers
import IsaacP2P.Hook.Rounds
import IsaacP2P.Relay.History

/-!
# From hook to hook

A payload passes three codecs. The hook of the sender puts the target and its own
`CSteamID` in front and the library frames the whole; the relay takes the target
off and frames the rest anew; the library of the receiver unframes it, and its
hook takes the sender off (`messageOf_sent`). `delivered_end_to_end` follows the
packets of all senders through the stream the relay merges them into.
-/

namespace IsaacP2P.EndToEnd

open Client (PeerID SocketHandle createSendFrame createSendFrame_eq received arrived maxPacket)
open Hook (CSteamID Message Process Input steamIDBytes messageOf onWay returned Gave rounds)
open Relay (Server Fd markOf handled consumed forwarded written deliveries payloadFor maxPayload
  markSize)
open LengthPrefixed (frame stream)
open Streaming (Decodes)

/-! ## One packet -/

/-- A call of `Hook_SendP2PPacket`: the target and the payload. -/
abbrev Call := CSteamID × List UInt8

/-- The buffer the hook of `id` builds for a call. -/
def bufferOf (id : CSteamID) (call : Call) : List UInt8 :=
  (Hook.sendBufferFor call.1 id (some call.2) (UInt32.ofNat call.2.length)).getD []

/-- What is addressed to one client the relay hands to it alone, without the address. -/
theorem payloadFor_addressed (id₀ id target : CSteamID) (data : List UInt8) :
    payloadFor (steamIDBytes target) (steamIDBytes id₀ ++ (steamIDBytes id ++ data)) =
      if id₀ = target then some (steamIDBytes id ++ data) else none := by
  have hne : steamIDBytes id ++ data ≠ [] := by
    intro h0
    have := congrArg List.length h0
    rw [List.length_append, Hook.length_steamIDBytes, List.length_nil] at this
    omega
  rw [payloadFor, markSize, List.take_left' (Hook.length_steamIDBytes id₀),
    List.drop_left' (Hook.length_steamIDBytes id₀)]
  by_cases ht : id₀ = target
  · rw [if_pos ⟨by rw [ht], hne⟩, if_pos ht]
  · rw [if_neg fun h => ht (Hook.steamIDBytes_inj h.1), if_neg ht]

section

variable {call : Call} (id target : CSteamID)

theorem bufferOf_eq (hlen : call.2.length ≤ 65516) :
    bufferOf id call = steamIDBytes call.1 ++ (steamIDBytes id ++ call.2) := by
  rw [bufferOf, Hook.sendBufferFor_eq (by omega), Option.getD_some, List.append_assoc]

theorem bufferOf_legal (hlen : call.2.length ≤ 65516) :
    bufferOf id call ≠ [] ∧ (bufferOf id call).length ≤ maxPayload := by
  have hsize : (bufferOf id call).length = 16 + call.2.length := by
    rw [bufferOf_eq id hlen]
    simp only [List.length_append, Hook.length_steamIDBytes]
    omega
  refine ⟨fun h0 => ?_, ?_⟩
  · rw [h0, List.length_nil] at hsize
    omega
  · rw [hsize, maxPayload]
    omega

theorem payloadFor_bufferOf (hlen : call.2.length ≤ 65516) :
    payloadFor (steamIDBytes target) (bufferOf id call) =
      if call.1 = target then some (steamIDBytes id ++ call.2) else none := by
  rw [bufferOf_eq id hlen, payloadFor_addressed]

theorem payloads_eq {cs : List Call} (hfits : ∀ call ∈ cs, call.2.length ≤ 65516) :
    (cs.map (bufferOf id)).filterMap (payloadFor (steamIDBytes target)) =
      (cs.filter (·.1 = target)).map fun call => steamIDBytes id ++ call.2 := by
  induction cs with
  | nil => rfl
  | cons call cs ih =>
    have ih := ih fun c hc => hfits c (List.mem_cons_of_mem _ hc)
    have hone := payloadFor_bufferOf id target (hfits call (List.mem_cons_self ..))
    rw [List.map_cons, List.filterMap_cons, List.filter_cons, hone]
    by_cases ht : call.1 = target
    · simp [ht, ih]
    · simp [ht, ih]

theorem messageOf_sent (payload : List UInt8) :
    messageOf (steamIDBytes id ++ payload) = some (id, payload) := by
  have hlen : 8 ≤ (steamIDBytes id ++ payload).length := by
    rw [List.length_append, Hook.length_steamIDBytes]
    omega
  rw [messageOf, if_pos hlen, List.take_left' (Hook.length_steamIDBytes id),
    List.drop_left' (Hook.length_steamIDBytes id), Hook.steamIDOf_bytes]

end

/-! ## The relay -/

/-- The relay runs from `s₀`, where the registered clients are those of `ids`, to
`s₁`. None of their connections is closed in between, nobody else registers, and
each client has sent the frames of its calls. -/
structure Session (ids : Fd → Option CSteamID) (calls : Fd → List Call) (s₀ s₁ : Server) : Prop where
  start : Relay.Reachable s₀
  run : ∃ is, Runs.run Relay.step is s₀ = some s₁
  registered : ∀ f, markOf f s₀.trace = (ids f).map steamIDBytes
  stays : ∃ new, s₁.trace = new ++ s₀.trace ∧ (∀ f mark, Relay.Ev.register f mark ∉ new) ∧
    ∀ f, ids f ≠ none → Relay.Ev.close f ∉ new
  /-- The frames processed before `s₀` and those of the calls are all the relay read. -/
  sent : ∀ f id, ids f = some id → consumed f s₁.trace =
    (handled f s₀.trace ++ (calls f).map (bufferOf id)).flatMap createSendFrame
  fits : ∀ f, ∀ call ∈ calls f, call.2.length ≤ 65516

namespace Session

variable {ids : Fd → Option CSteamID} {calls : Fd → List Call} {s₀ s₁ : Server} {a b f : Fd}
  {id idA idB : CSteamID}

theorem reachable (hs : Session ids calls s₀ s₁) : Relay.Reachable s₁ := by
  obtain ⟨listenFd, epfd, hstart⟩ := hs.start
  obtain ⟨is, hr⟩ := hs.run
  exact ⟨listenFd, epfd, hstart.run hr⟩

theorem mark (hs : Session ids calls s₀ s₁) (hf : ids f = some id) :
    markOf f s₀.trace = some (steamIDBytes id) := by
  rw [hs.registered, hf, Option.map_some]

theorem ids_inj (hs : Session ids calls s₀ s₁) (ha : ids a = some id) (hb : ids b = some id) :
    a = b := by
  have hi := Relay.reachable_inv hs.start
  exact hi.markAt_inj ((hi.marked a).symm.trans (hs.mark ha)) ((hi.marked b).symm.trans (hs.mark hb))

theorem connected (hs : Session ids calls s₀ s₁) (hf : ids f = some id) :
    ∃ c, s₀.gConnections.lookup f = some c := by
  have hi := Relay.reachable_inv hs.start
  obtain ⟨c, hc, -⟩ := Server.markAt_eq_some.mp ((hi.marked f).symm.trans (hs.mark hf))
  exact ⟨c, hc⟩

theorem isOpen (hs : Session ids calls s₀ s₁) (hf : ids f = some id) :
    Relay.isOpen f s₀.trace = true := by
  obtain ⟨c, hc⟩ := hs.connected hf
  rw [(Relay.reachable_inv hs.start).opened, hc]
  rfl

theorem keeps (hs : Session ids calls s₀ s₁) (hf : ids f = some id) :
    ∃ c, s₁.gConnections.lookup f = some c := by
  have hi := Relay.reachable_inv hs.reachable
  have ho := Relay.reachable_ordered hs.reachable
  obtain ⟨new, htr, hreg, hclose⟩ := hs.stays
  rw [htr] at ho
  have hmark := (Relay.stays_open ho (hs.isOpen hf) (hclose f (by rw [hf]; simp)) (hreg f)).2
  rw [← htr, hs.mark hf, hi.marked] at hmark
  obtain ⟨c, hc, -⟩ := Server.markAt_eq_some.mp hmark
  exact ⟨c, hc⟩

theorem handled_eq (hs : Session ids calls s₀ s₁) (hf : ids f = some id) :
    handled f s₁.trace = handled f s₀.trace ++ (calls f).map (bufferOf id) := by
  obtain ⟨c₀, hc₀⟩ := hs.connected hf
  obtain ⟨c₁, hc₁⟩ := hs.keeps hf
  have hd₀ := Relay.reachable_intake hs.start f c₀ hc₀
  have hd₁ := Relay.reachable_intake hs.reachable f c₁ hc₁
  have hlegal : ∀ q ∈ handled f s₀.trace ++ (calls f).map (bufferOf id),
      q ≠ [] ∧ q.length ≤ maxPayload := by
    intro q hq
    rcases List.mem_append.mp hq with hq | hq
    · exact LengthPrefixed.takes_legal hd₀.1 q hq
    · obtain ⟨call, hcall, rfl⟩ := List.mem_map.mp hq
      exact bufferOf_legal id (hs.fits f call hcall)
  have hall : Decodes (stream maxPayload) (consumed f s₁.trace)
      (handled f s₀.trace ++ (calls f).map (bufferOf id)) [] := by
    rw [hs.sent f id hf]
    refine Streaming.decodes_flatMap rfl fun q hq more => ?_
    obtain ⟨h0, hmax⟩ := hlegal q hq
    rw [createSendFrame_eq]
    refine LengthPrefixed.next_frame ?_ h0 hmax more
    simp only [maxPayload] at hmax
    omega
  exact (hd₁.unique hall).1

/-- Once its send buffer is empty, a client was written the frames of its deliveries. -/
theorem written_eq (hs : Session ids calls s₀ s₁) (hb : ids b = some id)
    (hsent : ∀ c, s₁.gConnections.lookup b = some c → c.sendBuf = []) :
    written b s₁.trace = ((deliveries b s₁.trace).map (·.2)).flatMap frame := by
  obtain ⟨c, hc⟩ := hs.keeps hb
  have hout := (Relay.reachable_inv hs.reachable).out hc
  rw [hsent c hc, List.append_nil] at hout
  rw [hout, Relay.forwarded_eq, List.flatMap_map]

theorem deliveries_from (hs : Session ids calls s₀ s₁) (ha : ids a = some idA)
    (hb : ids b = some idB) (hfirst : deliveries b s₀.trace = []) :
    (deliveries b s₁.trace).filter (·.1 = a) =
      ((calls a).filter (·.1 = idB)).map fun call => (a, steamIDBytes idA ++ call.2) := by
  obtain ⟨new, htr, hreg, hclose⟩ := hs.stays
  have ho := Relay.reachable_ordered hs.reachable
  have hhandled := hs.handled_eq ha
  rw [htr] at ho hhandled ⊢
  obtain ⟨ps, hps, hd⟩ := Relay.deliveries_window ho
    ⟨hclose a (by rw [ha]; simp), hclose b (by rw [hb]; simp)⟩ (fun m => ⟨hreg a m, hreg b m⟩)
    ⟨hs.isOpen ha, hs.isOpen hb⟩ (by rw [hs.mark ha]; simp) (hs.mark hb)
  obtain rfl : ps = (calls a).map (bufferOf idA) :=
    List.append_cancel_left (hps.symm.trans hhandled)
  rw [hd, hfirst, List.filter_nil, List.nil_append, payloads_eq idA idB (hs.fits a), List.map_map]
  rfl

theorem deliveries_mem (hs : Session ids calls s₀ s₁) (hb : ids b = some idB)
    (hfirst : deliveries b s₀.trace = []) {d : Fd × List UInt8}
    (hd : d ∈ deliveries b s₁.trace) : ∃ idA payload, ids d.1 = some idA ∧
      d.2 = steamIDBytes idA ++ payload ∧ payload.length ≤ 65516 := by
  obtain ⟨new, htr, hreg, -⟩ := hs.stays
  have hsender : ids d.1 ≠ none := by
    have := Relay.deliveries_senders (b := b) hreg (by rw [← htr]; exact hd)
    rw [hfirst, hs.registered] at this
    rcases this with h | h
    · cases h
    · intro hno
      rw [hno] at h
      exact h rfl
  obtain ⟨idA, hA⟩ := Option.ne_none_iff_exists'.mp hsender
  have hmem : d ∈ (deliveries b s₁.trace).filter (·.1 = d.1) :=
    List.mem_filter.mpr ⟨hd, by simp⟩
  rw [hs.deliveries_from hA hb hfirst] at hmem
  obtain ⟨call, hcall, he⟩ := List.mem_map.mp hmem
  refine ⟨idA, call.2, hA, congrArg Prod.snd he.symm, ?_⟩
  exact hs.fits d.1 call (List.mem_of_mem_filter hcall)

end Session

/-! ## The receiving process -/

section

variable {p : PeerID} {h : SocketHandle} {ps : List Client.Packet} {rest : List UInt8} {v : Process}

/-- The packets that arrived are those of the bytes received. -/
theorem arrived_eq (hv : Hook.Reachable v) (hheld : v.mgr.held (.entry p) = some h)
    (hd : Decodes (stream maxPacket) (Client.received h v.mgr.trace) ps rest) :
    arrived h v.mgr.trace = ps := by
  obtain ⟨hs, c, hc, rfl⟩ := Client.lookup_of_held (Hook.reachable_sound hv).apart.2 hheld
  exact (Hook.reachable_parsed hv p c hc hs ps rest hd).1

theorem quiet_of_new (hv : Hook.Reachable v) (hheld : v.mgr.held (.entry p) = some h)
    (hnew : received h v.mgr.trace = [] ∧ v.user.gHasTcpData = false) :
    arrived h v.mgr.trace = [] ∧ onWay p v = [] := by
  have harr : arrived h v.mgr.trace = [] :=
    arrived_eq hv hheld (by rw [hnew.1]; exact Client.decodes_nil)
  refine ⟨harr, ?_⟩
  obtain ⟨hs, c, hc, hsock⟩ := Client.lookup_of_held (Hook.reachable_sound hv).apart.2 hheld
  have hown := (Hook.reachable_own hv p c hc (by rw [hsock]; exact hs)).unread
  rw [hsock, harr, List.suffix_nil] at hown
  rw [onWay, Client.unread_of_lookup hc, hown, Hook.Globals.staged, if_neg (by simp [hnew.2])]
  rfl

end

/-- The process of the receiver runs from `w`, where its connection to the relay is
new, to `w'`. That connection is not closed, and `bytes` is all it receives, first
in the calls `is`, whatever they are, and then nothing while the game polls and
reads as often as there are packets on the way. -/
structure Reception (p : PeerID) (h : SocketHandle) (bytes : List UInt8)
    (is : List (Client.Kernel × Input)) (ks : List (Client.Kernel × UInt32))
    (w w₁ w' : Process) : Prop where
  start : Hook.Reachable w
  linked : w.mgr.held (.entry p) = some h
  new : received h w.mgr.trace = [] ∧ w.user.gHasTcpData = false
  calls : Runs.run Hook.step is w = some w₁
  rounds : Runs.run Hook.step (rounds ks) w₁ = some w'
  stays : ∃ new, w'.mgr.trace = new ++ w.mgr.trace ∧ Client.Ev.close h ∉ new
  received : received h w₁.mgr.trace = bytes ∧ received h w'.mgr.trace = bytes
  enough : (onWay p w₁).length ≤ ks.length

namespace Reception

variable {p : PeerID} {h : SocketHandle} {bytes rest : List UInt8} {ps : List Client.Packet}
  {is : List (Client.Kernel × Input)} {ks : List (Client.Kernel × UInt32)} {w w₁ w' : Process}

theorem quiet (hr : Reception p h bytes is ks w w₁ w') :
    arrived h w.mgr.trace = [] ∧ onWay p w = [] :=
  quiet_of_new hr.start hr.linked hr.new

/-- **The game reads all that the bytes hold**, if no packet in them is too short. -/
theorem delivers (hr : Reception p h bytes is ks w w₁ w')
    (hd : Decodes (stream maxPacket) bytes ps rest) (hlong : ∀ q ∈ ps, 8 ≤ q.length) :
    Gave (returned (is ++ Hook.rounds ks) w) (ps.filterMap messageOf) := by
  obtain ⟨hquiet, hempty⟩ := hr.quiet
  have hw := Hook.reachable_sound hr.start
  have hw₁ := hr.start.run hr.calls
  have hs₁ := Hook.reachable_sound hw₁
  obtain ⟨out₁, -, hh₁⟩ := Hook.run_hands (p := p) (h := h) hw hr.calls
  obtain ⟨out₂, -, hh₂⟩ := Hook.run_hands (p := p) (h := h) hs₁ hr.rounds
  obtain ⟨new₁, ht₁, -⟩ := id hh₁
  obtain ⟨new₂, ht₂, -⟩ := id hh₂
  obtain ⟨new, ht, hup⟩ := hr.stays
  have htrace : new ++ w.mgr.trace = new₂ ++ new₁ ++ w.mgr.trace := by
    rw [← ht, ht₂, ht₁, List.append_assoc]
  obtain rfl := List.append_cancel_right htrace
  simp only [List.mem_append, not_or] at hup
  obtain ⟨hheld₁, -⟩ := hh₁.up hr.linked ht₁ hup.2
  obtain ⟨hheld', -⟩ := hh₂.up hheld₁ ht₂ hup.1
  have harr₁ : arrived h w₁.mgr.trace = ps :=
    arrived_eq hw₁ hheld₁ (by rw [hr.received.1]; exact hd)
  have harr' : arrived h w'.mgr.trace = ps :=
    arrived_eq (hw₁.run hr.rounds) hheld' (by rw [hr.received.2]; exact hd)
  have hdrained : onWay p w' = [] :=
    Hook.rounds_drain hs₁ (Hook.reachable_own hw₁) hr.rounds hheld₁ ht₂ hup.1
      (harr'.trans harr₁.symm) (by rw [harr₁]; exact hlong) hr.enough
  have hall : Runs.run Hook.step (is ++ Hook.rounds ks) w = some w' := by
    rw [Runs.run_append, hr.calls]
    exact hr.rounds
  obtain ⟨out, hgave, hh⟩ := Hook.run_hands (p := p) (h := h) hw hall
  obtain ⟨-, ps', ha, hq⟩ := hh.up hr.linked (by rw [ht₂, ht₁, List.append_assoc])
    (by simpa using hup)
  rw [hquiet, harr', List.nil_append] at ha
  subst ha
  rw [Fifo.Passes, hempty, hdrained, List.nil_append, List.append_nil] at hq
  rw [hq]
  exact hgave

end Reception

/-! ## All together -/

/-- **Every payload gets from hook to hook**, whole, once and in order. However the
relay interleaves the clients, and however the streams are cut, the game of `b`
reads from each client `a` exactly the payloads of the calls of `a` for it, and
from nobody else. -/
theorem delivered_end_to_end {ids : Fd → Option CSteamID} {calls : Fd → List Call}
    {s₀ s₁ : Server} {b : Fd} {idB : CSteamID} {p : PeerID} {h : SocketHandle}
    {is : List (Client.Kernel × Input)} {ks : List (Client.Kernel × UInt32)} {w w₁ w' : Process}
    (hs : Session ids calls s₀ s₁) (hb : ids b = some idB) (hfirst : forwarded b s₀.trace = [])
    (hsent : ∀ c, s₁.gConnections.lookup b = some c → c.sendBuf = [])
    (hr : Reception p h (written b s₁.trace) is ks w w₁ w') :
    ∃ out, Gave (returned (is ++ rounds ks) w) out ∧
      (∀ a idA, ids a = some idA → out.filter (·.1 = idA) =
        ((calls a).filter (·.1 = idB)).map fun call => (idA, call.2)) ∧
      ∀ msg ∈ out, ∃ a, ids a = some msg.1 := by
  have hnone : deliveries b s₀.trace = [] := by
    rw [Relay.forwarded_eq, List.flatMap_eq_nil_iff] at hfirst
    refine List.eq_nil_iff_forall_not_mem.mpr fun d hd => ?_
    have := congrArg List.length (hfirst d hd)
    rw [LengthPrefixed.length_frame, List.length_nil] at this
    omega
  have hmem : ∀ d ∈ deliveries b s₁.trace, ∃ idA payload, ids d.1 = some idA ∧
      d.2 = steamIDBytes idA ++ payload ∧ payload.length ≤ 65516 := fun d hd =>
    hs.deliveries_mem hb hnone hd
  have hdec : Decodes (stream maxPacket) (written b s₁.trace)
      ((deliveries b s₁.trace).map (·.2)) [] := by
    rw [hs.written_eq hb hsent]
    refine Streaming.decodes_flatMap rfl fun q hq more => ?_
    obtain ⟨d, hd, rfl⟩ := List.mem_map.mp hq
    obtain ⟨idA, payload, -, he, hlen⟩ := hmem d hd
    have hsize := Hook.length_steamIDBytes idA
    have hq : d.2.length = 8 + payload.length := by rw [he, List.length_append, hsize]
    refine LengthPrefixed.next_frame (by omega) (fun h0 => ?_) ?_ more
    · rw [h0, List.length_nil] at hq
      omega
    · rw [hq, maxPacket]
      omega
  refine ⟨_, hr.delivers hdec ?_, ?_, ?_⟩
  · intro q hq
    obtain ⟨d, hd, rfl⟩ := List.mem_map.mp hq
    obtain ⟨idA, payload, -, he, -⟩ := hmem d hd
    rw [he, List.length_append, Hook.length_steamIDBytes]
    omega
  · intro a idA ha
    -- what is from `a` is what names `a` as its sender
    have hfrom : ∀ d ∈ deliveries b s₁.trace, ((messageOf d.2).filter (·.1 = idA)) =
        if d.1 = a then messageOf d.2 else none := by
      intro d hd
      obtain ⟨id, payload, hid, he, -⟩ := hmem d hd
      have hsame : id = idA ↔ d.1 = a := by
        constructor
        · rintro rfl
          exact hs.ids_inj hid ha
        · intro hda
          rw [hda, ha] at hid
          exact (Option.some.inj hid).symm
      rw [he, messageOf_sent, Option.filter_some]
      simp only [decide_eq_true_eq, hsame]
    have hcomm : ((deliveries b s₁.trace).filterMap (messageOf ∘ (·.2))).filter (·.1 = idA) =
        ((deliveries b s₁.trace).filter (·.1 = a)).filterMap (messageOf ∘ (·.2)) := by
      rw [List.filter_filterMap, List.filterMap_filter]
      refine List.filterMap_congr fun d hd => ?_
      simpa using hfrom d hd
    rw [List.filterMap_map, hcomm, hs.deliveries_from ha hb hnone, List.filterMap_map]
    simp only [Function.comp_def, messageOf_sent]
    exact congrFun List.filterMap_eq_map' _
  · intro msg hmsg
    rw [List.filterMap_map] at hmsg
    obtain ⟨d, hd, hm⟩ := List.mem_filterMap.mp hmsg
    obtain ⟨idA, payload, ha, he, -⟩ := hmem d hd
    rw [Function.comp_apply, he, messageOf_sent] at hm
    cases hm
    exact ⟨d.1, ha⟩

/-- The SteamIDs 1 and 2 are registered on the descriptors 5 and 6. -/
def pairIDs (f : Fd) : Option CSteamID := if f = 5 then some 1 else if f = 6 then some 2 else none

/-- 1 sends to 2 a byte and the empty payload, and 2 sends itself a byte. -/
def pairCalls (f : Fd) : List Call :=
  if f = 5 then [(2, [7]), (2, [])] else if f = 6 then [(2, [9])] else []

def pairStream (f : Fd) (id : CSteamID) : List UInt8 :=
  ((pairCalls f).map (bufferOf id)).flatMap createSendFrame

/-- Both register. -/
def pairStart : List (Relay.Kernel × Relay.Event) :=
  [({ accept := some 5 }, { fd := 3, input := true }),
    ({ accept := some 6 }, { fd := 3, input := true }),
    ({ read := fun _ => .bytes (frame [1, 0, 0, 0, 0, 0, 0, 0]) }, { fd := 5, input := true }),
    ({ read := fun _ => .bytes (frame [2, 0, 0, 0, 0, 0, 0, 0]) }, { fd := 6, input := true })]

/-- The stream of 1 is cut inside a length; the socket of 2 takes three bytes at a time. -/
def pairRun : List (Relay.Kernel × Relay.Event) :=
  [({ read := fun _ => .bytes ((pairStream 5 1).take 23), write := fun _ _ => .wrote 2 },
      { fd := 5, input := true }),
    ({ read := fun _ => .bytes (pairStream 6 2), write := fun _ _ => .wrote 2 },
      { fd := 6, input := true }),
    ({ read := fun _ => .bytes ((pairStream 5 1).drop 23), write := fun _ _ => .wrote 2 },
      { fd := 5, input := true })]

def pairBegin : Server := (Runs.run Relay.step pairStart (Relay.start 3 4)).get (by decide +kernel)

def pairEnd : Server := (Runs.run Relay.step pairRun pairBegin).get (by decide +kernel)

theorem pair_session : Session pairIDs pairCalls pairBegin pairEnd where
  start := ⟨3, 4, pairStart, by simp [pairBegin]⟩
  run := ⟨pairRun, by simp [pairEnd]⟩
  registered f := by
    have hi : Relay.Inv pairBegin := Relay.reachable_inv ⟨3, 4, pairStart, by simp [pairBegin]⟩
    by_cases h5 : f = 5
    · subst h5
      decide +kernel
    · by_cases h6 : f = 6
      · subst h6
        decide +kernel
      · have hkeys : pairBegin.gConnections.keys = [6, 5] := by decide +kernel
        have hno : f ∉ pairBegin.gConnections := by
          rw [AList.mem_keys, hkeys]
          simp [h5, h6]
        rw [hi.marked, Server.markAt_of_none (AList.lookup_eq_none.mpr hno), pairIDs, if_neg h5,
          if_neg h6]
        rfl
  stays := by
    have htrace : pairEnd.trace =
        pairEnd.trace.take (pairEnd.trace.length - pairBegin.trace.length) ++ pairBegin.trace := by
      decide +kernel
    have hquiet : (pairEnd.trace.take (pairEnd.trace.length - pairBegin.trace.length)).all
        (fun | .register _ _ | .close _ => false | _ => true) = true := by decide +kernel
    refine ⟨_, htrace, fun f mark hmem => ?_, fun f _ hmem => ?_⟩
    · have := List.all_eq_true.mp hquiet _ hmem
      cases this
    · have := List.all_eq_true.mp hquiet _ hmem
      cases this
  sent f id hf := by
    unfold pairIDs at hf
    split at hf
    · cases hf
      subst f
      decide +kernel
    · split at hf
      · cases hf
        subst f
        decide +kernel
      · cases hf
  fits f := by
    unfold pairCalls
    split
    · decide
    · split
      · decide
      · simp

/-- What the relay wrote comes in two chunks. -/
def pairKernel : Client.Kernel where
  socket _ := 7
  select _ := { readable := fun _ => true }
  recv _ _ := ([(written 6 pairEnd.trace).take 15, (written 6 pairEnd.trace).drop 15], .again)

def pairCallsOfGame : List (Client.Kernel × Input) :=
  [(pairKernel, .hookVTable true), (pairKernel, .pump)]

def pairRounds : List (Client.Kernel × UInt32) :=
  [({ socket := fun _ => 7 }, 1024), ({ socket := fun _ => 7 }, 1024),
    ({ socket := fun _ => 7 }, 1024)]

/-- The process of 2, connected to the relay. -/
def pairProcess : Process := (Hook.attach pairKernel ['r'] 27015).get (by decide +kernel)

theorem pair_delivered :
    ∃ out, Gave (returned (pairCallsOfGame ++ rounds pairRounds) pairProcess) out ∧
      out.filter (·.1 = 1) = [(1, [7]), (1, [])] ∧ out.filter (·.1 = 2) = [(2, [9])] := by
  let w₁ := (Runs.run Hook.step pairCallsOfGame pairProcess).get (by decide +kernel)
  have hcalls : Runs.run Hook.step pairCallsOfGame pairProcess = some w₁ := by simp [w₁]
  let w' := (Runs.run Hook.step (rounds pairRounds) w₁).get (by decide +kernel)
  have hrounds : Runs.run Hook.step (rounds pairRounds) w₁ = some w' := by simp [w']
  have htrace : w'.mgr.trace = w'.mgr.trace.take
      (w'.mgr.trace.length - pairProcess.mgr.trace.length) ++ pairProcess.mgr.trace := by
    decide +kernel
  have hr : Reception 1 7 (written 6 pairEnd.trace) pairCallsOfGame pairRounds pairProcess w₁ w' :=
    { start := ⟨pairKernel, ['r'], 27015, pairProcess, by simp [pairProcess], .refl _⟩
      linked := by decide +kernel
      new := by decide +kernel
      calls := hcalls
      rounds := hrounds
      stays := ⟨_, htrace, by decide +kernel⟩
      received := by decide +kernel
      enough := by decide +kernel }
  have hsent : ∀ c, pairEnd.gConnections.lookup 6 = some c → c.sendBuf = [] := by
    have hc : (pairEnd.gConnections.lookup 6).map (·.sendBuf) = some [] := by decide +kernel
    intro c hlook
    rw [hlook] at hc
    exact Option.some.inj hc
  obtain ⟨out, hgave, hfrom, -⟩ := delivered_end_to_end pair_session
    (show pairIDs 6 = some 2 by decide +kernel) (by decide +kernel) hsent hr
  exact ⟨out, hgave, hfrom 5 1 (by decide +kernel), hfrom 6 2 (by decide +kernel)⟩

end IsaacP2P.EndToEnd
