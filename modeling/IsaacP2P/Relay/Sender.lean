import IsaacP2P.Relay.Handlers

/-!
# The sender and its own packet

The packet loop of `handle_client_data` holds a reference to the connection
whose packets it processes. `process_packet` erases that connection in one
case, `SelfForwardFails`: a registered connection sends a packet with a payload
to its own mark and a write on its own socket fails. The loop then uses an
erased connection, and nothing else in the server does.
-/

namespace IsaacP2P.Relay

open LengthPrefixed (frame next)

variable {k : Kernel} {s : Server} {ref : Fd} {c : Connection} {data : List UInt8}

/-! ## One call -/

/-- The packet goes back to its sender, and a write on the sender's socket fails. -/
def SelfForwardFails (k : Kernel) (ref : Fd) (data : List UInt8) (s : Server) : Prop :=
  ∃ c, s.gConnections.lookup ref = some c ∧ c.registered = true ∧
    data.take markSize = c.mark ∧ data.drop markSize ≠ [] ∧
    flushFails k ref (s.trace.length + 1) (c.sendBuf ++ frame (data.drop markSize)) = true

/-- When `process_packet` returns true the sender is still there. -/
def SenderSurvives (k : Kernel) (ref : Fd) (data : List UInt8) (s : Server) : Prop :=
  ∀ s', processPacket k ref data s = some (true, s') → ref ∈ s'.gConnections

theorem Outcome.lookup_ref_eq_none_iff {more : Bool} {s' : Server}
    (h : Outcome k ref c data s more s') (hi : Inv s) (hc : s.gConnections.lookup ref = some c) :
    s'.gConnections.lookup ref = none ↔ SelfForwardFails k ref data s := by
  constructor
  · intro hn
    rcases h.lookup_ref hc with ⟨c', hc', -, -⟩ | ⟨-, -, hr, hd, hp, hf⟩
    · rw [hn] at hc'
      cases hc'
    · rw [frameFor, if_pos ⟨hd, hp⟩] at hf
      exact ⟨c, hc, hr, hd, hp, hf⟩
  · rintro ⟨c', hc', hr, hd, hp, hf⟩
    rw [hc] at hc'
    cases hc'
    have hat : s.markAt ref = some c.mark := Server.markAt_eq_some.mpr ⟨c, hc, hr, rfl⟩
    cases h with
    | wrongLength h _ => simp [hr] at h
    | taken h _ _ => simp [hr] at h
    | registers h _ _ => simp [hr] at h
    | dropped _ h =>
      -- the packet is owed to the sender
      have := h ref c.mark hat
      rw [frameFor, if_pos ⟨hd, hp⟩] at this
      simpa using congrArg List.length this
    | @forwards t tc m w rest failed new _ ht hm hd' _ hfail hF =>
      have hm' : s.markAt t = some m := by rw [Server.markAt_of_lookup ht, hm]
      obtain rfl : ref = t := hi.markAt_inj (hat.trans (by rw [← hd, hd'])) hm'
      rw [hc] at ht
      cases ht
      rw [frameFor, if_pos ⟨hd', hp⟩, hf] at hfail
      subst hfail
      have hl := flushedState_lookup (s := s.log (.packet ref data)) hc rest true new ref
      rwa [if_pos rfl, if_pos rfl] at hl

theorem SelfForwardFails.returns_true (hi : Inv s) (h : SelfForwardFails k ref data s) :
    ∃ s', processPacket k ref data s = some (true, s') ∧ ref ∉ s'.gConnections := by
  obtain ⟨c, hc, hr, -⟩ := id h
  obtain ⟨more, s', hp, ho⟩ := processPacket_outcome k data hi hc
  have hn := (ho.lookup_ref_eq_none_iff hi hc).mpr h
  cases more with
  | false => cases ho <;> simp_all
  | true => exact ⟨s', hp, AList.lookup_eq_none.mp hn⟩

theorem senderSurvives_iff (hi : Inv s) :
    SenderSurvives k ref data s ↔ ¬ SelfForwardFails k ref data s := by
  constructor
  · intro h hself
    obtain ⟨s', hp, hn⟩ := hself.returns_true hi
    exact hn (h s' hp)
  · intro h s' hp
    cases hc : s.gConnections.lookup ref with
    | none => simp [processPacket, hc] at hp
    | some c =>
      obtain ⟨more, s'', hp', ho⟩ := processPacket_outcome k data hi hc
      rw [hp] at hp'
      cases hp'
      by_contra hmem
      exact h ((ho.lookup_ref_eq_none_iff hi hc).mp (AList.lookup_eq_none.mpr hmem))

/-! ## The calls of one event -/

/-- The packet loop, entered in `s`, calls `process_packet` on `p` in the state `m`. -/
inductive LoopCalls (k : Kernel) (ref : Fd) : Server → List UInt8 → Server → Prop where
  | here {s : Server} {c : Connection} {p rest : List UInt8} :
      s.gConnections.lookup ref = some c → next maxPayload c.recvBuf = .item p rest →
      LoopCalls k ref s p s
  | later {s m m' : Server} {c c' : Connection} {p q rest : List UInt8} :
      s.gConnections.lookup ref = some c → next maxPayload c.recvBuf = .item p rest →
      processPacket k ref p s = some (true, m) → m.gConnections.lookup ref = some c' →
      LoopCalls k ref (m.setConn ref { c' with recvBuf := rest }) q m' → LoopCalls k ref s q m'

/-- `handle_client_data`, called in `s`, calls `process_packet` on `p` in the state `m`. -/
def DataCalls (k : Kernel) (fd : Fd) (s : Server) (p : List UInt8) (m : Server) : Prop :=
  ∃ c b, s.gConnections.lookup fd = some c ∧ k.read fd = .bytes b ∧
    let b := b.take (bufferSize - c.recvBuf.length)
    b ≠ [] ∧ LoopCalls k fd ((s.log (.read fd b)).setConn fd { c with recvBuf := c.recvBuf ++ b }) p m

/-- Dispatching `ev` in `s` calls `process_packet` on `p` in the state `m`. -/
def Calls (k : Kernel) (ev : Event) (s : Server) (p : List UInt8) (m : Server) : Prop :=
  ev.fd ≠ s.listenFd ∧ ev.errHup = false ∧ ev.input = true ∧ DataCalls k ev.fd s p m

theorem LoopCalls.inv {p : List UInt8} {m : Server} (h : LoopCalls k ref s p m) (hi : Inv s) :
    Inv m := by
  induction h with
  | here => exact hi
  | later hc _ hp hc' _ ih =>
    obtain ⟨more, m, hp', ho⟩ := processPacket_outcome k _ hi hc
    rw [hp] at hp'
    cases hp'
    exact ih ((ho.inv hi hc).setRecv hc' _)

theorem Calls.inv {ev : Event} {p : List UInt8} {m : Server} (h : Calls k ev s p m) (hi : Inv s) :
    Inv m := by
  obtain ⟨-, -, -, c, b, hc, -, -, hl⟩ := h
  exact hl.inv ((hi.read _ _).setRecv hc _)

/-! ## The reference is good unless a self-addressed forward failed -/

theorem loopCalls_iff (hc : s.gConnections.lookup ref = some c) {q : List UInt8} {m' : Server} :
    LoopCalls k ref s q m' ↔ ∃ p rest, next maxPayload c.recvBuf = .item p rest ∧
      ((q = p ∧ m' = s) ∨ ∃ m c', processPacket k ref p s = some (true, m) ∧
        m.gConnections.lookup ref = some c' ∧
        LoopCalls k ref (m.setConn ref { c' with recvBuf := rest }) q m') := by
  constructor
  · intro h
    cases h with
    | here hc' hnext =>
      rw [hc] at hc'
      cases hc'
      exact ⟨_, _, hnext, .inl ⟨rfl, rfl⟩⟩
    | later hc' hnext hp hm hl =>
      rw [hc] at hc'
      cases hc'
      exact ⟨_, _, hnext, .inr ⟨_, _, hp, hm, hl⟩⟩
  · rintro ⟨p, rest, hnext, ⟨rfl, rfl⟩ | ⟨m, c', hp, hm, hl⟩⟩
    · exact .here hc hnext
    · exact .later hc hnext hp hm hl

theorem packetLoop_eq_none_iff (hi : Inv s) (hc : s.gConnections.lookup ref = some c) {n : Nat}
    (hn : c.recvBuf.length ≤ n) :
    packetLoop k ref n s = none ↔ ∃ p m, LoopCalls k ref s p m ∧ SelfForwardFails k ref p m := by
  induction n generalizing s c with
  | zero =>
    have he : c.recvBuf = [] := List.length_eq_zero_iff.mp (by omega)
    simp only [loopCalls_iff hc, he, LengthPrefixed.next_nil]
    simp [packetLoop]
  | succ n ih =>
    rw [packetLoop_succ hc]
    simp only [loopCalls_iff hc]
    cases hnext : next maxPayload c.recvBuf with
    | wait => simp
    | bad => simp
    | item p rest =>
      obtain ⟨more, m, hp, ho⟩ := processPacket_outcome k p hi hc
      have hself := ho.lookup_ref_eq_none_iff hi hc
      have hrest := length_item_lt hnext
      cases more with
      | false =>
        -- a rejected sender is still there, and no packet follows
        have hno : ¬ SelfForwardFails k ref p s := by
          intro h
          obtain ⟨s', hp', -⟩ := h.returns_true hi
          rw [hp] at hp'
          cases hp'
        simp [hp, hno]
      | true =>
        cases hc' : m.gConnections.lookup ref with
        | none =>
          simp only [hp, Option.bind_some, Bool.not_true, Bool.false_eq_true, if_false, hc',
            Option.bind_none, true_iff]
          exact ⟨p, s, ⟨p, rest, rfl, .inl ⟨rfl, rfl⟩⟩, hself.mp hc'⟩
        | some c' =>
          have hno : ¬ SelfForwardFails k ref p s := by
            intro h
            rw [hself.mpr h] at hc'
            cases hc'
          have hrec := ih ((ho.inv hi hc).setRecv hc' rest) (Server.setConn_lookup_self hc')
            (by simpa using Nat.lt_succ_iff.mp (Nat.lt_of_lt_of_le hrest hn))
          simp only [hp, Option.bind_some, Bool.not_true, Bool.false_eq_true, if_false, hc',
            consume_item hnext (ho.kept_ref hc hc').1, hrec]
          constructor
          · rintro ⟨q, m', hl, hf⟩
            exact ⟨q, m', ⟨p, rest, rfl, .inr ⟨m, c', hp, hc', hl⟩⟩, hf⟩
          · rintro ⟨q, m', ⟨p', rest', hi', ⟨rfl, rfl⟩ | ⟨m'', c'', hp', hm, hl⟩⟩, hf⟩
            · cases hi'
              exact absurd hf hno
            · cases hi'
              rw [hp] at hp'
              cases hp'
              rw [hc'] at hm
              cases hm
              exact ⟨q, m', hl, hf⟩

theorem handleClientData_eq_none_iff (hi : Inv s) (fd : Fd) :
    handleClientData k fd s = none ↔
      ∃ p m, DataCalls k fd s p m ∧ SelfForwardFails k fd p m := by
  unfold handleClientData DataCalls
  cases hc : s.gConnections.lookup fd with
  | none => simp
  | some c =>
    cases hr : k.read fd with
    | again => simp only [ite_eq_iff]; simp
    | fail => simp only [ite_eq_iff]; simp
    | bytes b =>
      by_cases he : b.take (bufferSize - c.recvBuf.length) = []
      · -- nothing was read, so no packet is looked for
        simp only [he, List.isEmpty_nil, if_true, ite_eq_iff]
        refine ⟨fun h => by simp at h, ?_⟩
        rintro ⟨p, m, ⟨c', b', hc', hb', hne, -⟩, -⟩
        cases hc'
        cases hb'
        exact absurd he hne
      · have hfull : bufferSize - c.recvBuf.length ≠ 0 := by
          intro h
          rw [h] at he
          exact he rfl
        have hi' := hi.read fd (b.take (bufferSize - c.recvBuf.length))
        have hloop := packetLoop_eq_none_iff (k := k)
          (hi'.setRecv hc (c.recvBuf ++ b.take (bufferSize - c.recvBuf.length)))
          (Server.setConn_lookup_self hc) (Nat.le_refl _)
        simp only [hfull, if_false, List.isEmpty_iff, he, hloop]
        constructor
        · rintro ⟨p, m, hl, hf⟩
          exact ⟨p, m, ⟨c, b, rfl, rfl, he, hl⟩, hf⟩
        · rintro ⟨p, m, ⟨c', b', hc', hb', -, hl⟩, hf⟩
          cases hc'
          cases hb'
          exact ⟨p, m, hl, hf⟩

/-- **A dispatch uses an erased connection exactly if it forwards a packet to its
own sender and that fails.** -/
theorem dispatch_eq_none_iff (hi : Inv s) (ev : Event) :
    dispatch k ev s = none ↔ ∃ p m, Calls k ev s p m ∧ SelfForwardFails k ev.fd p m := by
  have hwrite : ∀ m, Inv m →
      (if ev.output then handleClientWrite k ev.fd m else some m) ≠ none := by
    intro m hm
    obtain ⟨m', hw, -⟩ := handleClientWrite_writes k ev.fd hm
    split <;> simp [hw]
  unfold dispatch Calls
  by_cases hl : ev.fd = s.listenFd
  · simp [hl]
  · cases he : ev.errHup with
    | true => simpa [hl] using hwrite _ (hi.closeConnection ev.fd)
    | false =>
      cases hin : ev.input with
      | false => simpa [hl] using hwrite _ hi
      | true =>
        simp only [hl, if_false, if_true, Bool.false_eq_true, ne_eq, not_false_eq_true, true_and,
          ← handleClientData_eq_none_iff hi]
        cases hd : handleClientData k ev.fd s with
        | none => simp
        | some m => simpa using hwrite m ((handleClientData_receives hi hd).inv hi)

/-! ## Runs -/

/-- Every call of `process_packet` the step makes leaves the sender in place. -/
def SendersSurvive (i : Kernel × Event) (s : Server) : Prop :=
  ∀ p m, Calls i.1 i.2 s p m → SenderSurvives i.1 i.2.fd p m

/-- In no call of the step a forward to the sender's own mark fails. -/
def NoSelfForwardFails (i : Kernel × Event) (s : Server) : Prop :=
  ∀ p m, Calls i.1 i.2 s p m → ¬ SelfForwardFails i.1 i.2.fd p m

theorem sendersSurvive_iff (i : Kernel × Event) (s : Server) (hi : Inv s) :
    SendersSurvive i s ↔ NoSelfForwardFails i s :=
  forall_congr' fun _ => forall_congr' fun _ => forall_congr' fun h =>
    senderSurvives_iff (h.inv hi)

theorem step_isSome_iff (i : Kernel × Event) (s : Server) (hi : Inv s) :
    (step i s).isSome ↔ NoSelfForwardFails i s := by
  rw [← Option.ne_none_iff_isSome, Ne, step, dispatch_eq_none_iff hi]
  simp [NoSelfForwardFails]

/-- **The sender outlives its own packet in every run in which no forward to the
sender's own mark fails, and in no other**; these are also the runs that never
use an erased connection. -/
theorem senders_survive_iff (listenFd epfd : Fd) (is : List (Kernel × Event)) :
    (Runs.Meets step SendersSurvive is (start listenFd epfd) ↔
      Runs.Meets step NoSelfForwardFails is (start listenFd epfd)) ∧
    ((Runs.run step is (start listenFd epfd)).isSome ↔
      Runs.Meets step NoSelfForwardFails is (start listenFd epfd)) := by
  have hi := init_inv listenFd epfd
  refine ⟨Runs.meets_congr step_inv sendersSurvive_iff hi, ?_⟩
  rw [← Runs.meets_isSome_iff]
  exact Runs.meets_congr step_inv step_isSome_iff hi

/-- A client connects on descriptor 5 and registers. -/
def oneClient : List (Kernel × Event) :=
  [({ accept := some 5 }, { fd := 3, input := true }),
    ({ read := fun _ => .bytes (frame [1, 0, 0, 0, 0, 0, 0, 0]) }, { fd := 5, input := true })]

/-- The client sends one byte to itself, and its socket is broken. -/
def selfForward : Kernel where
  read _ := .bytes (frame [1, 0, 0, 0, 0, 0, 0, 0, 7])
  write _ _ := .fail

/-- `process_packet` returns true, and the sender is gone. -/
theorem selfForward_erases_sender :
    ∃ s p m, Reachable s ∧ Calls selfForward { fd := 5, input := true } s p m ∧
      ∃ s', processPacket selfForward 5 p m = some (true, s') ∧ 5 ∉ s'.gConnections := by
  let s := (Runs.run step oneClient (start 3 4)).get (by decide)
  let c : Connection := { fd := 5, mark := [1, 0, 0, 0, 0, 0, 0, 0], registered := true }
  let p : List UInt8 := [1, 0, 0, 0, 0, 0, 0, 0, 7]
  let m := (s.log (.read 5 (frame p))).setConn 5 { c with recvBuf := frame p }
  let r := (processPacket selfForward 5 p m).get (by decide)
  have hnext : next maxPayload (frame p) = .item p [] := by
    simpa using LengthPrefixed.next_frame (p := p) (by decide) (by decide) (by decide) []
  have hloop : LoopCalls selfForward 5 m p m :=
    .here (c := { c with recvBuf := frame p }) (by decide) hnext
  have hcalls : Calls selfForward { fd := 5, input := true } s p m :=
    ⟨by decide, rfl, rfl, c, frame p, by decide, rfl, by decide, hloop⟩
  have hr : processPacket selfForward 5 p m = some r := by simp [r]
  have htrue : r.1 = true := by decide
  exact ⟨s, p, m, ⟨3, 4, oneClient, by simp [s]⟩, hcalls, r.2, by rw [hr, ← htrue], by decide⟩

end IsaacP2P.Relay
