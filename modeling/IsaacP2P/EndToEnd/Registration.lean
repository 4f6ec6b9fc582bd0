import IsaacP2P.Hook.Registration
import IsaacP2P.Relay.History

/-!
# Registration comes first

The relay closes a connection whose first packet is no registration
(`first_packet_closes`), so a client has to register before it sends anything
else. `registration_first` says in which runs the hook does.
-/

namespace IsaacP2P.EndToEnd

open Hook

/-! ## The relay's side -/

section Relay

open Relay (Server Connection Fd Event Calls LoopCalls markSize)

variable {k : Relay.Kernel} {s s' m : Server} {ref : Fd} {c : Connection} {p : List UInt8}

/-- The packet loop closes a connection that is not registered on a packet of
the wrong length. -/
theorem loopCalls_closes (hl : LoopCalls k ref s p m) (hi : Relay.Inv s)
    (hc : m.gConnections.lookup ref = some c) (hr : c.registered = false)
    (hp : p.length ≠ markSize) {n : Nat}
    (hn : ∀ c₀, s.gConnections.lookup ref = some c₀ → c₀.recvBuf.length ≤ n)
    (h : Relay.packetLoop k ref n s = some s') : s'.gConnections.lookup ref = none := by
  induction hl generalizing n with
  | @here s c₀ p rest hc₀ hnext =>
    rw [hc] at hc₀
    cases hc₀
    have hlen := Relay.length_item_lt hnext
    obtain ⟨n, rfl⟩ : ∃ n', n = n' + 1 := ⟨n - 1, by have := hn c hc; omega⟩
    obtain ⟨more, m, hproc, ho⟩ := Relay.processPacket_outcome k p hi hc
    rw [Relay.packetLoop_succ hc, hnext] at h
    simp only [hproc, Option.bind_some] at h
    cases ho with
    | wrongLength _ _ =>
      cases h
      rw [Relay.closeConnection_lookup, if_pos rfl]
    | taken _ h8 _ => exact absurd h8 hp
    | registers _ h8 _ => exact absurd h8 hp
    | dropped hreg _ => rw [hr] at hreg; cases hreg
    | forwards hreg _ _ _ _ _ _ => rw [hr] at hreg; cases hreg
  | @later s m₁ m' c₀ c₁ p₀ q rest hc₀ hnext hproc hc₁ _ ih =>
    have hlen := Relay.length_item_lt hnext
    obtain ⟨n, rfl⟩ : ∃ n', n = n' + 1 := ⟨n - 1, by have := hn c₀ hc₀; omega⟩
    obtain ⟨more, m₂, hproc', ho⟩ := Relay.processPacket_outcome k p₀ hi hc₀
    rw [hproc] at hproc'
    cases hproc'
    rw [Relay.packetLoop_succ hc₀, hnext] at h
    simp only [hproc, Option.bind_some, Bool.not_true, Bool.false_eq_true, if_false, hc₁] at h
    rw [Relay.consume_item hnext (ho.kept_ref hc₀ hc₁).1] at h
    refine ih ((ho.inv hi hc₀).setRecv hc₁ rest) hc hp (fun c₂ hc₂ => ?_) h
    rw [Server.setConn_lookup_self hc₁] at hc₂
    cases hc₂
    have := hn c₀ hc₀
    exact show rest.length ≤ n by omega

/-- **A first packet that is no registration ends the connection.** -/
theorem first_packet_closes {ev : Event} (h : Relay.Reachable s) (hcall : Calls k ev s p m)
    (hfirst : Relay.handled ev.fd m.trace = []) (hp : p.length ≠ markSize)
    (hs : Relay.dispatch k ev s = some s') : s'.gConnections.lookup ev.fd = none := by
  have hi := Relay.reachable_inv h
  obtain ⟨c, hc, hr⟩ := hcall.unregistered h hfirst
  obtain ⟨hfd, herr, hin, c₀, b, hc₀, hb, hne, hl⟩ := hcall
  have havail : Relay.bufferSize - c₀.recvBuf.length ≠ 0 := by
    intro h0
    rw [h0] at hne
    exact hne rfl
  have hloop : ∀ {m'}, Relay.handleClientData k ev.fd s = some m' →
      m'.gConnections.lookup ev.fd = none := by
    intro m' hm'
    unfold Relay.handleClientData at hm'
    simp only [hc₀, havail, if_false, hb, List.isEmpty_iff, hne] at hm'
    refine loopCalls_closes hl ((hi.read _ _).setRecv hc₀ _) hc hr hp (fun c₁ hc₁ => ?_) hm'
    rw [Server.setConn_lookup_self (s := s.log _) hc₀] at hc₁
    cases hc₁
    exact Nat.le_refl _
  simp only [Relay.dispatch, hfd, if_false, herr, Bool.false_eq_true, hin, if_true] at hs
  obtain ⟨m', hm', hs⟩ := Option.bind_eq_some_iff.mp hs
  have hgone := hloop hm'
  split at hs
  · -- the write event finds no entry
    rw [Relay.handleClientWrite, hgone] at hs
    cases hs
    rw [Relay.closeConnection_lookup, if_pos rfl]
  · cases hs
    exact hgone

end Relay

/-! ## Both sides -/

/-- **Registration comes first**: on every link of a run the first frame is the
registration packet exactly if every packet of the game that finds the link up
finds it served by one of the two registration paths. And the relay closes a
connection whose first packet is none. -/
theorem registration_first {k : Client.Kernel} {ip : Client.Text} {port : UInt16}
    {w : Hook.Process} {is : List (Client.Kernel × Hook.Input)}
    (hstart : Hook.attach k ip port = some w) (hrun : (Runs.run Hook.step is w).isSome) :
    (Runs.Meets Hook.step (fun i w => sendCovered i w = true) is w ↔
      FirstFrameOk w ∧ Runs.Meets Hook.step KeepsFirst is w) ∧
    ∀ k s ev p m s', Relay.Reachable s → Relay.Calls k ev s p m →
      Relay.handled ev.fd m.trace = [] → p.length ≠ Relay.markSize →
      Relay.dispatch k ev s = some s' → s'.gConnections.lookup ev.fd = none := by
  have hi := attach_inv hstart
  refine ⟨?_, fun k s ev p m s' hs hcall hfirst hp hd => first_packet_closes hs hcall hfirst hp hd⟩
  rw [first_iff_covered hi hrun]
  exact ⟨fun h => ⟨hi.first, h⟩, fun h => h.2⟩

/-- The socket is 7, and the kernel takes what it is offered. -/
def openKernel : Client.Kernel := { socket := fun _ => 7, send := fun _ _ => .sent 100 }

/-- The process behind `DllMain`, connected to the relay. -/
def attached : Hook.Process := (Hook.attach openKernel ['r'] 27015).get (by decide +kernel)

theorem attach_attached : Hook.attach openKernel ['r'] 27015 = some attached := by
  simp [attached]

/-- The injection thread runs to its end before the game sends. -/
def registeredRun : List (Client.Kernel × Hook.Input) :=
  [(openKernel, .hookVTable true), (openKernel, .identify 1), (openKernel, .register),
    (openKernel, .send 2 (some [9]) 1)]

theorem registeredRun_first :
    Runs.Meets Hook.step KeepsFirst registeredRun attached ∧
    (Runs.run Hook.step registeredRun attached).map (Client.framed 7 ·.mgr.trace) =
      some [[1, 0, 0, 0, 0, 0, 0, 0], [2, 0, 0, 0, 0, 0, 0, 0, 1, 0, 0, 0, 0, 0, 0, 0, 9]] :=
  ⟨((registration_first attach_attached (by decide +kernel)).1.mp (by decide +kernel)).2,
    by decide +kernel⟩

/-- The game sends as soon as the table is hooked: its packet is the first frame. -/
theorem early_send_first : ∃ w, Runs.run Hook.step
      [(openKernel, .hookVTable true), (openKernel, .send 2 (some [9]) 1)] attached = some w ∧
    Client.framed 7 w.mgr.trace = [[2, 0, 0, 0, 0, 0, 0, 0, 0, 0, 0, 0, 0, 0, 0, 0, 9]] ∧
    ¬ FirstFrameOk w := by
  refine ⟨(Runs.run Hook.step [(openKernel, .hookVTable true),
    (openKernel, .send 2 (some [9]) 1)] attached).get (by decide +kernel), by simp,
    by decide +kernel, fun h => ?_⟩
  have := h 7 [2, 0, 0, 0, 0, 0, 0, 0, 0, 0, 0, 0, 0, 0, 0, 0, 9] [] (by decide +kernel)
  exact absurd (congrArg List.length this) (by decide +kernel)

end IsaacP2P.EndToEnd
