import IsaacP2P.Relay.Sender

/-!
# What the relay guarantees

In every reachable state the two maps agree (`registry_consistent`), and every
connection was sent, or has waiting, exactly the frames it is owed
(`forwarding_contract`). The runs the two range over are those of
`senders_survive_iff`: no forward to the sender's own mark fails.
-/

namespace IsaacP2P.Relay

open LengthPrefixed (frame)

variable {s : Server}

/-! ## The registry -/

/-- **Registry consistency**: `g_mark_to_fd` is the inverse of the registered
entries of `g_connections`, the entries know their descriptors, there are at
most `maxConnections`, and a packet whose mark is found finds its target. -/
theorem registry_consistent (h : Reachable s) :
    (∀ key f, s.gMarkToFd.lookup key = some f ↔ ∃ c, s.gConnections.lookup f = some c ∧
      c.registered = true ∧ markToKey c.mark = key) ∧
    (∀ f g c d, s.gConnections.lookup f = some c → s.gConnections.lookup g = some d →
      c.registered = true → d.registered = true → c.mark = d.mark → f = g) ∧
    (∀ f c, s.gConnections.lookup f = some c → c.fd = f) ∧
    s.gConnections.entries.length ≤ maxConnections ∧
    ∀ k ev p m, Calls k ev s p m → ∀ f, m.gMarkToFd.lookup (markToKey p) = some f →
      (m.gConnections.lookup f).isSome := by
  have hi := reachable_inv h
  refine ⟨fun key f => ?_, fun f g c d hc hd hrc hrd hm => ?_, fun f c => hi.fd_eq, hi.size,
    fun k ev p m hcall f hf => ?_⟩
  · rw [hi.owner]
    constructor
    · rintro ⟨m, hm, hk⟩
      obtain ⟨c, hc, hr, rfl⟩ := Server.markAt_eq_some.mp hm
      exact ⟨c, hc, hr, hk⟩
    · rintro ⟨c, hc, hr, hk⟩
      exact ⟨c.mark, Server.markAt_eq_some.mpr ⟨c, hc, hr, rfl⟩, hk⟩
  · exact hi.markAt_inj (Server.markAt_eq_some.mpr ⟨c, hc, hrc, hm⟩)
      (Server.markAt_eq_some.mpr ⟨d, hd, hrd, rfl⟩)
  · obtain ⟨m', hm', -⟩ := (hcall.inv hi).owner.mp hf
    obtain ⟨c, hc, -⟩ := Server.markAt_eq_some.mp hm'
    rw [hc]
    rfl

/-- Two clients connect and register; the first sends three bytes to the second,
whose socket takes four bytes and then blocks. -/
def twoClients : List (Kernel × Event) :=
  [({ accept := some 5 }, { fd := 3, input := true }),
    ({ accept := some 6 }, { fd := 3, input := true }),
    ({ read := fun _ => .bytes (frame [1, 0, 0, 0, 0, 0, 0, 0]) }, { fd := 5, input := true }),
    ({ read := fun _ => .bytes (frame [2, 0, 0, 0, 0, 0, 0, 0]) }, { fd := 6, input := true }),
    ({ read := fun _ => .bytes (frame [2, 0, 0, 0, 0, 0, 0, 0, 7, 8, 9])
       write := fun n _ => if n = 12 then .wrote 3 else .again }, { fd := 5, input := true })]

def twoClientsEnd : Server := (Runs.run step twoClients (start 3 4)).get (by decide +kernel)

theorem twoClientsEnd_reachable : Reachable twoClientsEnd :=
  ⟨3, 4, twoClients, by simp [twoClientsEnd]⟩

theorem twoClientsEnd_consistent :
    (∀ key f, twoClientsEnd.gMarkToFd.lookup key = some f ↔
      ∃ c, twoClientsEnd.gConnections.lookup f = some c ∧ c.registered = true ∧
        markToKey c.mark = key) ∧
    twoClientsEnd.gMarkToFd.lookup 2 = some 6 :=
  ⟨(registry_consistent twoClientsEnd_reachable).1, by decide +kernel⟩

/-! ## The forwarding contract -/

theorem forwarded_of_unregistered {t : Fd} {tr : List Ev} (ho : isOpen t tr = true)
    (hm : markOf t tr = none) : forwarded t tr = [] := by
  induction tr with
  | nil => rfl
  | cons e tr ih =>
    cases e with
    | accept g =>
      by_cases hg : g = t <;> simp_all [isOpen, markOf, forwarded]
    | close g =>
      by_cases hg : g = t <;> simp_all [isOpen, markOf, forwarded]
    | register g mark =>
      by_cases hg : g = t <;> simp_all [isOpen, markOf, forwarded]
    | packet a data =>
      simp only [isOpen, markOf, forwarded] at *
      rw [hm]
      simpa using ih ho hm
    | _ => exact ih ho hm

/-- **The forwarding contract**: what was written to an open connection, followed
by its send buffer, is the frames it is owed, one after another; an unregistered
one was sent nothing; and no descriptor was ever sent anything else. -/
theorem forwarding_contract (h : Reachable s) (t : Fd) :
    (isOpen t s.trace = true → ∃ c, s.gConnections.lookup t = some c ∧
      written t s.trace ++ c.sendBuf = forwarded t s.trace ∧
      (c.registered = false → written t s.trace = [] ∧ c.sendBuf = [])) ∧
    written t s.trace <+: forwarded t s.trace := by
  have hi := reachable_inv h
  refine ⟨fun ho => ?_, hi.sent t⟩
  rw [hi.opened] at ho
  obtain ⟨c, hc⟩ := Option.isSome_iff_exists.mp ho
  refine ⟨c, hc, hi.out hc, fun hr => ?_⟩
  have hm : markOf t s.trace = none := by
    rw [hi.marked, Server.markAt_of_lookup hc, Connection.regMark, hr]
    rfl
  have hnil := forwarded_of_unregistered ((hi.opened t).trans ho) hm
  rw [← hi.out hc] at hnil
  exact List.append_eq_nil_iff.mp hnil

theorem twoClientsEnd_contract :
    (∃ c, twoClientsEnd.gConnections.lookup 6 = some c ∧
      written 6 twoClientsEnd.trace ++ c.sendBuf = forwarded 6 twoClientsEnd.trace) ∧
    written 6 twoClientsEnd.trace = [3, 0, 0, 0] ∧
    forwarded 6 twoClientsEnd.trace = frame [7, 8, 9] := by
  refine ⟨?_, by decide +kernel, by decide +kernel⟩
  obtain ⟨c, hc, ho, -⟩ := (forwarding_contract twoClientsEnd_reachable 6).1 (by decide +kernel)
  exact ⟨c, hc, ho⟩

end IsaacP2P.Relay
