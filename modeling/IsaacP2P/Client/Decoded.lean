import IsaacP2P.Client.Arrivals
import IsaacP2P.Client.Parsing

/-!
# What a connection makes of its stream

While the bytes received on a socket hold no illegal header, exactly the packets
in them have arrived, and the receive buffer of the entry is the rest (`Parsed`).
Every step of the library keeps this (`Step.parsed`).
-/

namespace IsaacP2P.Client

open LengthPrefixed (stream)
open Streaming (Decodes)

variable {m m' : Manager} {c c' : Connection} {new tr : List Ev}

def Parsed (c : Connection) (tr : List Ev) : Prop :=
  ∀ ps rest, Decodes (stream maxPacket) (received c.socket tr) ps rest →
    arrived c.socket tr = ps ∧ c.recvBuffer = rest

theorem Parsed.of_eq (h : Parsed c tr) (hs : c'.socket = c.socket)
    (hb : c'.recvBuffer = c.recvBuffer)
    (hr : received c.socket (new ++ tr) = received c.socket tr)
    (ha : arrived c.socket (new ++ tr) = arrived c.socket tr) : Parsed c' (new ++ tr) := by
  intro ps rest hd
  rw [hs, hr] at hd
  rw [hs, ha, hb]
  exact h ps rest hd

theorem Parsed.skip (h : Parsed c tr) (hnew : ∀ e ∈ new, e.on c.socket = false) :
    Parsed c (new ++ tr) := by
  induction new with
  | nil => exact h
  | cons e new ih =>
    have hold := ih fun e he => hnew e (List.mem_cons_of_mem _ he)
    obtain ⟨hr, ha, -, -⟩ := streams_skip (hnew e (List.mem_cons_self ..)) (new ++ tr)
    show Parsed c ([e] ++ (new ++ tr))
    exact hold.of_eq rfl rfl hr ha

theorem Parsed.obtained {e : Ev} (he : e.Obtains c.socket) (hc : c.Empty) :
    Parsed c (e :: tr) := by
  have hz : received c.socket (e :: tr) = [] ∧ arrived c.socket (e :: tr) = [] := by
    rcases he with rfl | rfl <;> simp [received, arrived]
  intro ps rest hd
  rw [hz.1] at hd
  obtain ⟨rfl, rfl⟩ := hd.unique decodes_nil
  exact ⟨hz.2, hc.2.1⟩

theorem Parsed.received {b : List UInt8} {ps : List Packet} {rest : ReceiveBuffer}
    (h : Parsed c tr) (hd : Drained (c.recvBuffer ++ b) ps rest) :
    Parsed { c with receiveQueue := c.receiveQueue ++ ps, recvBuffer := rest }
      (.pushed c.socket ps :: .recv c.socket b :: tr) := by
  intro qs left hall
  have hr : Client.received c.socket (.pushed c.socket ps :: .recv c.socket b :: tr) =
      Client.received c.socket tr ++ b := by simp [Client.received]
  have ha : arrived c.socket (.pushed c.socket ps :: .recv c.socket b :: tr) =
      arrived c.socket tr ++ ps := by simp [arrived]
  rw [hr] at hall
  obtain ⟨q, buf, hold⟩ := decodes_of_prefix hall (List.prefix_append _ _)
  obtain ⟨harr, rfl⟩ := h q buf hold
  have htakes := hold.1.append b
  cases hd with
  | waits hd =>
    obtain ⟨rfl, rfl⟩ := hall.unique ⟨htakes.trans hd.1, hd.2⟩
    exact ⟨by rw [ha, harr], rfl⟩
  | cleared ht hbad => exact absurd hbad ((htakes.trans ht).not_bad hall)

theorem Parsed.evolves (h : Parsed c tr) (he : Evolves c new c') : Parsed c' (new ++ tr) := by
  cases he with
  | same | popped _ | options _ _ _ => exact h.of_eq rfl rfl rfl rfl
  | framed _ _ | wrote _ _ => exact h.of_eq rfl rfl rfl rfl
  | parsed hd => exact h.received hd
  | @failed e old he hold =>
    have hpacket : Client.received c.socket (old ++ tr) = Client.received c.socket tr ∧
        arrived c.socket (old ++ tr) = arrived c.socket tr := by
      rcases hold with rfl | ⟨d, rfl⟩ <;> exact ⟨rfl, rfl⟩
    obtain ⟨hr, ha, -, -⟩ := streams_breaks he (old ++ tr)
    exact h.of_eq rfl rfl (hr.trans hpacket.1) (ha.trans hpacket.2)

/-- The connections with a socket. -/
def Manager.Parsed (m : Manager) : Prop :=
  ∀ p c, m.mConnections.lookup p = some c → c.socket ≠ invalidSocketHandle →
    Client.Parsed c m.trace

theorem Step.parsed {g : Guard} (h : Step g m m') (hm : Apart m) (hp : m.Parsed) : m'.Parsed :=
  (h.origins hm).entries Parsed.evolves Parsed.skip Parsed.obtained hp

end IsaacP2P.Client
