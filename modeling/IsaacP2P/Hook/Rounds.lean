import IsaacP2P.Client.Decoded
import IsaacP2P.Hook.Staging

/-!
# Polls and reads in turn

The steps of the process are steps of the library but for the shutdown, which
leaves no connection, so what the steps of the library keep holds of the library
in every state (`Reachable.library`). So the packets in the queue have arrived,
and what has arrived was received.

A game that polls and reads in turn gets a packet in every round while one is on
the way, if none is too short for a `CSteamID` (`rounds_drain`).
-/

namespace IsaacP2P.Hook

open Client
open Fifo (Passes)

variable {k : Kernel} {w w' : Process} {p : PeerID} {h : SocketHandle}

/-! ## Invariants of the library -/

section

variable {P : Manager → Prop} (hempty : ∀ m, m.mConnections = ∅ → P m)
  (hstep : ∀ m m', Apart m → P m → Client.Step {} m m' → P m')
include hstep

theorem Idle.library (hi : Idle w w') (hs : Sound w) (hp : P w.mgr) : P w'.mgr :=
  (hi.steps.steps.invariant (P := fun m => Apart m ∧ P m)
    (fun m m' hm hs => ⟨hs.apart hm.1, hstep m m' hm.1 hm.2 hs⟩) ⟨hs.apart, hp⟩).2

include hempty

theorem Turn.library (ht : Turn w w') (hs : Sound w) (hp : P w.mgr) : P w'.mgr := by
  cases ht with
  | idle hi => exact hi.library hstep hs hp
  | @polled v hi hno =>
    have hv := hi.library hstep hs hp
    have hsv := hi.sound hs
    rcases stagePacket_cases hsv.base hsv.legal with ⟨he, -⟩ | ⟨q, c, packet, rest, hc, hq, he⟩
    · rw [he]
      exact hv
    · have hpop := hstep v.mgr _ hsv.apart hv (.minor (.popped hc hq))
      rw [he]
      cases messageOf packet <;> exact hpop
  | closed hi _ hmgr _ =>
    apply hempty
    rw [hmgr]

theorem step_library {i : Kernel × Input} (hs : Sound w) (hp : P w.mgr)
    (hi : step i w = some w') : P w'.mgr := by
  obtain ⟨k, input⟩ := i
  cases input with
  | read pubDest cubDest =>
    rw [step_read hi, readP2PPacket_mgr]
    exact hp
  | _ => exact (step_turn hs.base (by simp) hi).library hempty hstep hs hp

/-- **What the steps of the library keep** holds in every state of the process. -/
theorem Reachable.library (hw : Reachable w) : P w.mgr := by
  obtain ⟨k, ip, port, w₀, hstart, hr⟩ := hw
  have hfirst := (attach_steps hstart).1.invariant (P := fun m => Apart m ∧ P m)
    (fun m m' hm hs => ⟨hs.apart hm.1, hstep m m' hm.1 hm.2 hs⟩)
    ⟨readyProcess_apart, hempty _ rfl⟩
  have hend := hr.invariant (P := fun w => Sound w ∧ P w.mgr) ⟨attach_sound hstart, hfirst.2⟩
    fun i w w' hw hi => ⟨(step_hands (p := 0) (h := 0) hw.1 hi).1,
      step_library hempty hstep hw.1 hw.2 hi⟩
  exact hend.2

end

theorem own_of_empty {m : Manager} (hm : m.mConnections = ∅) : m.Own := by
  intro p c hc
  rw [hm] at hc
  cases hc

theorem step_own {i : Kernel × Input} (hs : Sound w) (ho : w.mgr.Own) (hi : step i w = some w') :
    w'.mgr.Own :=
  step_library (fun _ => own_of_empty) (fun _ _ hm ho hs => hs.own hm ho) hs ho hi

theorem reachable_own (hw : Reachable w) : w.mgr.Own :=
  hw.library (fun _ => own_of_empty) fun _ _ hm ho hs => hs.own hm ho

theorem reachable_parsed (hw : Reachable w) : w.mgr.Parsed := by
  refine hw.library (fun m hm p c hc => ?_) fun _ _ hm hp hs => hs.parsed hm hp
  rw [hm] at hc
  cases hc

/-! ## A round -/

/-- A poll announces a packet if one is on the way, unless it is too short. -/
theorem poll_stages (hs : Sound w) (ho : w.mgr.Own) {out : Option UInt32}
    (ha : hookIsP2PPacketAvailable k w = some (out, w'))
    (hheld : w'.mgr.held (.entry p) = some h)
    (hlong : ∀ packet ∈ arrived h w'.mgr.trace, 8 ≤ packet.length) (hway : onWay p w' ≠ []) :
    w'.user.gHasTcpData = true := by
  obtain ⟨v, hr, hv, -⟩ := isAvailable_cases ha
  have hi := runCallbacks_idle hs.base hr
  have hsv := hi.sound hs
  have hov : v.mgr.Own := hi.library (fun _ _ hm ho hs => hs.own hm ho) hs ho
  rcases hv with ⟨hhas, rfl⟩ | ⟨hno, hw'⟩
  · exact hhas
  · rcases stagePacket_cases hsv.base hsv.legal with ⟨he, hnone⟩ | ⟨q, c, packet, rest, hc, hq, he⟩
    · rw [he] at hw'
      subst hw'
      refine absurd ?_ hway
      rw [onWay, hnone, Globals.staged, if_neg (by simp [hno])]
      rfl
    · -- what is taken is of the connection of `p`, and long enough
      have hmgr : w'.mgr = v.mgr.setConn q { c with receiveQueue := rest } := by
        rw [hw', he]
        cases messageOf packet <;> rfl
      have hsame : w'.mgr.held = v.mgr.held := by
        rw [hmgr]
        exact held_same hc rfl rfl rfl
      rw [hsame] at hheld
      obtain ⟨hvalid, d, hd, hsock⟩ := lookup_of_held hsv.apart.2 hheld
      obtain rfl := hsv.base.one p q d c hd hc
      obtain rfl : c = d := Option.some.inj (hc.symm.trans hd)
      have harr : packet ∈ arrived h v.mgr.trace := by
        have hown := (hov p c hc (by rw [hsock]; exact hvalid)).unread
        rw [hsock, hq] at hown
        exact hown.subset (List.mem_cons_self ..)
      have hlen : 8 ≤ packet.length := hlong packet (by rw [hmgr]; exact harr)
      rw [hw', he, messageOf, if_pos hlen]
      rfl

/-- The game polls and reads in turn, with buffers of the given sizes. -/
def rounds (ks : List (Kernel × UInt32)) : List (Kernel × Input) :=
  ks.flatMap fun k => [(k.1, .isAvailable), (k.1, .read true k.2)]

/-- **Polling and reading in turn** gets what is on the way, one packet in a round,
if nothing more arrives. -/
theorem rounds_drain {ks : List (Kernel × UInt32)} {new : List Client.Ev} (hs : Sound w)
    (ho : w.mgr.Own) (hr : Runs.run step (rounds ks) w = some w')
    (hheld : w.mgr.held (.entry p) = some h) (ht : w'.mgr.trace = new ++ w.mgr.trace)
    (hup : Client.Ev.close h ∉ new) (harr : arrived h w'.mgr.trace = arrived h w.mgr.trace)
    (hlong : ∀ packet ∈ arrived h w.mgr.trace, 8 ≤ packet.length)
    (hlen : (onWay p w).length ≤ ks.length) : onWay p w' = [] := by
  induction ks generalizing w new with
  | nil =>
    cases hr
    exact List.length_eq_zero_iff.mp (Nat.le_zero.mp hlen)
  | cons k ks ih =>
    obtain ⟨v, hpoll, hr⟩ := Runs.run_cons_iff.mp hr
    obtain ⟨u, hread, hr⟩ := Runs.run_cons_iff.mp hr
    obtain ⟨hsv, out₁, hg₁, new₁, ht₁, hh₁⟩ := step_hands (p := p) (h := h) hs hpoll
    obtain ⟨hsu, out₂, hg₂, new₂, ht₂, hh₂⟩ := step_hands (p := p) (h := h) hsv hread
    obtain ⟨out₃, -, hh₃⟩ := run_hands (p := p) (h := h) hsu hr
    have hfront : ∃ new₃, w'.mgr.trace = new₃ ++ u.mgr.trace ∧ new = new₃ ++ (new₂ ++ new₁) := by
      obtain ⟨new₃, ht₃, -⟩ := hh₃
      have hall : new ++ w.mgr.trace = new₃ ++ (new₂ ++ new₁) ++ w.mgr.trace := by
        rw [← ht, ht₃, ht₂, ht₁, List.append_assoc, List.append_assoc]
      exact ⟨new₃, ht₃, List.append_cancel_right hall⟩
    obtain ⟨new₃, ht₃, rfl⟩ := hfront
    simp only [List.mem_append, not_or] at hup
    obtain ⟨hheldv, ps₁, ha₁, hq₁⟩ := (hh₁ hheld).resolve_left hup.2.2
    obtain ⟨hheldu, ps₂, ha₂, hq₂⟩ := (hh₂ hheldv).resolve_left hup.2.1
    obtain ⟨-, ps₃, ha₃, -⟩ := hh₃.up hheldu ht₃ hup.1
    have hnone : ps₁ = [] ∧ ps₂ = [] ∧ ps₃ = [] := by
      rw [ha₃, ha₂, ha₁, List.append_assoc, List.append_assoc] at harr
      simpa using List.append_right_eq_self.mp harr
    obtain ⟨rfl, rfl, rfl⟩ := hnone
    rw [List.append_nil] at ha₁ ha₂ ha₃
    obtain rfl : out₁ = [] := by
      cases hg₁
      rfl
    have hsame : onWay p v = onWay p w := by simpa [Passes] using hq₁.symm
    have hshort : (onWay p u).length ≤ ks.length := by
      have hbal : onWay p v = out₂ ++ onWay p u := by simpa [Passes] using hq₂
      by_cases hway : onWay p v = []
      · rw [hway] at hbal
        rw [(List.append_eq_nil_iff.mp hbal.symm).2]
        exact Nat.zero_le _
      · have hhas : v.user.gHasTcpData = true := by
          simp only [step] at hpoll
          split at hpoll
          · obtain ⟨⟨out, v'⟩, ha, rfl⟩ := Option.map_eq_some_iff.mp hpoll
            exact poll_stages hs ho ha hheldv (by rw [ha₁]; exact hlong) hway
          · cases hpoll
        have hone : out₂.length = 1 := by
          have hg := hg₂.length_eq
          simp only [result, hookReadP2PPacket, hhas, if_true] at hg
          exact hg.symm
        have := congrArg List.length hbal
        rw [List.length_append, hone, hsame] at this
        rw [List.length_cons] at hlen
        omega
    exact ih hsu (step_own hsv (step_own hs ho hpoll) hread) hr hheldu ht₃ hup.1 ha₃
      (by rw [ha₂, ha₁]; exact hlong) hshort

end IsaacP2P.Hook
