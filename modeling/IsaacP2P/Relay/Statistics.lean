import IsaacP2P.Relay.Counters
import IsaacP2P.Relay.Main

/-!
# The statistics of the server

The main loop with its counters and its `PERF` reports. At the end of a run the
counters are the tally of what is on the trace (`counters_tally`), and what the
reports say adds up to the tally at the last of them (`reports_add_up`).
-/

namespace IsaacP2P.Relay

variable {s s' : Server}

def Stats.add (g h : Stats) : Stats where
  bytesIn := g.bytesIn + h.bytesIn
  bytesOut := g.bytesOut + h.bytesOut
  packetsIn := g.packetsIn + h.packetsIn
  packetsOut := g.packetsOut + h.packetsOut
  dropNoTarget := g.dropNoTarget + h.dropNoTarget
  dropSmallPacket := g.dropSmallPacket + h.dropSmallPacket
  dropSendEagain := g.dropSendEagain + h.dropSendEagain
  partialWrites := g.partialWrites + h.partialWrites
  writeErrors := g.writeErrors + h.writeErrors
  eventLoops := g.eventLoops + h.eventLoops
  events := g.events + h.events

namespace Counted

/-! ## The main loop and its reports -/

/-- A `PERF` line and, in `drops`, the `PERF_DROP` line if there is one; the rates
are left out. -/
structure Report where
  elapsedMs : Int
  bytesIn : UInt64
  bytesOut : UInt64
  packetsIn : UInt64
  packetsOut : UInt64
  dropSendEagain : UInt64
  partialWrites : UInt64
  writeErrors : UInt64
  eventLoops : UInt64
  events : UInt64
  drops : Option (UInt64 × UInt64)
  deriving DecidableEq

/-- The variables `last_*` of `main`, and what was reported, newest first. -/
structure Perf where
  last : Stats := {}
  lastPerfTs : Int
  reports : List Report := []
  deriving DecidableEq

/-- The report after `epoll_wait`. The clock is `steady_clock`, in nanoseconds. -/
def Perf.report (nowTs : Int) (g : Stats) (p : Perf) : Perf :=
  let elapsedMs := (nowTs - p.lastPerfTs).tdiv 1000000
  if elapsedMs ≥ 1000 then
    let dDropNoTarget := g.dropNoTarget - p.last.dropNoTarget
    let dDropSmallPacket := g.dropSmallPacket - p.last.dropSmallPacket
    { last := g
      lastPerfTs := nowTs
      reports :=
        { elapsedMs
          bytesIn := g.bytesIn - p.last.bytesIn
          bytesOut := g.bytesOut - p.last.bytesOut
          packetsIn := g.packetsIn - p.last.packetsIn
          packetsOut := g.packetsOut - p.last.packetsOut
          dropSendEagain := g.dropSendEagain - p.last.dropSendEagain
          partialWrites := g.partialWrites - p.last.partialWrites
          writeErrors := g.writeErrors - p.last.writeErrors
          eventLoops := g.eventLoops - p.last.eventLoops
          events := g.events - p.last.events
          drops := if dDropNoTarget > 0 ∨ dDropSmallPacket > 0 then
            some (dDropNoTarget, dDropSmallPacket) else none } :: p.reports }
  else p

/-- A round, and the time after its `epoll_wait`. -/
structure TimedRound extends Round where
  nowTs : Int := 0

/-- The main loop with its counters and reports. -/
def mainLoop : List TimedRound → Bool → Server → Stats → Perf →
    Option (Bool × Server × Stats × Perf)
  | [], _, s, g, p => some (false, s, g, p)
  | r :: rs, gRunning, s, g, p =>
    let gRunning := r.signals.foldl (fun b signum => signalHandler signum b) gRunning
    if !gRunning then some (true, s, g, p)
    else
      let g := { g with eventLoops := g.eventLoops + 1 }
      match r.wait with
      | .interrupted => mainLoop rs gRunning s g p
      | .failed => some (true, s, g, p)
      | .events batch =>
        let batch := batch.take maxEvents
        let g := { g with events := g.events + UInt64.ofNat batch.length }
        let p := p.report r.nowTs g
        (Runs.run step batch (s, g)).bind fun (s, g) => mainLoop rs gRunning s g p

open Stats (along)

/-- The calls of `epoll_wait`. -/
def waits : List Round → Bool → Nat
  | [], _ => 0
  | r :: rs, gRunning =>
    let gRunning := r.signals.foldl (fun g signum => signalHandler signum g) gRunning
    if !gRunning then 0
    else match r.wait with
      | .failed => 1
      | _ => waits rs gRunning + 1

/-- Calls of `epoll_wait`, and the events they returned, are counted. -/
def waited (loops events : Nat) (g : Stats) : Stats :=
  { g with
    eventLoops := g.eventLoops + UInt64.ofNat loops
    events := g.events + UInt64.ofNat events }

theorem waited_along (loops events : Nat) (g : Stats) (tr : List Ev) :
    (waited loops events g).along tr = waited loops events (g.along tr) := by
  induction tr with
  | nil => rfl
  | cons e tr ih =>
    rw [along, along, ih]
    cases e with
    | packet a data =>
      simp only [Stats.tick]
      cases fate a data tr <;> rfl
    | _ => rfl

theorem waited_waited (loops events loops' events' : Nat) (g : Stats) :
    waited loops' events' (waited loops events g) =
      waited (loops' + loops) (events + events') g := by
  simp only [waited, UInt64.ofNat_add, UInt64.add_assoc, UInt64.add_comm (.ofNat loops)]

theorem waits_interrupted (g : Stats) (tr : List Ev) : { g.along tr with
    eventLoops := (g.along tr).eventLoops + 1 } = (waited 1 0 g).along tr := by
  rw [waited_along]
  simp [waited]

theorem waits_events (n : Nat) (g : Stats) (tr : List Ev) : { g.along tr with
    eventLoops := (g.along tr).eventLoops + 1
    events := (g.along tr).events + UInt64.ofNat n } = (waited 1 n g).along tr := by
  rw [waited_along]
  rfl

/-- The main loop does what it does without counters, and they are what the trace
says, with the calls of `epoll_wait` and the events it returned. -/
theorem mainLoop_counted (rounds : List TimedRound) (gRunning : Bool) (hi : Inv s) (p : Perf) :
    (mainLoop rounds gRunning s (g.along s.trace) p).map (fun r => (r.1, r.2.1, r.2.2.1)) =
      (Relay.mainLoop (rounds.map TimedRound.toRound) gRunning s).map fun r =>
        (r.1, r.2.counted (waited (waits (rounds.map TimedRound.toRound) gRunning)
          (dispatched (rounds.map TimedRound.toRound) gRunning).length g)) := by
  induction rounds generalizing gRunning s g p with
  | nil =>
    simp [mainLoop, Relay.mainLoop, waits, dispatched, Server.counted, waited]
  | cons r rs ih =>
    simp only [mainLoop, Relay.mainLoop, waits, dispatched, List.map_cons]
    generalize r.signals.foldl (fun g signum => signalHandler signum g) gRunning = b
    cases b with
    | false => simp [Server.counted, waited]
    | true =>
      simp only [Bool.not_true, Bool.false_eq_true, if_false]
      cases r.wait with
      | interrupted =>
        simp only [waits_interrupted, ih true hi, waited_waited, Nat.zero_add]
      | failed =>
        simp only [waits_interrupted]
        rfl
      | events batch =>
        simp only [waits_events]
        have hrun := run_counted (g := waited 1 (batch.take maxEvents).length g)
          (batch.take maxEvents) hi
        simp only [Server.counted] at hrun
        rw [hrun]
        cases hm : Runs.run Relay.step (batch.take maxEvents) s with
        | none => rfl
        | some m =>
          have hi' := Runs.run_invariant step_inv hi hm
          simp only [Option.map_some, Option.bind_some, List.length_append, ← waited_waited]
          exact ih true hi' _

end Counted

/-! ## The counters of a run -/

/-- The bytes `read()` returned, on all descriptors. -/
def bytesRead : List Ev → Nat
  | [] => 0
  | .read _ bytes :: tr => bytesRead tr + bytes.length
  | _ :: tr => bytesRead tr

/-- The bytes `write()` accepted, on all descriptors. -/
def bytesWritten : List Ev → Nat
  | [] => 0
  | .write _ bytes :: tr => bytesWritten tr + bytes.length
  | _ :: tr => bytesWritten tr

def failedWrites : List Ev → Nat
  | [] => 0
  | .writeFail _ :: tr => failedWrites tr + 1
  | _ :: tr => failedWrites tr

/-- The counters after a trace, with the calls of `epoll_wait` and the events it
returned. -/
def tally (tr : List Ev) (loops events : Nat) : Stats where
  bytesIn := .ofNat (bytesRead tr)
  bytesOut := .ofNat (bytesWritten tr)
  packetsIn := .ofNat (fates tr).length
  packetsOut := .ofNat ((fates tr).count .forwarded)
  dropNoTarget := .ofNat ((fates tr).count .noTarget)
  dropSmallPacket := .ofNat ((fates tr).count .tooSmall)
  dropSendEagain := 0
  partialWrites := 0
  writeErrors := .ofNat (failedWrites tr)
  eventLoops := .ofNat loops
  events := .ofNat events

theorem along_eq_tally (tr : List Ev) (loops events : Nat) :
    (Counted.waited loops events {}).along tr = tally tr loops events := by
  induction tr with
  | nil => simp [Stats.along, Counted.waited, tally, bytesRead, bytesWritten, fates, failedWrites]
  | cons e tr ih =>
    rw [Stats.along, ih]
    cases e with
    | packet a data =>
      simp only [Stats.tick, tally, fates, bytesRead, bytesWritten, failedWrites]
      cases fate a data tr <;> simp [Stats.settle]
    | _ => simp [Stats.tick, tally, fates, bytesRead, bytesWritten, failedWrites]

/-- **The counters are the tally of the run**: the main loop with its counters and
reports does what the server does without them, and at its end they hold the bytes
and the packets of the trace, each packet under what became of it, modulo 2^64;
the counters for dropped and partial sends are zero. -/
theorem counters_tally (rounds : List Counted.TimedRound) (listenFd epfd : Fd) (now : Int) :
    (Counted.mainLoop rounds true (start listenFd epfd) {} { lastPerfTs := now }).map
        (fun r => (r.1, r.2.1, r.2.2.1)) =
      (mainLoop (rounds.map Counted.TimedRound.toRound) true (start listenFd epfd)).map fun r =>
        (r.1, r.2, tally r.2.trace (Counted.waits (rounds.map Counted.TimedRound.toRound) true)
          (dispatched (rounds.map Counted.TimedRound.toRound) true).length) := by
  have h := Counted.mainLoop_counted (g := {}) rounds true (init_inv listenFd epfd)
    { lastPerfTs := now }
  simp only [Server.counted, along_eq_tally] at h
  exact h

/-! ## The reports -/

namespace Counted

/-- What the lines of a report say; a counter in neither line is said to be as it was. -/
def Report.stats (r : Report) : Stats where
  bytesIn := r.bytesIn
  bytesOut := r.bytesOut
  packetsIn := r.packetsIn
  packetsOut := r.packetsOut
  dropNoTarget := (r.drops.map Prod.fst).getD 0
  dropSmallPacket := (r.drops.map Prod.snd).getD 0
  dropSendEagain := r.dropSendEagain
  partialWrites := r.partialWrites
  writeErrors := r.writeErrors
  eventLoops := r.eventLoops
  events := r.events

/-- All reports together, in the arithmetic of the counters. -/
def Perf.reported (p : Perf) : Stats := p.reports.foldr (fun r g => g.add r.stats) {}

/-- The reports add up to what was last looked at, and each covers a second or more
of the time since `start`. -/
structure Perf.Sound (start : Int) (p : Perf) : Prop where
  reported : p.reported = p.last
  elapsed : ∀ r ∈ p.reports, 1000 ≤ r.elapsedMs
  time : (p.reports.map Report.elapsedMs).sum * 1000000 ≤ p.lastPerfTs - start

theorem drops_getD (a b : UInt64) :
    ((if a > 0 ∨ b > 0 then some (a, b) else none).map Prod.fst).getD 0 = a ∧
      ((if a > 0 ∨ b > 0 then some (a, b) else none).map Prod.snd).getD 0 = b := by
  split
  · exact ⟨rfl, rfl⟩
  · rename_i h
    obtain ⟨ha, hb⟩ := not_or.mp h
    simp only [gt_iff_lt, UInt64.lt_iff_toNat_lt, UInt64.toNat_zero] at ha hb
    simp only [Option.map_none, Option.getD_none, ← UInt64.toNat_inj, UInt64.toNat_zero]
    omega

theorem Perf.report_cases (p : Perf) (nowTs : Int) (g : Stats) :
    p.report nowTs g = p ∨
      ((p.report nowTs g).last = g ∧ (p.report nowTs g).lastPerfTs = nowTs) := by
  unfold Perf.report
  by_cases hms : (nowTs - p.lastPerfTs).tdiv 1000000 ≥ 1000
  · exact .inr (by simp only [if_pos hms, and_self])
  · exact .inl (by simp only [if_neg hms])

theorem millis_le {d : Int} (h : d.tdiv 1000000 ≥ 1000) : d.tdiv 1000000 * 1000000 ≤ d := by
  have hnonneg : 0 ≤ d := by
    by_contra hneg
    have := Int.tdiv_nonneg (a := -d) (b := 1000000) (by omega) (by omega)
    rw [Int.neg_tdiv] at this
    omega
  rw [Int.tdiv_eq_ediv_of_nonneg hnonneg]
  omega

theorem Perf.Sound.report {start : Int} {p : Perf} (h : p.Sound start) (nowTs : Int) (g : Stats) :
    (p.report nowTs g).Sound start := by
  unfold Perf.report
  by_cases hms : (nowTs - p.lastPerfTs).tdiv 1000000 ≥ 1000
  · simp only [if_pos hms]
    refine ⟨?_, ?_, ?_⟩
    · have hrep := h.reported
      unfold Perf.reported at hrep ⊢
      rw [List.foldr_cons, hrep]
      simp only [Stats.add, Report.stats, drops_getD, add_sub_cancel]
    · exact List.forall_mem_cons.mpr ⟨hms, h.elapsed⟩
    · have htime := h.time
      have hspan := millis_le hms
      simp only [List.map_cons, List.sum_cons]
      omega
  · simp only [if_neg hms]
    exact h

/-- What every report keeps, the main loop keeps. -/
theorem mainLoop_perf {P : Perf → Prop} (hreport : ∀ nowTs g p, P p → P (p.report nowTs g))
    {rounds : List TimedRound} {gRunning left : Bool} {g g' : Stats} {p p' : Perf} (hp : P p)
    (h : mainLoop rounds gRunning s g p = some (left, s', g', p')) : P p' := by
  induction rounds generalizing gRunning s g p with
  | nil =>
    cases h
    exact hp
  | cons r rs ih =>
    simp only [mainLoop] at h
    split at h
    · cases h
      exact hp
    · split at h
      · exact ih hp h
      · cases h
        exact hp
      · obtain ⟨⟨m, gm⟩, -, h⟩ := Option.bind_eq_some_iff.mp h
        exact ih (hreport _ _ _ hp) h

/-- What was last reported is what the trace said at some round, if anything was. -/
theorem mainLoop_last {rounds : List TimedRound} {gRunning left : Bool} {g g' : Stats}
    {p p' : Perf} (hi : Inv s)
    (h : mainLoop rounds gRunning s (g.along s.trace) p = some (left, s', g', p')) :
    p' = p ∨ ∃ rs r rs' batch m, rounds = rs ++ r :: rs' ∧ r.wait = .events batch ∧
      Relay.mainLoop (rs.map TimedRound.toRound) gRunning s = some (false, m) ∧
      p'.lastPerfTs = r.nowTs ∧
      p'.last = (waited (waits (rs.map TimedRound.toRound) gRunning + 1)
        ((dispatched (rs.map TimedRound.toRound) gRunning).length +
          (batch.take maxEvents).length) g).along m.trace := by
  induction rounds generalizing gRunning s g p with
  | nil =>
    cases h
    exact .inl rfl
  | cons r rs ih =>
    simp only [mainLoop] at h
    cases hb : r.signals.foldl (fun b signum => signalHandler signum b) gRunning with
    | false =>
      simp only [hb, Bool.not_false, if_true] at h
      cases h
      exact .inl rfl
    | true =>
      simp only [hb, Bool.not_true, Bool.false_eq_true, if_false] at h
      cases hw : r.wait with
      | interrupted =>
        simp only [hw, waits_interrupted] at h
        rcases ih hi h with rfl | ⟨rs₁, r₁, rs₂, batch, m, rfl, hw₁, hm, hts, hlast⟩
        · exact .inl rfl
        · refine .inr ⟨r :: rs₁, r₁, rs₂, batch, m, rfl, hw₁, ?_, hts, ?_⟩
          · simpa [Relay.mainLoop, hb, hw] using hm
          · rw [hlast, waited_waited]
            simp [waits, dispatched, hb, hw]
      | failed =>
        simp only [hw] at h
        cases h
        exact .inl rfl
      | events batch =>
        simp only [hw, waits_events] at h
        obtain ⟨⟨m, gm⟩, hm, h⟩ := Option.bind_eq_some_iff.mp h
        have hrun := run_counted (g := waited 1 (batch.take maxEvents).length g)
          (batch.take maxEvents) hi
        rw [show Runs.run step _ (Server.counted _ s) = _ from hm] at hrun
        obtain ⟨m', hm', heq⟩ := Option.map_eq_some_iff.mp hrun.symm
        cases heq
        rcases ih (Runs.run_invariant step_inv hi hm') h with
          rfl | ⟨rs₁, r₁, rs₂, batch₁, m₁, rfl, hw₁, hm₁, hts, hlast⟩
        · -- the report of this round is the last, if it was made
          rcases p.report_cases r.nowTs ((waited 1 (batch.take maxEvents).length g).along s.trace) with
            hsame | ⟨hlast, hts⟩
          · exact .inl hsame
          · refine .inr ⟨[], r, rs, batch, s, rfl, hw, rfl, hts, ?_⟩
            simpa [waits, dispatched] using hlast
        · refine .inr ⟨r :: rs₁, r₁, rs₂, batch₁, m₁, rfl, hw₁, ?_, hts, ?_⟩
          · simpa [Relay.mainLoop, hb, hw, hm'] using hm₁
          · rw [hlast, waited_waited]
            simp [waits, dispatched, hb, hw, Nat.add_assoc]

end Counted

/-- **The reports add up**: what all `PERF` and `PERF_DROP` lines say, a counter in no
line being said not to have moved, is together the tally of the run when the last of
them was made; each covers a second at least, and all no more than the time till then. -/
theorem reports_add_up {rounds : List Counted.TimedRound} {listenFd epfd : Fd} {now : Int}
    {left : Bool} {g : Stats} {p : Counted.Perf}
    (h : Counted.mainLoop rounds true (start listenFd epfd) {} { lastPerfTs := now } =
      some (left, s, g, p)) :
    (∀ r ∈ p.reports, 1000 ≤ r.elapsedMs) ∧
    (p.reports.map Counted.Report.elapsedMs).sum * 1000000 ≤ p.lastPerfTs - now ∧
    (p.reports ≠ [] → ∃ rs r rs' batch m, rounds = rs ++ r :: rs' ∧ r.wait = .events batch ∧
      mainLoop (rs.map Counted.TimedRound.toRound) true (start listenFd epfd) = some (false, m) ∧
      p.lastPerfTs = r.nowTs ∧
      p.reported = tally m.trace (Counted.waits (rs.map Counted.TimedRound.toRound) true + 1)
        ((dispatched (rs.map Counted.TimedRound.toRound) true).length +
          (batch.take maxEvents).length)) := by
  have hsound := Counted.mainLoop_perf (P := Counted.Perf.Sound now)
    (fun nowTs g p hp => hp.report nowTs g)
    ⟨rfl, by simp, by simp⟩ h
  refine ⟨hsound.elapsed, hsound.time, fun hne => ?_⟩
  rcases Counted.mainLoop_last (g := {}) (init_inv listenFd epfd) h with
    rfl | ⟨rs, r, rs', batch, m, hrounds, hw, hm, hts, hlast⟩
  · exact absurd rfl hne
  · exact ⟨rs, r, rs', batch, m, hrounds, hw, hm, hts,
      hsound.reported.trans (hlast.trans (along_eq_tally ..))⟩

/-- A client is accepted, and a second later nothing has happened. -/
def quietSecond : List Counted.TimedRound :=
  [{ wait := .events [({ accept := some 5 }, { fd := 3 })], nowTs := 400000000 },
    { nowTs := 1400000000 }]

theorem quietSecond_adds_up : ∃ left s g p,
    Counted.mainLoop quietSecond true (start 3 4) {} { lastPerfTs := 0 } =
      some (left, s, g, p) ∧
    (∀ r ∈ p.reports, 1000 ≤ r.elapsedMs) ∧
    (p.reports.map Counted.Report.elapsedMs).sum * 1000000 ≤ p.lastPerfTs - 0 ∧
    p.reported = { eventLoops := 2, events := 1 } := by
  obtain ⟨⟨left, s, g, p⟩, h⟩ := Option.isSome_iff_exists.mp (show (Counted.mainLoop quietSecond
    true (start 3 4) {} { lastPerfTs := 0 }).isSome by decide +kernel)
  have hp : some p.reported = some { eventLoops := 2, events := 1 } := by
    have hmap := congrArg (Option.map fun r => r.2.2.2.reported) h
    exact hmap.symm.trans (by decide +kernel)
  have hsound := reports_add_up h
  exact ⟨left, s, g, p, h, hsound.1, hsound.2.1, Option.some.inj hp⟩
end IsaacP2P.Relay
