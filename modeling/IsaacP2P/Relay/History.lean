import IsaacP2P.Relay.Intake

/-!
# The order of events

Two things hold of the trace of every reachable state (`Ordered`): `accept()`
returns closed descriptor numbers only, and a connection is registered only when
it has had a packet processed.

While a registered connection is not closed it stays what it is (`stays_open`),
and the packets it had processed are, in their order, what it gave the other
connections to send (`deliveries_window`).
-/

namespace IsaacP2P.Relay

open LengthPrefixed (frame)

variable {k : Kernel} {s s' : Server} {f : Fd}

/-- The order of the trace. -/
def Ordered : List Ev → Prop
  | [] => True
  | .accept f :: tr => isOpen f tr = false ∧ Ordered tr
  | .register f _ :: tr => handled f tr ≠ [] ∧ Ordered tr
  | _ :: tr => Ordered tr

theorem ordered_output {new : List Ev} (h : OutputOn f new) (tr : List Ev) :
    Ordered (new ++ tr) = Ordered tr :=
  h.ignored (fun e tr he => by cases e <;> first | exact he.elim | rfl) tr

theorem closeConnection_ordered (f : Fd) : Ordered (closeConnection f s).trace = Ordered s.trace := by
  rw [closeConnection_trace]
  rfl

theorem flushedState_ordered {c : Connection} {buf w rest : List UInt8} {failed : Bool}
    {new : List Ev} (hF : Flushed f buf w rest failed new) :
    Ordered (flushedState f c rest failed new s).trace = Ordered s.trace := by
  rw [flushedState_trace]
  have := ordered_output hF.output s.trace
  cases failed with
  | false => exact this
  | true => exact this

theorem Outcome.ordered {a : Fd} {c : Connection} {p : List UInt8} {more : Bool}
    (h : Outcome k a c p s more s') (ho : Ordered s.trace) : Ordered s'.trace := by
  cases h with
  | wrongLength _ _ => exact ho
  | taken _ _ _ => exact ho
  | registers _ _ _ =>
    refine ⟨?_, ho⟩
    change handled a (.packet a p :: s.trace) ≠ []
    simp [handled]
  | dropped _ _ => exact ho
  | forwards _ _ _ _ _ _ hF =>
    rw [flushedState_ordered hF]
    exact ho

theorem Loop.ordered {a : Fd} (h : Loop k a s s') (ho : Ordered s.trace) : Ordered s'.trace := by
  induction h with
  | wait _ _ => exact ho
  | bad _ _ =>
    rw [closeConnection_ordered]
    exact ho
  | reject _ _ hp =>
    rw [closeConnection_ordered]
    exact hp.ordered ho
  | more _ _ hp _ _ ih => exact ih (hp.ordered ho)

theorem Receives.ordered (h : Receives k f s s') (ho : Ordered s.trace) : Ordered s'.trace := by
  cases h with
  | unknown _ | full _ _ | ended _ _ =>
    rw [closeConnection_ordered]
    exact ho
  | again _ _ => exact ho
  | data _ _ _ hloop => exact hloop.ordered ho

theorem Writes.ordered (h : Writes k f s s') (ho : Ordered s.trace) : Ordered s'.trace := by
  cases h with
  | unknown _ =>
    rw [closeConnection_ordered]
    exact ho
  | flushed _ hF =>
    rw [flushedState_ordered hF]
    exact ho

theorem Accepts.ordered (h : Accepts k s s') (ho : Ordered s.trace) : Ordered s'.trace := by
  cases h with
  | nothing _ => exact ho
  | refused hg _ hnew =>
    have hfree := (Server.free_iff.mp (free_of_accept hg)).2.2.2
    rcases hnew with rfl | ⟨ok, rfl⟩ <;> exact ⟨hfree, ho⟩
  | accepted hg => exact ⟨(Server.free_iff.mp (free_of_accept hg.1)).2.2.2, ho⟩

theorem Reacts.ordered {ev : Event} (h : Reacts k ev s s') (ho : Ordered s.trace) :
    Ordered s'.trace := by
  cases h with
  | error _ =>
    rw [closeConnection_ordered]
    exact ho
  | input _ _ hr => exact hr.ordered ho
  | neither _ _ => exact ho

theorem step_ordered (i : Kernel × Event) (s s' : Server) (h : Inv s ∧ Ordered s.trace)
    (hs : step i s = some s') : Inv s' ∧ Ordered s'.trace := by
  obtain ⟨hi, ho⟩ := h
  refine ⟨step_inv i s s' hi hs, ?_⟩
  cases dispatch_dispatches hi hs with
  | accept _ ha => exact ha.ordered ho
  | take _ _ ht => exact ht.ordered ho
  | write _ _ ht hw => exact hw.ordered (ht.ordered ho)

theorem reachable_ordered (h : Reachable s) : Ordered s.trace := by
  obtain ⟨listenFd, epfd, hr⟩ := h
  exact (hr.invariant (P := fun s => Inv s ∧ Ordered s.trace) ⟨init_inv listenFd epfd, trivial⟩
    step_ordered).2

theorem handled_of_registered {tr : List Ev} (ho : Ordered tr) {m : List UInt8}
    (hm : markOf f tr = some m) : handled f tr ≠ [] := by
  induction tr with
  | nil => cases hm
  | cons e tr ih =>
    cases e with
    | accept g =>
      by_cases hg : g = f
      · simp [markOf, hg] at hm
      · simpa [handled, hg] using ih ho.2 (by simpa [markOf, hg] using hm)
    | close g =>
      by_cases hg : g = f
      · simp [markOf, hg] at hm
      · exact ih ho (by simpa [markOf, hg] using hm)
    | register g m' =>
      by_cases hg : g = f
      · subst hg
        exact ho.1
      · exact ih ho.2 (by simpa [markOf, hg] using hm)
    | packet g p =>
      by_cases hg : g = f
      · simp [handled, hg]
      · simpa [handled, hg] using ih ho (by simpa [markOf] using hm)
    | _ => exact ih ho hm

theorem LoopCalls.ordered {p : List UInt8} {m : Server} (h : LoopCalls k f s p m) (hi : Inv s)
    (ho : Ordered s.trace) : Ordered m.trace := by
  induction h with
  | here _ _ => exact ho
  | later hc _ hp hc' _ ih =>
    obtain ⟨more, m, hp', hout⟩ := processPacket_outcome k _ hi hc
    rw [hp] at hp'
    cases hp'
    exact ih ((hout.inv hi hc).setRecv hc' _) (hout.ordered ho)

theorem LoopCalls.entry {p : List UInt8} {m : Server} (h : LoopCalls k f s p m) :
    ∃ c, m.gConnections.lookup f = some c := by
  induction h with
  | here hc _ => exact ⟨_, hc⟩
  | later _ _ _ _ _ ih => exact ih

theorem Calls.unregistered {ev : Event} {p : List UInt8} {m : Server} (h : Calls k ev s p m)
    (hs : Reachable s) (hfirst : handled ev.fd m.trace = []) :
    ∃ c, m.gConnections.lookup ev.fd = some c ∧ c.registered = false := by
  have hi := h.inv (reachable_inv hs)
  obtain ⟨-, -, -, c₀, b, hc₀, -, -, hl⟩ := h
  obtain ⟨c, hc⟩ := hl.entry
  refine ⟨c, hc, ?_⟩
  have ho : Ordered m.trace := by
    refine hl.ordered (((reachable_inv hs).read _ _).setRecv hc₀ _) ?_
    exact show Ordered s.trace from reachable_ordered hs
  by_contra hr
  have hm : markOf ev.fd m.trace = some c.mark := by
    rw [hi.marked, Server.markAt_of_lookup hc, Connection.regMark, if_pos (by simpa using hr)]
  exact handled_of_registered ho hm hfirst

/-! ## Who sent what -/

/-- What a packet carries for the connection registered under `mark`. -/
def payloadFor (mark data : List UInt8) : Option (List UInt8) :=
  if data.take markSize = mark ∧ data.drop markSize ≠ [] then some (data.drop markSize) else none

theorem frameFor_eq (mark data : List UInt8) :
    frameFor mark data = (payloadFor mark data).toList.flatMap frame := by
  unfold frameFor payloadFor
  split
  · rw [Option.toList_some, List.flatMap_singleton]
  · rfl

/-- The payloads the connection of `t` is owed, each with the sender it came from. -/
def deliveries (t : Fd) : List Ev → List (Fd × List UInt8)
  | [] => []
  | .accept g :: tr => if g = t then [] else deliveries t tr
  | .packet a data :: tr =>
    match markOf a tr, markOf t tr with
    | some _, some mark => deliveries t tr ++ (payloadFor mark data).toList.map (a, ·)
    | _, _ => deliveries t tr
  | _ :: tr => deliveries t tr

theorem forwarded_eq (t : Fd) (tr : List Ev) :
    forwarded t tr = (deliveries t tr).flatMap fun d => frame d.2 := by
  induction tr with
  | nil => rfl
  | cons e tr ih =>
    cases e with
    | accept g =>
      rw [forwarded, deliveries]
      split
      · rfl
      · exact ih
    | packet a data =>
      simp only [forwarded, deliveries]
      cases markOf a tr with
      | none => exact ih
      | some _ =>
        cases markOf t tr with
        | none => exact ih
        | some mark =>
          show forwarded t tr ++ frameFor mark data = _
          rw [List.flatMap_append, ← ih, frameFor_eq, List.flatMap_map]
    | _ => exact ih

/-! ## While nothing is closed -/

section

variable {a b : Fd} {new tr : List Ev} {mark : List UInt8}

theorem ordered_cons {e : Ev} (h : Ordered (e :: tr)) : Ordered tr := by
  cases e with
  | accept _ | register _ _ => exact h.2
  | _ => exact h

/-- An open connection that is not closed stays open, under the mark it has. -/
theorem stays_open (ho : Ordered (new ++ tr)) (hopen : isOpen f tr = true)
    (hclose : .close f ∉ new) (hreg : ∀ m, .register f m ∉ new) :
    isOpen f (new ++ tr) = true ∧ markOf f (new ++ tr) = markOf f tr := by
  induction new with
  | nil => exact ⟨hopen, rfl⟩
  | cons e new ih =>
    have ih := ih (ordered_cons ho) (fun h => hclose (List.mem_cons_of_mem _ h))
      fun m h => hreg m (List.mem_cons_of_mem _ h)
    cases e with
    | accept g =>
      have hg : g ≠ f := by
        rintro rfl
        have := ih.1.symm.trans ho.1
        cases this
      simpa [isOpen, markOf, hg] using ih
    | close g =>
      have hg : g ≠ f := by
        rintro rfl
        exact hclose (List.mem_cons_self ..)
      simpa [isOpen, markOf, hg] using ih
    | register g m =>
      have hg : g ≠ f := by
        rintro rfl
        exact hreg m (List.mem_cons_self ..)
      simpa [isOpen, markOf, hg] using ih
    | _ => exact ih

theorem markOf_of_window (hreg : ∀ f m, .register f m ∉ new) {m : List UInt8}
    (hm : markOf f (new ++ tr) = some m) : markOf f tr = some m := by
  induction new with
  | nil => exact hm
  | cons e new ih =>
    have ih := ih fun f m h => hreg f m (List.mem_cons_of_mem _ h)
    cases e with
    | accept g =>
      by_cases hg : g = f
      · simp [markOf, hg] at hm
      · exact ih (by simpa [markOf, hg] using hm)
    | close g =>
      by_cases hg : g = f
      · simp [markOf, hg] at hm
      · exact ih (by simpa [markOf, hg] using hm)
    | register g m' => exact absurd (List.mem_cons_self ..) (hreg g m')
    | _ => exact ih hm

/-- **The packets of a sender**: what the receiver is owed by `a` grows by the
payloads for it among the packets `a` had processed, in their order. -/
theorem deliveries_window (ho : Ordered (new ++ tr)) (hclose : .close a ∉ new ∧ .close b ∉ new)
    (hreg : ∀ m, .register a m ∉ new ∧ .register b m ∉ new)
    (hopen : isOpen a tr = true ∧ isOpen b tr = true)
    (ha : markOf a tr ≠ none) (hb : markOf b tr = some mark) :
    ∃ ps, handled a (new ++ tr) = handled a tr ++ ps ∧
      (deliveries b (new ++ tr)).filter (·.1 = a) =
        (deliveries b tr).filter (·.1 = a) ++ (ps.filterMap (payloadFor mark)).map (a, ·) := by
  induction new with
  | nil => exact ⟨[], (List.append_nil _).symm, (List.append_nil _).symm⟩
  | cons e new ih =>
    have ho' := ordered_cons ho
    have hclose' : .close a ∉ new ∧ .close b ∉ new :=
      ⟨fun h => hclose.1 (List.mem_cons_of_mem _ h), fun h => hclose.2 (List.mem_cons_of_mem _ h)⟩
    have hreg' : ∀ m, .register a m ∉ new ∧ .register b m ∉ new := fun m =>
      ⟨fun h => (hreg m).1 (List.mem_cons_of_mem _ h),
        fun h => (hreg m).2 (List.mem_cons_of_mem _ h)⟩
    obtain ⟨ps, hh, hd⟩ := ih ho' hclose' hreg'
    obtain ⟨hao, ham⟩ := stays_open ho' hopen.1 hclose'.1 fun m => (hreg' m).1
    obtain ⟨hbo, hbm⟩ := stays_open ho' hopen.2 hclose'.2 fun m => (hreg' m).2
    cases e with
    | accept g =>
      have hga : g ≠ a := by
        rintro rfl
        have := hao.symm.trans ho.1
        cases this
      have hgb : g ≠ b := by
        rintro rfl
        have := hbo.symm.trans ho.1
        cases this
      refine ⟨ps, ?_, ?_⟩
      · simpa [handled, hga] using hh
      · simpa [deliveries, hgb] using hd
    | packet g data =>
      by_cases hg : g = a
      · subst hg
        refine ⟨ps ++ [data], ?_, ?_⟩
        · simp [handled, hh]
        · obtain ⟨m, hm⟩ := Option.ne_none_iff_exists'.mp ha
          simp only [List.cons_append, deliveries, ham, hbm, hm, hb, List.filter_append, hd,
            List.filterMap_append, List.map_append, List.append_assoc]
          cases hp : payloadFor mark data <;> simp [hp]
      · refine ⟨ps, ?_, ?_⟩
        · simpa [handled, hg] using hh
        · simp only [List.cons_append, deliveries, hbm, hb]
          cases markOf g (new ++ tr) with
          | none => exact hd
          | some _ =>
            have hnone : ((payloadFor mark data).toList.map (g, ·)).filter (·.1 = a) = [] := by
              cases payloadFor mark data <;> simp [hg]
            simp only [List.filter_append, hd, hnone, List.append_nil]
    | _ => exact ⟨ps, hh, hd⟩

/-- Without a registration only connections registered before are heard of. -/
theorem deliveries_senders (hreg : ∀ f m, .register f m ∉ new) {d : Fd × List UInt8}
    (hd : d ∈ deliveries b (new ++ tr)) : d ∈ deliveries b tr ∨ markOf d.1 tr ≠ none := by
  induction new with
  | nil => exact .inl hd
  | cons e new ih =>
    have hreg' : ∀ f m, .register f m ∉ new := fun f m h => hreg f m (List.mem_cons_of_mem _ h)
    have ih := ih hreg'
    cases e with
    | accept g =>
      simp only [List.cons_append, deliveries] at hd
      split at hd
      · cases hd
      · exact ih hd
    | packet g data =>
      simp only [List.cons_append, deliveries] at hd
      split at hd
      · rename_i hm _
        rcases List.mem_append.mp hd with hd | hd
        · exact ih hd
        · obtain ⟨p, -, rfl⟩ := List.mem_map.mp hd
          exact .inr (by simp [markOf_of_window hreg' hm])
      · exact ih hd
    | _ => exact ih hd

end

end IsaacP2P.Relay
