import IsaacP2P.Relay.Containment

/-!
# The events of one batch

The array `epoll_wait` fills is dispatched entry by entry. An entry is stale
when its descriptor was closed meanwhile and the number handed out again: the
new connection is then read or closed on an event of the old one. This happens
exactly when an `accept` of the batch admits a connection under a number for
which the batch still holds an undispatched input, error or hang-up event
(`stale_never_acts_iff`).
-/

namespace IsaacP2P.Relay

open LengthPrefixed (frame)

variable {k : Kernel} {s s' s₀ : Server} {f : Fd} {ev : Event}

/-! ## Stale events -/

/-- The event reads, writes or closes the descriptor. -/
def Ev.actsOn (f : Fd) : Ev → Bool
  | .read g _ | .write g _ | .writeAgain g | .writeFail g | .close g => g == f
  | _ => false

/-- Something was done to `f` between the two states. -/
def ActsOn (f : Fd) (s s' : Server) : Prop :=
  ∃ new, s'.trace = new ++ s.trace ∧ ∃ e ∈ new, Ev.actsOn f e = true

/-- The number of the event's descriptor is open, and belongs to a connection
accepted after `epoll_wait` returned in the state `s₀`. -/
def Stale (s₀ : Server) (i : Kernel × Event) (s : Server) : Prop :=
  i.2.fd ≠ s.listenFd ∧ isOpen i.2.fd s.trace = true ∧
    incarnation i.2.fd s.trace ≠ incarnation i.2.fd s₀.trace

/-- No stale event is acted upon. -/
def StaleIgnored (s₀ : Server) (i : Kernel × Event) (s : Server) : Prop :=
  Stale s₀ i s → ∀ s', step i s = some s' → ¬ ActsOn i.2.fd s s'

/-- The events of one call of `epoll_wait` in `s₀`: one at most for each
descriptor, and only for open ones and the listening socket. -/
def IsBatch (s₀ : Server) (batch : List (Kernel × Event)) : Prop :=
  (batch.map (·.2.fd)).Nodup ∧
    ∀ i ∈ batch, i.2.fd = s₀.listenFd ∨ isOpen i.2.fd s₀.trace = true

/-- The event makes `main` read or close its descriptor. -/
def Event.acts (ev : Event) : Bool := ev.errHup || ev.input

/-- No accept of the batch admits a connection under a number for which an
input, error or hang-up event is still to be dispatched. -/
def NoReuse : List (Kernel × Event) → Server → Prop
  | [], _ => True
  | i :: rest, s =>
    (i.2.fd = s.listenFd → ∀ f, Admits i.1 s f → ∀ j ∈ rest, j.2.fd = f → j.2.acts = false) ∧
      ∀ s', step i s = some s' → NoReuse rest s'

/-! ## What an event does to the other descriptors -/

theorem incarnation_append {new : List Ev} (h : ∀ g, .accept g ∉ new) (f : Fd) (tr : List Ev) :
    incarnation f (new ++ tr) = incarnation f tr := by
  induction new with
  | nil => rfl
  | cons e new ih =>
    have ih := ih fun g hg => h g (List.mem_cons_of_mem _ hg)
    cases e with
    | accept g => exact absurd (List.mem_cons_self ..) (h g)
    | _ => exact ih

theorem Keeps.incarnation (h : Keeps f s s') : incarnation f s'.trace = incarnation f s.trace := by
  obtain ⟨-, new, htr, ha, -⟩ := h
  rw [htr, incarnation_append ha]

/-- The entry of a connection nothing has happened to. -/
def Server.isFresh (f : Fd) (s : Server) : Prop :=
  s.gConnections.lookup f = some (.ofSocket f)

theorem Inv.written_fresh (hi : Inv s) (h : s.isFresh f) : written f s.trace = [] := by
  have ho : isOpen f s.trace = true := by
    rw [hi.opened, h]
    rfl
  have hm : markOf f s.trace = none := by
    rw [hi.marked, Server.markAt_of_lookup h]
    rfl
  have := hi.out h
  rw [forwarded_of_unregistered ho hm] at this
  exact (List.append_eq_nil_iff.mp this).1

theorem Touched.fresh {ps : List (List UInt8)} {new : List Ev} (h : Touched f ps new s s')
    (hi : Inv s) (hi' : Inv s') (hf : s.isFresh f) : s'.isFresh f := by
  cases h with
  | absent h0 _ => rw [hf] at h0; cases h0
  | removed h0 hr _ _ =>
    rw [hf] at h0
    cases h0
    cases hr
  | @kept c c' h0 h1 _ hr hm hb _ _ ho =>
    rw [hf] at h0
    cases h0
    have hfd := hi'.fd_eq h1
    rw [hi.written_fresh hf] at ho
    have hs : c'.sendBuf = [] := (List.append_eq_nil_iff.mp (ho.trans rfl)).2
    rw [Server.isFresh, h1]
    cases c'
    simp_all [Connection.ofSocket]

theorem Touched.isOpen_false {ps : List (List UInt8)} {new : List Ev} (h : Touched f ps new s s')
    (hi : Inv s) (hi' : Inv s') (ho : isOpen f s.trace = false) : isOpen f s'.trace = false := by
  rw [hi.opened] at ho
  rw [hi'.opened]
  cases h with
  | absent _ h1 => rw [h1]; rfl
  | removed h0 _ _ _ => rw [h0] at ho; cases ho
  | kept h0 _ _ _ _ _ _ _ _ => rw [h0] at ho; cases ho

theorem Server.enter_fresh (f : Fd) (s : Server) : (s.enter f).isFresh f :=
  AList.lookup_insert _

/-- Another descriptor is left as it is, or it is the one `accept` returned:
closed again at once, or admitted. -/
theorem Dispatches.other (h : Dispatches k ev s s') (hi : Inv s) (hf : f ≠ ev.fd) :
    (incarnation f s'.trace = incarnation f s.trace ∧
      (isOpen f s.trace = false → isOpen f s'.trace = false) ∧ (s.isFresh f → s'.isFresh f)) ∨
    (isOpen f s.trace = false ∧ incarnation f s'.trace = incarnation f s.trace + 1 ∧
      (isOpen f s'.trace = false ∨ (ev.fd = s.listenFd ∧ Admits k s f ∧ s'.isFresh f))) := by
  have hi' := h.inv hi
  cases h with
  | accept hl ha =>
    cases ha with
    | nothing _ => exact .inl ⟨rfl, id, id⟩
    | @refused g new hg _ hnew =>
      by_cases hgf : g = f
      · subst hgf
        refine .inr ⟨(Server.free_iff.mp (free_of_accept hg)).2.2.2, ?_, .inl ?_⟩
        · rcases hnew with rfl | ⟨ok, rfl⟩ <;> simp [incarnation]
        · simp [isOpen]
      · refine .inl ⟨?_, ?_, id⟩
        · rcases hnew with rfl | ⟨ok, rfl⟩ <;> simp [incarnation, hgf]
        · rcases hnew with rfl | ⟨ok, rfl⟩ <;> simp [isOpen, hgf]
    | @accepted g hg =>
      by_cases hgf : g = f
      · subst hgf
        refine .inr ⟨(Server.free_iff.mp (free_of_accept hg.1)).2.2.2, ?_,
          .inr ⟨hl, hg, s.enter_fresh g⟩⟩
        simp [Server.enter, incarnation]
      · refine .inl ⟨?_, ?_, fun h => ?_⟩
        · simp [Server.enter, incarnation, hgf]
        · simp [Server.enter, isOpen, hgf]
        · exact (AList.lookup_insert_ne (Ne.symm hgf)).trans h
  | take _ _ ht =>
    obtain ⟨_, _, htouch⟩ := ht.touched hi hf
    exact .inl ⟨(ht.keeps f).incarnation, htouch.isOpen_false hi hi', htouch.fresh hi hi'⟩
  | write _ _ ht hw =>
    have him := ht.inv hi
    obtain ⟨_, _, ht'⟩ := ht.touched hi hf
    obtain ⟨_, _, hw'⟩ := hw.touched hf
    exact .inl ⟨((ht.keeps f).trans (hw.keeps f)).incarnation,
      fun h => hw'.isOpen_false him hi' (ht'.isOpen_false hi him h),
      fun h => hw'.fresh him hi' (ht'.fresh hi him h)⟩

theorem Dispatches.admits (h : Dispatches k ev s s') (hl : ev.fd = s.listenFd)
    (hadm : Admits k s f) : s' = s.enter f := by
  cases h with
  | accept _ ha =>
    cases ha with
    | nothing hn =>
      have := hadm.1.symm.trans hn
      cases this
    | refused hg hno _ =>
      have := hadm.1.symm.trans hg
      cases this
      exact absurd hadm hno
    | accepted hg =>
      have := hadm.1.symm.trans hg.1
      cases this
      rfl
  | take hne _ _ => exact absurd hl hne
  | write hne _ _ _ => exact absurd hl hne

theorem Dispatches.listenFd (h : Dispatches k ev s s') : s'.listenFd = s.listenFd := by
  cases h with
  | accept _ ha => cases ha <;> rfl
  | take _ _ ht => exact (ht.keeps 0).1
  | write _ _ ht hw => exact ((ht.keeps 0).trans (hw.keeps 0)).1

/-! ## Acting on a fresh connection -/

/-- An event that neither reads nor closes does nothing to a fresh connection:
there is nothing to send. -/
theorem fresh_not_acted_on (hi : Inv s) (hf : s.isFresh ev.fd) (ha : ev.acts = false)
    (h : step (k, ev) s = some s') (hl : ev.fd ≠ s.listenFd) : ¬ ActsOn ev.fd s s' := by
  rintro ⟨new, htr, e, he, hact⟩
  have h0 := hi.nonneg hf
  simp only [Event.acts, Bool.or_eq_false_iff] at ha
  have hnew : new = [] ∨ ∃ ok, new = [.epollMod ev.fd false ok] := by
    simp only [step, dispatch, if_neg hl, ha.1, ha.2, Bool.false_eq_true, if_false,
      Option.bind_some] at h
    cases ho : ev.output with
    | false =>
      simp only [ho, Bool.false_eq_true, if_false] at h
      cases h
      exact .inl (List.append_left_eq_self.mp htr.symm)
    | true =>
      have hf' : s.gConnections.lookup ev.fd = some (.ofSocket ev.fd) := hf
      simp only [ho, if_true, handleClientWrite, hf', flushSendBuffer, Connection.ofSocket,
        Option.bind_eq_bind, Option.bind_some, Int.not_lt.mpr h0, if_false, List.isEmpty_nil,
        updateEpollEvents] at h
      cases h
      refine .inr ⟨k.epollCtl s.trace.length ev.fd, ?_⟩
      exact List.append_cancel_right (htr.symm.trans rfl)
  rcases hnew with rfl | ⟨ok, rfl⟩
  · cases he
  · rw [List.mem_singleton] at he
    subst he
    cases hact

theorem ActsOn.keeps {m : Server} (h : ActsOn f s m) (hk : Keeps f m s') : ActsOn f s s' := by
  obtain ⟨new, htr, e, he, ha⟩ := h
  obtain ⟨-, new', htr', -⟩ := hk
  exact ⟨new' ++ new, by rw [htr', htr, List.append_assoc], e, List.mem_append_right _ he, ha⟩

theorem Receives.actsOn (h : Receives k f s s') : ActsOn f s s' := by
  have hclose : ∀ m, Keeps f s m → ActsOn f s (closeConnection f m) := by
    rintro m ⟨-, new, htr, -⟩
    exact ⟨Ev.close f :: Ev.epollDel f :: new, by rw [closeConnection_trace, htr]; rfl, .close f,
      by simp, by simp [Ev.actsOn]⟩
  have hread : ∀ b, ActsOn f s (s.log (.read f b)) := fun b =>
    ⟨[.read f b], rfl, .read f b, by simp, by simp [Ev.actsOn]⟩
  cases h with
  | unknown _ => exact hclose s (.refl f s)
  | full _ _ => exact hclose s (.refl f s)
  | ended _ _ => exact hclose _ (.same [.read f []] rfl rfl (by simp) rfl)
  | again _ _ => exact hread []
  | @data c b _ hc _ _ hloop =>
    have hset := Keeps.setConn f { c with recvBuf := c.recvBuf ++ b } (s := s.log (.read f b)) hc rfl
    exact (hread b).keeps (hset.trans (hloop.keeps f))

theorem Dispatches.actsOn (h : Dispatches k ev s s') (hl : ev.fd ≠ s.listenFd)
    (ha : ev.acts = true) : ActsOn ev.fd s s' := by
  have htake : ∀ m, Reacts k ev s m → ActsOn ev.fd s m := by
    intro m hm
    cases hm with
    | error _ =>
      exact ⟨[.close ev.fd, .epollDel ev.fd], closeConnection_trace .., .close ev.fd, by simp,
        by simp [Ev.actsOn]⟩
    | input _ _ hr => exact hr.actsOn
    | neither he hin => simp [Event.acts, he, hin] at ha
  cases h with
  | accept h _ => exact absurd h hl
  | take _ _ ht => exact htake _ ht
  | write _ _ ht hw => exact (htake _ ht).keeps (hw.keeps ev.fd)

/-! ## Batches -/

/-- What is known of the descriptor of an event still to be dispatched: its
connection is the one of `s₀`, or is closed, or the event does nothing to the
fresh one that took its number. -/
def Pending (s₀ : Server) (ev : Event) (s : Server) : Prop :=
  incarnation ev.fd s.trace = incarnation ev.fd s₀.trace ∨ isOpen ev.fd s.trace = false ∨
    (s.isFresh ev.fd ∧ ev.acts = false)

theorem Pending.staleIgnored (hi : Inv s) (hp : Pending s₀ ev s) : StaleIgnored s₀ (k, ev) s := by
  rintro ⟨hl, ho, hinc⟩ s' hs
  rcases hp with h | h | ⟨hf, ha⟩
  · exact absurd h hinc
  · rw [ho] at h
    cases h
  · exact fresh_not_acted_on hi hf ha hs hl

/-- The other events stay pending, unless a number in use by one of them is
handed out again. -/
theorem Pending.step {i : Kernel × Event} (hp : Pending s₀ ev s) (hi : Inv s)
    (hs : step i s = some s') (hne : ev.fd ≠ i.2.fd)
    (hreuse : i.2.fd = s.listenFd → Admits i.1 s ev.fd → ev.acts = false) :
    Pending s₀ ev s' := by
  rcases (dispatch_dispatches hi hs).other hi hne with ⟨hinc, hclosed, hfresh⟩ |
      ⟨-, -, hclosed | ⟨hl, hadm, hf⟩⟩
  · rcases hp with h | h | ⟨hf, ha⟩
    · exact .inl (hinc.trans h)
    · exact .inr (.inl (hclosed h))
    · exact .inr (.inr ⟨hfresh hf, ha⟩)
  · exact .inr (.inl hclosed)
  · exact .inr (.inr ⟨hf, hreuse hl hadm⟩)

theorem meets_of_noReuse {batch : List (Kernel × Event)} (hi : Inv s)
    (hnodup : (batch.map (·.2.fd)).Nodup) (hp : ∀ j ∈ batch, Pending s₀ j.2 s)
    (hno : NoReuse batch s) : Runs.Meets step (StaleIgnored s₀) batch s := by
  induction batch generalizing s with
  | nil => trivial
  | cons i rest ih =>
    rw [List.map_cons, List.nodup_cons] at hnodup
    obtain ⟨hnot, hnodup⟩ := hnodup
    refine ⟨(hp i (List.mem_cons_self ..)).staleIgnored hi, fun m hs => ?_⟩
    refine ih (step_inv i s m hi hs) hnodup (fun j hj => ?_) (hno.2 m hs)
    refine (hp j (List.mem_cons_of_mem _ hj)).step hi hs (fun heq => hnot ?_) fun hl hadm =>
      hno.1 hl _ hadm j hj rfl
    exact List.mem_map.mpr ⟨j, hj, heq⟩

theorem not_meets_of_fresh {rest : List (Kernel × Event)} (hi : Inv s)
    (hnodup : (rest.map (·.2.fd)).Nodup) (hfresh : s.isFresh f) (hl : f ≠ s.listenFd)
    (hinc : incarnation f s₀.trace < incarnation f s.trace) {j : Kernel × Event} (hj : j ∈ rest)
    (hjf : j.2.fd = f) (ha : j.2.acts = true) (hrun : (Runs.run step rest s).isSome) :
    ¬ Runs.Meets step (StaleIgnored s₀) rest s := by
  have ho : isOpen f s.trace = true := by
    rw [hi.opened, hfresh]
    rfl
  induction rest generalizing s with
  | nil => cases hj
  | cons i rest ih =>
    rw [List.map_cons, List.nodup_cons] at hnodup
    obtain ⟨hnot, hnodup⟩ := hnodup
    obtain ⟨s', hrun⟩ := Option.isSome_iff_exists.mp hrun
    obtain ⟨m, hs, hr⟩ := Runs.run_cons_iff.mp hrun
    have hd := dispatch_dispatches hi hs
    intro hmeets
    by_cases heq : i.2.fd = f
    · have hij : i = j := by
        rcases List.mem_cons.mp hj with h | h
        · exact h.symm
        · exact absurd (List.mem_map.mpr ⟨j, h, hjf.trans heq.symm⟩) hnot
      subst hij
      subst heq
      exact hmeets.1 ⟨hl, ho, Nat.ne_of_gt hinc⟩ m hs (hd.actsOn hl ha)
    · have hj' : j ∈ rest := by
        rcases List.mem_cons.mp hj with rfl | h
        · exact absurd hjf heq
        · exact h
      rcases hd.other hi (Ne.symm heq) with ⟨hinc', -, hfr⟩ | ⟨hclosed, -⟩
      · have hi' := step_inv i s m hi hs
        have hf' := hfr hfresh
        refine ih hi' hnodup hf' (by rwa [hd.listenFd]) (by rwa [hinc']) hj' ?_ ?_ (hmeets.2 m hs)
        · rw [hr]
          rfl
        · rw [hi'.opened, hf']
          rfl
      · rw [ho] at hclosed
        cases hclosed

theorem noReuse_of_meets {batch : List (Kernel × Event)} (hi : Inv s)
    (hnodup : (batch.map (·.2.fd)).Nodup)
    (hinc : ∀ j ∈ batch, incarnation j.2.fd s₀.trace ≤ incarnation j.2.fd s.trace)
    (hrun : (Runs.run step batch s).isSome) (hmeets : Runs.Meets step (StaleIgnored s₀) batch s) :
    NoReuse batch s := by
  induction batch generalizing s with
  | nil => trivial
  | cons i rest ih =>
    rw [List.map_cons, List.nodup_cons] at hnodup
    obtain ⟨hnot, hnodup⟩ := hnodup
    obtain ⟨s', hrun⟩ := Option.isSome_iff_exists.mp hrun
    obtain ⟨m, hs, hr⟩ := Runs.run_cons_iff.mp hrun
    have hd := dispatch_dispatches hi hs
    have hrest : (Runs.run step rest m).isSome := by
      rw [hr]
      rfl
    refine ⟨fun hl f hadm j hj hjf => ?_, fun m' hs' => ?_⟩
    · by_contra ha
      obtain rfl := hd.admits hl hadm
      have hfree := (Server.free_iff.mp (free_of_accept hadm.1)).2.1
      have hle := hinc j (List.mem_cons_of_mem _ hj)
      refine not_meets_of_fresh (step_inv i s _ hi hs) hnodup (s.enter_fresh f) hfree ?_ hj hjf
        (by simpa using ha) hrest (hmeets.2 _ hs)
      rw [hjf] at hle
      simp only [Server.enter, Server.log_trace, incarnation, if_true]
      omega
    · rw [hs] at hs'
      cases hs'
      refine ih (step_inv i s m hi hs) hnodup (fun j hj => ?_) hrest (hmeets.2 m hs)
      have hne : j.2.fd ≠ i.2.fd := fun heq => hnot (List.mem_map.mpr ⟨j, hj, heq⟩)
      have hle := hinc j (List.mem_cons_of_mem _ hj)
      rcases hd.other hi hne with ⟨h, -⟩ | ⟨-, h, -⟩ <;> omega

/-- **A stale event acts on another connection exactly when an accept of the
batch reuses the number of an event still to be dispatched.** -/
theorem stale_never_acts_iff (h : Reachable s₀) {batch : List (Kernel × Event)}
    (hb : IsBatch s₀ batch) :
    (NoReuse batch s₀ → Runs.Meets step (StaleIgnored s₀) batch s₀) ∧
    ((Runs.run step batch s₀).isSome → Runs.Meets step (StaleIgnored s₀) batch s₀ →
      NoReuse batch s₀) :=
  ⟨meets_of_noReuse (reachable_inv h) hb.1 fun _ _ => .inl rfl,
    noReuse_of_meets (reachable_inv h) hb.1 fun _ _ => Nat.le_refl _⟩

/-- The first client sends to the second, whose socket is broken. -/
def forwardBroken : Kernel where
  read _ := .bytes (frame [2, 0, 0, 0, 0, 0, 0, 0, 5])
  write _ _ := .fail

/-- The forward closes descriptor 6, a client is accepted and given the number,
and then the event reported for the old connection is dispatched. -/
def reuseBatch : List (Kernel × Event) :=
  [(forwardBroken, { fd := 5, input := true }),
    ({ accept := some 6 }, { fd := 3, input := true }),
    ({ read := fun _ => .bytes [1] }, { fd := 6, input := true })]

theorem reuseBatch_stale : ∃ s₀, Reachable s₀ ∧ IsBatch s₀ reuseBatch ∧
    ¬ Runs.Meets step (StaleIgnored s₀) reuseBatch s₀ := by
  let m := (Runs.run step (reuseBatch.take 2) twoClientsEnd).get (by decide +kernel)
  let i : Kernel × Event := ({ read := fun _ => .bytes [1] }, { fd := 6, input := true })
  let m' := (step i m).get (by decide +kernel)
  have hm : Runs.run step (reuseBatch.take 2) twoClientsEnd = some m := by simp [m]
  have hm' : step i m = some m' := by simp [m']
  refine ⟨twoClientsEnd, twoClientsEnd_reachable, ⟨by decide, by decide +kernel⟩, fun h => ?_⟩
  have hstale := (Runs.Meets.append (reuseBatch.take 2) h hm).1
  exact hstale ⟨by decide +kernel, by decide +kernel, by decide +kernel⟩ m' hm'
    ⟨[.read 6 [1]], by decide +kernel, .read 6 [1], by decide, by decide⟩

/-- A batch that reuses no number: the closed descriptor is not handed out again. -/
theorem forwardBroken_batch :
    Runs.Meets step (StaleIgnored twoClientsEnd)
      [(forwardBroken, { fd := 5, input := true }), ({}, { fd := 6, input := true })]
      twoClientsEnd := by
  refine (stale_never_acts_iff twoClientsEnd_reachable ⟨by decide, by decide +kernel⟩).1 ?_
  have hfd : twoClientsEnd.listenFd = 3 := by decide +kernel
  have hl : ∀ i s', step i twoClientsEnd = some s' → s'.listenFd = 3 := fun i s' hs =>
    (dispatch_dispatches (reachable_inv twoClientsEnd_reachable) hs).listenFd.trans hfd
  exact ⟨fun h => absurd h (by decide +kernel), fun s' hs =>
    ⟨fun h => absurd (h.trans (hl _ _ hs)) (by decide), fun _ _ => trivial⟩⟩

end IsaacP2P.Relay
