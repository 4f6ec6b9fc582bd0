import IsaacP2P.Relay.Contract

/-!
# One client's input and the other connections

`Touched` says what a call for one connection did to another: removed after a
failed write on its own socket, or the same but for the frames it was sent. It
composes along the packet loop, which gives `client_contained`. `Keeps` is the
same over whole runs, for the mark a connection is registered under.
-/

namespace IsaacP2P.Relay

open LengthPrefixed (frame)

variable {k : Kernel} {a b : Fd} {s m s' : Server}

/-- The frames a connection registered under `mark` gets for the packets `ps`. -/
def framesFor (mark : Option (List UInt8)) (ps : List (List UInt8)) : List UInt8 :=
  match mark with
  | some mark => ps.flatMap (frameFor mark)
  | none => []

theorem framesFor_append (mark : Option (List UInt8)) (ps qs : List (List UInt8)) :
    framesFor mark (ps ++ qs) = framesFor mark ps ++ framesFor mark qs := by
  cases mark <;> simp [framesFor]

theorem framesFor_nil (mark : Option (List UInt8)) : framesFor mark [] = [] := by
  cases mark <;> rfl

theorem framesFor_eq_nil {mark : Option (List UInt8)} {p : List UInt8}
    (h : ∀ m, mark = some m → frameFor m p = []) : framesFor mark [p] = [] := by
  cases mark with
  | none => rfl
  | some m => simp [framesFor, h m rfl]

/-- What happened to `b` while the packets `ps` were forwarded and the events
`new` logged. -/
inductive Touched (b : Fd) (ps : List (List UInt8)) (new : List Ev) (s s' : Server) : Prop where
  | absent : s.gConnections.lookup b = none → s'.gConnections.lookup b = none →
      Touched b ps new s s'
  | removed {c : Connection} : s.gConnections.lookup b = some c → c.registered = true →
      s'.gConnections.lookup b = none → .writeFail b ∈ new → Touched b ps new s s'
  | kept {c c' : Connection} : s.gConnections.lookup b = some c →
      s'.gConnections.lookup b = some c' → .writeFail b ∉ new →
      c'.registered = c.registered → c'.mark = c.mark → c'.recvBuf = c.recvBuf →
      consumed b s'.trace = consumed b s.trace → handled b s'.trace = handled b s.trace →
      written b s'.trace ++ c'.sendBuf = written b s.trace ++ c.sendBuf ++ framesFor c.regMark ps →
      Touched b ps new s s'

theorem Touched.trans {ps qs : List (List UInt8)} {new new' : List Ev}
    (h : Touched b ps new s m) (h' : Touched b qs new' m s') :
    Touched b (ps ++ qs) (new' ++ new) s s' := by
  cases h with
  | absent h0 h1 =>
    cases h' with
    | absent _ h2 => exact .absent h0 h2
    | removed h2 _ _ _ => rw [h1] at h2; cases h2
    | kept h2 _ _ _ _ _ _ _ _ => rw [h1] at h2; cases h2
  | removed h0 hr h1 hw =>
    cases h' with
    | absent _ h2 => exact .removed h0 hr h2 (List.mem_append_right _ hw)
    | removed h2 _ _ _ => rw [h1] at h2; cases h2
    | kept h2 _ _ _ _ _ _ _ _ => rw [h1] at h2; cases h2
  | kept h0 h1 hw hr hm hb hcons hhand ho =>
    cases h' with
    | absent h2 _ => rw [h1] at h2; cases h2
    | removed h2 hr' h3 hw' =>
      rw [h1] at h2
      cases h2
      exact .removed h0 (hr ▸ hr') h3 (List.mem_append_left _ hw')
    | kept h2 h3 hw' hr' hm' hb' hcons' hhand' ho' =>
      rw [h1] at h2
      cases h2
      refine .kept h0 h3 ?_ (hr'.trans hr) (hm'.trans hm) (hb'.trans hb) (hcons'.trans hcons)
        (hhand'.trans hhand) ?_
      · rw [List.mem_append]
        exact fun h => h.elim hw' hw
      · rw [ho', ho, framesFor_append, Connection.regMark, Connection.regMark, hr, hm,
          List.append_assoc]

/-- An update that leaves the entry of `b` and its books alone, while no packet
is for it. -/
theorem Touched.unaddressed {ps : List (List UInt8)} {new : List Ev}
    (hl : s'.gConnections.lookup b = s.gConnections.lookup b)
    (hw : written b s'.trace = written b s.trace) (hcons : consumed b s'.trace = consumed b s.trace)
    (hhand : handled b s'.trace = handled b s.trace) (hf : .writeFail b ∉ new)
    (hps : framesFor (s.markAt b) ps = []) : Touched b ps new s s' := by
  cases hb : s.gConnections.lookup b with
  | none => exact .absent hb (hl.trans hb)
  | some c =>
    rw [Server.markAt_of_lookup hb] at hps
    refine .kept hb (hl.trans hb) hf rfl rfl rfl hcons hhand ?_
    rw [hw, hps, List.append_nil]

theorem Touched.same {new : List Ev} (hl : s'.gConnections.lookup b = s.gConnections.lookup b)
    (hw : written b s'.trace = written b s.trace) (hcons : consumed b s'.trace = consumed b s.trace)
    (hhand : handled b s'.trace = handled b s.trace) (hf : .writeFail b ∉ new) :
    Touched b [] new s s' :=
  .unaddressed hl hw hcons hhand hf (framesFor_nil _)

theorem Touched.setConn (hb : b ≠ a) (c : Connection) : Touched b [] [] s (s.setConn a c) :=
  .same (AssocList.lookup_replace_ne hb c) rfl rfl rfl List.not_mem_nil

theorem Touched.closeConnection (hb : b ≠ a) :
    Touched b [] [.close a, .epollDel a] s (closeConnection a s) := by
  refine .same ?_ ?_ ?_ ?_ (by simp)
  · rw [closeConnection_lookup, if_neg hb]
  all_goals
    rw [closeConnection_trace]
    rfl

/-! ## The packet loop -/

theorem packets_append (new tr : List Ev) : packets (new ++ tr) = packets tr ++ packets new := by
  induction new with
  | nil => simp [packets]
  | cons e new ih => cases e <;> simp [packets, ih]

/-- The packets of a call that count: the first one of an unregistered sender is
its registration. -/
def afterRegistration (registered : Bool) (ps : List (List UInt8)) : List (List UInt8) :=
  if registered then ps else ps.tail

theorem afterRegistration_nil (registered : Bool) : afterRegistration registered [] = [] := by
  cases registered <;> rfl

/-- After the first packet that does not end the connection all packets count. -/
theorem afterRegistration_cons (registered : Bool) (p : List UInt8) (ps : List (List UInt8)) :
    afterRegistration registered (p :: ps)
      = afterRegistration registered [p] ++ afterRegistration true ps := by
  cases registered <;> rfl

theorem Outcome.touched {c : Connection} {p : List UInt8} {more : Bool}
    (h : Outcome k a c p s more s') (hi : Inv s) :
    ∃ new, s'.trace = new ++ s.trace ∧ packets new = [(a, p)] ∧
      ∀ b, b ≠ a → Touched b (afterRegistration c.registered [p]) new s s' := by
  have hhand : ∀ b, b ≠ a → handled b (.packet a p :: s.trace) = handled b s.trace := by
    intro b hb
    simp [handled, Ne.symm hb]
  have hskip : ∀ b, b ≠ a → Touched b [] [.packet a p] s (s.log (.packet a p)) := fun b hb =>
    .same rfl rfl rfl (hhand b hb) (by simp)
  cases h with
  | wrongLength hr _ => exact ⟨[.packet a p], rfl, rfl, fun b hb => by rw [hr]; exact hskip b hb⟩
  | taken hr _ _ =>
    refine ⟨[.packet a p], rfl, rfl, fun b hb => ?_⟩
    rw [hr]
    exact (hskip b hb).trans (.setConn hb _)
  | registers hr _ _ =>
    refine ⟨[.register a p, .packet a p], rfl, rfl, fun b hb => ?_⟩
    rw [hr]
    exact .same (AssocList.lookup_replace_ne hb _) rfl rfl (hhand b hb) (by simp)
  | dropped hr h =>
    refine ⟨[.packet a p], rfl, rfl, fun b hb => ?_⟩
    rw [hr]
    exact .unaddressed rfl rfl rfl (hhand b hb) (by simp) (framesFor_eq_nil (h b))
  | @forwards t tc m w rest failed new hr ht hm hd hp hf hF =>
    refine ⟨(if failed then [Ev.close t, Ev.epollDel t] else []) ++ new ++ [Ev.packet a p], ?_, ?_,
      fun b hb => ?_⟩
    · rw [flushedState_trace]
      simp [Server.log]
    · have := packets_output hF.output [.packet a p]
      cases failed <;> simpa [packets] using this
    · have hl := flushedState_lookup (s := s.log (.packet a p)) ht rest failed new b
      obtain ⟨hw, hcons, hhand'⟩ := hF.books tc (s.log (.packet a p)) b
      have hhand' := hhand'.trans (hhand b hb)
      have hmem : Ev.writeFail b ∈ (if failed then [Ev.close t, Ev.epollDel t] else []) ++ new
          ++ [Ev.packet a p] ↔ b = t ∧ failed = true := by
        rw [← hF.writeFail_mem]
        cases failed <;> simp
      rw [hr]
      by_cases hbt : b = t
      · subst hbt
        rw [if_pos rfl] at hl hw
        cases failed with
        | true =>
          exact .removed ht (Connection.regMark_eq_some.mp hm).1 (by simpa using hl)
            (by rw [hmem]; simp)
        | false =>
          have hl : _ = some { tc with sendBuf := rest } := hl
          refine .kept ht hl (by rw [hmem]; simp) rfl rfl rfl hcons hhand' ?_
          have hw : _ = written b s.trace ++ w := hw
          simp only [hw, hm, afterRegistration, framesFor, if_true, List.flatMap_cons,
            List.flatMap_nil, List.append_nil, List.append_assoc, hF.split]
      · rw [if_neg hbt, List.append_nil] at hw
        rw [if_neg hbt] at hl
        refine .unaddressed hl hw hcons hhand' (by rw [hmem]; simp [hbt]) ?_
        refine framesFor_eq_nil fun m' hm' => if_neg ?_
        -- another mark than the packet's
        rintro ⟨rfl, -⟩
        exact hbt (hi.markAt_inj hm' (by rw [Server.markAt_of_lookup ht, hm, hd]))

/-- **What the packet loop for `a` does to the others.** -/
theorem Loop.touched (h : Loop k a s s') (hi : Inv s) {c : Connection}
    (hc : s.gConnections.lookup a = some c) :
    ∃ new ps, s'.trace = new ++ s.trace ∧ packets new = ps.map (a, ·) ∧
      ∀ b, b ≠ a → Touched b (afterRegistration c.registered ps) new s s' := by
  induction h generalizing c with
  | wait =>
    refine ⟨[], [], rfl, rfl, fun b _ => ?_⟩
    rw [afterRegistration_nil]
    exact .same rfl rfl rfl rfl List.not_mem_nil
  | bad =>
    refine ⟨[.close a, .epollDel a], [], by rw [closeConnection_trace]; rfl, rfl, fun b hb => ?_⟩
    rw [afterRegistration_nil]
    exact .closeConnection hb
  | @reject s m c₀ p rest hc₀ hnext ho =>
    rw [hc] at hc₀
    cases hc₀
    obtain ⟨new, htr, hp, ht⟩ := ho.touched hi
    refine ⟨Ev.close a :: Ev.epollDel a :: new, [p], ?_, ?_, fun b hb => ?_⟩
    · rw [closeConnection_trace, htr]
      rfl
    · simpa [packets] using hp
    · simpa using (ht b hb).trans (.closeConnection hb)
  | @more s m s' c₀ c' p rest hc₀ hnext ho hc' hloop ih =>
    rw [hc] at hc₀
    cases hc₀
    obtain ⟨new, htr, hp, ht⟩ := ho.touched hi
    obtain ⟨new', ps, htr', hp', ht'⟩ := ih ((ho.inv hi hc).setRecv hc' rest)
      (Server.setConn_lookup_self hc')
    refine ⟨new' ++ new, p :: ps, ?_, ?_, fun b hb => ?_⟩
    · rw [htr', Server.setConn_trace, htr, List.append_assoc]
    · rw [packets_append, hp, hp']
      rfl
    · have := (ht b hb).trans ((Touched.setConn hb { c' with recvBuf := rest }).trans (ht' b hb))
      rw [(ho.kept_ref hc hc').2 rfl] at this
      rw [afterRegistration_cons]
      simpa using this

/-- `a` is in `g_connections` and registered. -/
def Server.isRegistered (s : Server) (a : Fd) : Bool := (s.markAt a).isSome

theorem Server.isRegistered_of_lookup {c : Connection} (h : s.gConnections.lookup a = some c) :
    s.isRegistered a = c.registered := by
  rw [Server.isRegistered, Server.markAt_of_lookup h, Connection.regMark]
  cases c.registered <;> rfl

theorem Touched.read (hb : b ≠ a) (bytes : List UInt8) :
    Touched b [] [.read a bytes] s (s.log (.read a bytes)) :=
  .same rfl rfl (by simp [consumed, Ne.symm hb]) rfl (by simp)

theorem Receives.touched (h : Receives k a s s') (hi : Inv s) :
    ∃ new ps, s'.trace = new ++ s.trace ∧ packets new = ps.map (a, ·) ∧
      ∀ b, b ≠ a → Touched b (afterRegistration (s.isRegistered a) ps) new s s' := by
  have hclose : ∀ s₁ : Server, ∃ new ps, (closeConnection a s₁).trace = new ++ s₁.trace ∧
      packets new = ps.map (a, ·) ∧ ∀ b, b ≠ a →
        Touched b (afterRegistration (s.isRegistered a) ps) new s₁ (closeConnection a s₁) := by
    refine fun s₁ => ⟨[.close a, .epollDel a], [], by rw [closeConnection_trace]; rfl, rfl, ?_⟩
    intro b hb
    rw [afterRegistration_nil]
    exact .closeConnection hb
  cases h with
  | unknown _ => exact hclose s
  | full _ _ => exact hclose s
  | ended _ _ =>
    refine ⟨[.close a, .epollDel a, .read a []], [], by rw [closeConnection_trace]; rfl, rfl,
      fun b hb => ?_⟩
    rw [afterRegistration_nil]
    exact (Touched.read hb []).trans (.closeConnection hb)
  | again _ _ =>
    refine ⟨[.read a []], [], rfl, rfl, fun b hb => ?_⟩
    rw [afterRegistration_nil]
    exact .read hb []
  | @data c bytes _ hc _ _ hloop =>
    obtain ⟨new, ps, htr, hp, ht⟩ := hloop.touched ((hi.read a bytes).setRecv hc _)
      (Server.setConn_lookup_self hc)
    refine ⟨new ++ [Ev.read a bytes], ps, ?_, ?_, fun b hb => ?_⟩
    · rw [htr]
      simp
    · rw [packets_append, hp]
      rfl
    · rw [Server.isRegistered_of_lookup hc]
      simpa using (Touched.read hb bytes).trans
        ((Touched.setConn hb { c with recvBuf := c.recvBuf ++ bytes }).trans (ht b hb))

/-- `Touched` for the handlers of one event on another descriptor. -/
theorem Reacts.touched {ev : Event} {f : Fd} (h : Reacts k ev s s') (hi : Inv s) (hf : f ≠ ev.fd) :
    ∃ ps new, Touched f ps new s s' := by
  cases h with
  | error _ => exact ⟨_, _, .closeConnection hf⟩
  | input _ _ hr =>
    obtain ⟨new, ps, -, -, ht⟩ := hr.touched hi
    exact ⟨_, _, ht f hf⟩
  | neither _ _ => exact ⟨[], [], .same rfl rfl rfl rfl List.not_mem_nil⟩

theorem Writes.touched {ev : Event} {f : Fd} (h : Writes k ev.fd s s') (hf : f ≠ ev.fd) :
    ∃ ps new, Touched f ps new s s' := by
  cases h with
  | unknown _ => exact ⟨_, _, .closeConnection hf⟩
  | @flushed c w rest new hc hF =>
    obtain ⟨hw, hcons, hhand⟩ := hF.books c s f
    rw [if_neg hf, List.append_nil] at hw
    exact ⟨[], [], .same (by rw [flushedState_lookup hc, if_neg hf]) hw hcons hhand
      List.not_mem_nil⟩

/-! ## Runs -/

/-- Events were logged, none of them an `accept`, and `f` stayed registered as it
was unless it was closed. -/
def Keeps (f : Fd) (s s' : Server) : Prop :=
  s'.listenFd = s.listenFd ∧ ∃ new, s'.trace = new ++ s.trace ∧ (∀ g, .accept g ∉ new) ∧
    ∀ mark, s.markAt f = some mark → .close f ∉ new → s'.markAt f = some mark

theorem Keeps.refl (f : Fd) (s : Server) : Keeps f s s :=
  ⟨rfl, [], rfl, fun _ => List.not_mem_nil, fun _ h _ => h⟩

theorem Keeps.trans {f : Fd} (h : Keeps f s m) (h' : Keeps f m s') : Keeps f s s' := by
  obtain ⟨hl, new, htr, ha, hk⟩ := h
  obtain ⟨hl', new', htr', ha', hk'⟩ := h'
  refine ⟨hl'.trans hl, new' ++ new, by rw [htr', htr, List.append_assoc], fun g => ?_,
    fun mark hm hc => ?_⟩
  · rw [List.mem_append]
    exact fun h => h.elim (ha' g) (ha g)
  · rw [List.mem_append] at hc
    exact hk' mark (hk mark hm fun h => hc (.inr h)) fun h => hc (.inl h)

theorem Keeps.same {f : Fd} (new : List Ev) (hl : s'.listenFd = s.listenFd)
    (htr : s'.trace = new ++ s.trace) (ha : ∀ g, .accept g ∉ new)
    (hm : s'.markAt f = s.markAt f) : Keeps f s s' :=
  ⟨hl, new, htr, ha, fun _ h _ => hm.trans h⟩

theorem Keeps.setConn (f : Fd) {c : Connection} (c' : Connection)
    (hc : s.gConnections.lookup a = some c) (hm : c'.regMark = c.regMark) : Keeps f s (s.setConn a c') := by
  refine .same [] rfl rfl (fun _ => List.not_mem_nil) ?_
  rw [Server.markAt, Server.markAt, Server.setConn_gConnections, AssocList.lookup_replace hc]
  split
  · subst_vars
    rw [hc]
    exact hm
  · rfl

theorem Keeps.closeConnection (f g : Fd) (s : Server) : Keeps f s (closeConnection g s) := by
  refine ⟨closeConnection_listenFd g s, [.close g, .epollDel g], closeConnection_trace g s, by simp,
    fun mark hm hc => ?_⟩
  have hne : f ≠ g := by
    rintro rfl
    simp at hc
  rw [closeConnection_markAt, if_neg hne, hm]

theorem Keeps.flushedState (f : Fd) {c : Connection} {buf w rest : List UInt8} {failed : Bool}
    {new : List Ev} (hc : s.gConnections.lookup a = some c)
    (hF : Flushed a buf w rest failed new) : Keeps f s (flushedState a c rest failed new s) := by
  have hlog : Keeps f s (s.logs new) :=
    .same new rfl rfl (fun g hg => hF.output _ hg) rfl
  have hset : Keeps f (s.logs new) ((s.logs new).setConn a { c with sendBuf := rest }) :=
    .setConn f _ (s := s.logs new) hc rfl
  cases failed with
  | false => exact hlog.trans hset
  | true => exact (hlog.trans hset).trans (.closeConnection f a _)

theorem Outcome.keeps {c : Connection} {p : List UInt8} {more : Bool}
    (h : Outcome k a c p s more s') (hc : s.gConnections.lookup a = some c) (f : Fd) :
    Keeps f s s' := by
  have hlog : Keeps f s (s.log (.packet a p)) := .same [.packet a p] rfl rfl (by simp) rfl
  cases h with
  | wrongLength _ _ => exact hlog
  | taken hr _ _ =>
    exact hlog.trans
      (.setConn f _ (s := s.log (.packet a p)) hc (by simp [Connection.regMark, hr]))
  | registers hr _ _ =>
    refine ⟨rfl, [.register a p, .packet a p], rfl, by simp, fun mark hm _ => ?_⟩
    have hne : f ≠ a := by
      rintro rfl
      rw [Server.markAt_of_lookup hc, Connection.regMark, hr] at hm
      cases hm
    rw [← hm, Server.markAt, Server.markAt]
    congr 1
    exact AssocList.lookup_replace_ne hne _
  | dropped _ _ => exact hlog
  | forwards _ ht _ _ _ _ hF => exact hlog.trans (.flushedState f (s := s.log (.packet a p)) ht hF)

theorem Loop.keeps (h : Loop k a s s') (f : Fd) : Keeps f s s' := by
  induction h with
  | wait => exact .refl f _
  | bad => exact .closeConnection f a _
  | reject hc _ ho => exact (ho.keeps hc f).trans (.closeConnection f a _)
  | @more _ _ _ _ c' _ rest hc _ ho hc' _ ih =>
    have hset := Keeps.setConn f { c' with recvBuf := rest } hc' rfl
    exact ((ho.keeps hc f).trans hset).trans ih

theorem Receives.keeps (h : Receives k a s s') (f : Fd) : Keeps f s s' := by
  have hread : ∀ b, Keeps f s (s.log (.read a b)) := fun b =>
    .same [.read a b] rfl rfl (by simp) rfl
  cases h with
  | unknown _ => exact .closeConnection f a s
  | full _ _ => exact .closeConnection f a s
  | ended _ _ => exact (hread []).trans (.closeConnection f a _)
  | again _ _ => exact hread []
  | @data c b _ hc _ _ hloop =>
    have hset := Keeps.setConn f { c with recvBuf := c.recvBuf ++ b } (s := s.log (.read a b)) hc rfl
    exact ((hread b).trans hset).trans (hloop.keeps f)

theorem Reacts.keeps {ev : Event} (h : Reacts k ev s s') (f : Fd) : Keeps f s s' := by
  cases h with
  | error _ => exact .closeConnection f ev.fd s
  | input _ _ hr => exact hr.keeps f
  | neither _ _ => exact .refl f s

theorem Writes.keeps (h : Writes k a s s') (f : Fd) : Keeps f s s' := by
  cases h with
  | unknown _ => exact .closeConnection f a s
  | flushed hc hF => exact .flushedState f hc hF

theorem Dispatches.registered {ev : Event} (h : Dispatches k ev s s') (hi : Inv s) (f : Fd) :
    ∃ new, s'.trace = new ++ s.trace ∧
      ∀ mark, s.markAt f = some mark → .close f ∉ new → s'.markAt f = some mark := by
  have hkeep : ∀ {m m' : Server}, Keeps f s m → Keeps f m m' → ∃ new, m'.trace = new ++ s.trace ∧
      ∀ mark, s.markAt f = some mark → .close f ∉ new → m'.markAt f = some mark := by
    intro m m' h h'
    obtain ⟨-, new, htr, -, hk⟩ := h.trans h'
    exact ⟨new, htr, hk⟩
  cases h with
  | accept _ ha =>
    cases ha with
    | nothing _ => exact ⟨[], rfl, fun _ hm _ => hm⟩
    | refused _ _ _ => exact ⟨_, rfl, fun _ hm _ => hm⟩
    | @accepted g hg =>
      refine ⟨[.epollAdd g true, .accept g], rfl, fun mark hm _ => ?_⟩
      have hne : f ≠ g := by
        rintro rfl
        obtain ⟨c, hc, -⟩ := Server.markAt_eq_some.mp hm
        have := (hi.opened f).symm.trans (Server.free_iff.mp (free_of_accept hg.1)).2.2.2
        rw [hc] at this
        cases this
      rw [← hm, Server.markAt, Server.markAt]
      congr 1
      exact AList.lookup_insert_ne hne
  | take _ _ ht => exact hkeep (ht.keeps f) (.refl f _)
  | write _ _ ht hw => exact hkeep (ht.keeps f) (hw.keeps f)

theorem run_registered (hi : Inv s) {f : Fd} {mark : List UInt8} (hm : s.markAt f = some mark)
    {is : List (Kernel × Event)} (h : Runs.run step is s = some s') :
    ∃ new, s'.trace = new ++ s.trace ∧ (.close f ∉ new → s'.markAt f = some mark) := by
  refine (Runs.run_invariant (P := fun m => Inv m ∧ ∃ new, m.trace = new ++ s.trace ∧
    (.close f ∉ new → m.markAt f = some mark)) ?_ ⟨hi, [], rfl, fun _ => hm⟩ h).2
  rintro i m m' ⟨him, new, htr, hk⟩ hs
  obtain ⟨new', htr', hk'⟩ := (dispatch_dispatches him hs).registered him f
  refine ⟨step_inv i m m' him hs, new' ++ new, by rw [htr', htr, List.append_assoc], fun hc => ?_⟩
  rw [List.mem_append, not_or] at hc
  exact hk' mark (hk hc.2) hc.1

/-! ## Containment -/

/-- `handle_client_data` on `a` contains what it reads: another connection is
removed only after a failed write on its own socket, and is otherwise left as it
is, with the frames of the packets of `a` for its mark behind what it was sent. -/
def Contained (k : Kernel) (a : Fd) (s : Server) : Prop :=
  ∃ s' new ps, handleClientData k a s = some s' ∧ s'.trace = new ++ s.trace ∧
    packets new = ps.map (a, ·) ∧ ∀ b c, b ≠ a → s.gConnections.lookup b = some c →
      (s'.gConnections.lookup b = none ∧ .writeFail b ∈ new) ∨
      (.writeFail b ∉ new ∧ ∃ c', s'.gConnections.lookup b = some c' ∧
        c'.registered = c.registered ∧ c'.mark = c.mark ∧ c'.recvBuf = c.recvBuf ∧
        (∀ key, s'.gMarkToFd.lookup key = some b ↔ s.gMarkToFd.lookup key = some b) ∧
        written b s'.trace ++ c'.sendBuf = written b s.trace ++ c.sendBuf ++
          framesFor c.regMark (afterRegistration (s.isRegistered a) ps))

/-- **Containment** of whatever is read from `a`, unless a forward of `a` to its
own mark fails; so a registered mark is mapped to one connection until that
connection is closed. -/
theorem client_contained (h : Reachable s) :
    (∀ k a, (∀ p m, DataCalls k a s p m → ¬ SelfForwardFails k a p m) → Contained k a s) ∧
    (∀ key f is s', s.gMarkToFd.lookup key = some f → Runs.run step is s = some s' →
      ∃ new, s'.trace = new ++ s.trace ∧
        (.close f ∉ new → s'.gMarkToFd.lookup key = some f)) := by
  have hi := reachable_inv h
  refine ⟨fun k a hown => ?_, fun key f is s' hk hr => ?_⟩
  · have hne : handleClientData k a s ≠ none := by
      rw [Ne, handleClientData_eq_none_iff hi]
      rintro ⟨p, m, hc, hf⟩
      exact hown p m hc hf
    obtain ⟨s', hs'⟩ := Option.ne_none_iff_exists'.mp hne
    have hr := handleClientData_receives hi hs'
    obtain ⟨new, ps, htr, hp, ht⟩ := hr.touched hi
    refine ⟨s', new, ps, hs', htr, hp, fun b c hb hc => ?_⟩
    cases ht b hb with
    | absent h0 _ => rw [hc] at h0; cases h0
    | removed _ _ h1 hw => exact .inl ⟨h1, hw⟩
    | @kept c₀ c' h0 h1 hw hreg hm hrecv _ _ ho =>
      rw [hc] at h0
      cases h0
      refine .inr ⟨hw, c', h1, hreg, hm, hrecv, fun key => ?_, ho⟩
      -- the map follows the entries
      rw [(hr.inv hi).owner, hi.owner, Server.markAt_of_lookup h1, Server.markAt_of_lookup hc,
        Connection.regMark, Connection.regMark, hreg, hm]
  · obtain ⟨mark, hm, rfl⟩ := hi.owner.mp hk
    obtain ⟨new, htr, hkeep⟩ := run_registered hi hm hr
    have hi' := Runs.run_invariant step_inv hi hr
    exact ⟨new, htr, fun hc => hi'.owner.mpr ⟨mark, hkeep hc, rfl⟩⟩

/-- The first of two clients sends to the second, whose socket is blocked. -/
def forwardBlocked : Kernel where
  read _ := .bytes (frame [2, 0, 0, 0, 0, 0, 0, 0, 5])

theorem twoClientsEnd_contained : Contained forwardBlocked 5 twoClientsEnd := by
  refine (client_contained twoClientsEnd_reachable).1 forwardBlocked 5 fun p m _ => ?_
  rintro ⟨c, -, -, -, -, hf⟩
  rw [flushFails, writeFails_eq_false (by simp [forwardBlocked])] at hf
  cases hf

end IsaacP2P.Relay
