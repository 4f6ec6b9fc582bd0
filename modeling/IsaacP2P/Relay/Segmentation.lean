import IsaacP2P.Relay.Intake

/-!
# TCP segmentation

`View` is what the server holds and has done, up to what depends on when
sockets take bytes; `View.process` is `process_packet` on views, a function.
While no write fails hard, the packet loop runs `View.process` as a consumer of
the sender's stream (`Loop.feeds`), so how the stream was cut does not matter
(`segmentation_irrelevant`).
-/

namespace IsaacP2P.Relay

open LengthPrefixed (next stream)
open Streaming (Feeds)

variable {k : Kernel} {a : Fd} {s s' : Server}

/-! ## Views -/

/-- The connections with the marks they are registered under, the registry, what
each descriptor is owed, and the packets processed. -/
structure View where
  conns : Fd → Option (Option (List UInt8))
  owner : UInt64 → Option Fd
  owed : Fd → List UInt8
  packets : List (Fd × List UInt8)

@[ext] theorem View.ext {v w : View} (hc : v.conns = w.conns) (ho : v.owner = w.owner)
    (hd : v.owed = w.owed) (hp : v.packets = w.packets) : v = w := by
  cases v
  cases w
  simp_all

def Server.view (s : Server) : View where
  conns f := (s.gConnections.lookup f).map Connection.regMark
  owner key := s.gMarkToFd.lookup key
  owed f := forwarded f s.trace
  packets := packets s.trace

@[simp] theorem Server.view_conns (s : Server) (f : Fd) :
    s.view.conns f = (s.gConnections.lookup f).map Connection.regMark := rfl
@[simp] theorem Server.view_owner (s : Server) (key : UInt64) :
    s.view.owner key = s.gMarkToFd.lookup key := rfl
@[simp] theorem Server.view_owed (s : Server) (f : Fd) :
    s.view.owed f = forwarded f s.trace := rfl
@[simp] theorem Server.view_packets (s : Server) : s.view.packets = packets s.trace := rfl

namespace View

def mark (v : View) (f : Fd) : Option (List UInt8) := (v.conns f).join

def process (a : Fd) (p : List UInt8) (v : View) : View × Bool :=
  let v' := { v with packets := v.packets ++ [(a, p)] }
  match v.mark a with
  | none =>
    if p.length ≠ markSize ∨ (v.owner (markToKey p)).isSome then (v', false)
    else ({ v' with
      conns := fun f => if f = a then some (some p) else v.conns f
      owner := fun key => if key = markToKey p then some a else v.owner key }, true)
  | some _ => ({ v' with owed := fun f => v.owed f ++ framesFor (v.mark f) [p] }, true)

variable {v : View} {p : List UInt8}

theorem process_rejected (hm : v.mark a = none)
    (h : p.length ≠ markSize ∨ v.owner (markToKey p) ≠ none) :
    v.process a p = ({ v with packets := v.packets ++ [(a, p)] }, false) := by
  have h' : p.length ≠ markSize ∨ (v.owner (markToKey p)).isSome :=
    h.imp_right Option.isSome_iff_ne_none.mpr
  simp only [process, hm, if_pos h']

theorem process_registered (hm : v.mark a = none) (hl : p.length = markSize)
    (h : v.owner (markToKey p) = none) :
    v.process a p = ({ v with
      packets := v.packets ++ [(a, p)]
      conns := fun f => if f = a then some (some p) else v.conns f
      owner := fun key => if key = markToKey p then some a else v.owner key }, true) := by
  have h' : ¬ (p.length ≠ markSize ∨ (v.owner (markToKey p)).isSome) := by simp [hl, h]
  simp only [process, hm, if_neg h']

theorem process_forwarded {m : List UInt8} (hm : v.mark a = some m) :
    v.process a p = ({ v with
      packets := v.packets ++ [(a, p)]
      owed := fun f => v.owed f ++ framesFor (v.mark f) [p] }, true) := by
  simp only [process, hm]

def close (a : Fd) (v : View) : View :=
  { v with
    conns := fun f => if f = a then none else v.conns f
    owner := fun key => if v.owner key = some a then none else v.owner key }

end View

theorem Server.view_mark (s : Server) (f : Fd) : s.view.mark f = s.markAt f := by
  rw [View.mark, Server.view_conns, Server.markAt]
  cases s.gConnections.lookup f <;> rfl

theorem view_closeConnection (hi : Inv s) (a : Fd) :
    (closeConnection a s).view = s.view.close a := by
  ext1
  · funext f
    simp only [View.close, Server.view_conns, closeConnection_lookup]
    split <;> rfl
  · funext key
    have ho : s.gMarkToFd.lookup key = some a ↔ _ := hi.owner
    simp only [View.close, Server.view_owner, closeConnection_gMarkToFd, ho]
    cases hm : s.markAt a with
    | none => simp
    | some m =>
      by_cases hk : key = markToKey m
      · subst hk
        simp
      · simp [AList.lookup_erase_ne hk, Ne.symm hk]
  · funext f
    simp [View.close, forwarded]
  · simp [View.close, packets]

theorem Server.view_setConn {c : Connection} (c' : Connection) (hc : s.gConnections.lookup a = some c)
    (hm : c'.regMark = c.regMark) : (s.setConn a c').view = s.view := by
  ext1
  · funext f
    simp only [Server.view_conns, Server.setConn_gConnections, AssocList.lookup_replace hc]
    split
    · subst_vars
      simp [hc, hm]
    · rfl
  · rfl
  · rfl
  · rfl

/-! ## Write errors -/

def writeErrors : List Ev → Nat
  | [] => 0
  | .writeFail _ :: tr => writeErrors tr + 1
  | _ :: tr => writeErrors tr

theorem writeErrors_append (new tr : List Ev) :
    writeErrors (new ++ tr) = writeErrors new + writeErrors tr := by
  induction new with
  | nil => simp [writeErrors]
  | cons e new ih => cases e <;> simp [writeErrors, ih, Nat.add_right_comm]

theorem Keeps.writeErrors_le {f : Fd} (h : Keeps f s s') :
    writeErrors s.trace ≤ writeErrors s'.trace := by
  obtain ⟨-, new, htr, -⟩ := h
  rw [htr, writeErrors_append]
  exact Nat.le_add_left ..

theorem Flushed.not_failed {f : Fd} {buf w rest : List UInt8} {failed : Bool} {new : List Ev}
    (hF : Flushed f buf w rest failed new) (h : writeErrors new = 0) : failed = false := by
  cases hfail : failed with
  | false => rfl
  | true =>
    have hmem := hF.failed_iff.mp hfail
    obtain ⟨x, y, rfl⟩ := List.append_of_mem hmem
    rw [writeErrors_append] at h
    simp only [writeErrors] at h
    omega

/-! ## The packet loop on views -/

theorem forwarded_view (hi : Inv s) (t : Fd) (p : List UInt8) :
    forwarded t (.packet a p :: s.trace) = forwarded t s.trace ++
      if (s.markAt a).isSome then framesFor (s.markAt t) [p] else [] := by
  rw [hi.forwarded_packet]
  cases s.markAt a <;> cases s.markAt t <;> simp [framesFor]

theorem view_register {c : Connection} {p : List UInt8} (hc : s.gConnections.lookup a = some c) :
    (({ s.setConn a { c with mark := p, registered := true } with
      gMarkToFd := s.gMarkToFd.insert (markToKey p) a } : Server).log (.register a p)).view =
      { s.view with
        conns := fun f => if f = a then some (some p) else s.view.conns f
        owner := fun key => if key = markToKey p then some a else s.view.owner key } := by
  ext1
  · funext f
    have := AssocList.lookup_replace hc { c with mark := p, registered := true } f
    simp only [Server.view_conns, Server.log_gConnections, Server.setConn_gConnections, this]
    split <;> rfl
  · funext key
    simp only [Server.view_owner, Server.log_gMarkToFd]
    by_cases hk : key = markToKey p
    · subst hk
      rw [if_pos rfl]
      exact (AList.lookup_insert s.gMarkToFd)
    · rw [if_neg hk]
      exact (AList.lookup_insert_ne hk)
  · rfl
  · rfl

/-- Bytes go out on `f`, and no write fails. -/
theorem view_flushed {f : Fd} {c : Connection} {buf w rest : List UInt8} {new : List Ev}
    (hc : s.gConnections.lookup f = some c) (hF : Flushed f buf w rest false new) :
    (flushedState f c rest false new s).view = s.view := by
  have hst : (flushedState f c rest false new s).view = (s.logs new).view :=
    Server.view_setConn _ (s := s.logs new) hc rfl
  rw [hst]
  ext1
  · rfl
  · rfl
  · funext g
    exact forwarded_output hF.output g s.trace
  · exact packets_output hF.output s.trace

theorem view_packet {p : List UInt8} {owed : Fd → List UInt8}
    (h : ∀ t, forwarded t (.packet a p :: s.trace) = owed t) :
    (s.log (.packet a p)).view =
      { s.view with packets := s.view.packets ++ [(a, p)], owed := owed } := by
  ext1
  · rfl
  · rfl
  · exact funext h
  · rfl

/-- While no write fails hard `process_packet` is `View.process`. -/
theorem Outcome.process {c : Connection} {p : List UInt8} {more : Bool}
    (h : Outcome k a c p s more s') (hi : Inv s) (hc : s.gConnections.lookup a = some c)
    (hw : writeErrors s'.trace = writeErrors s.trace) :
    s.view.process a p = (s'.view, more) := by
  have hat : s.markAt a = c.regMark := Server.markAt_of_lookup hc
  have hmark : s.view.mark a = c.regMark := (Server.view_mark s a).trans hat
  have hun : c.registered = false → c.regMark = none := by
    intro hr
    rw [Connection.regMark, hr]
    rfl
  have hreg : c.registered = true → c.regMark = some c.mark := fun hr =>
    Connection.regMark_eq_some.mpr ⟨hr, rfl⟩
  -- nothing is owed for a packet unless the sender is registered
  have hquiet : c.registered = false → (s.log (.packet a p)).view =
      { s.view with packets := s.view.packets ++ [(a, p)] } := by
    intro hr
    apply view_packet
    intro t
    rw [forwarded_view hi, hat, hun hr]
    simp
  have howed : c.registered = true → (s.log (.packet a p)).view =
      { s.view with
        packets := s.view.packets ++ [(a, p)]
        owed := fun f => s.view.owed f ++ framesFor (s.view.mark f) [p] } := by
    intro hr
    apply view_packet
    intro t
    rw [forwarded_view hi, hat, hreg hr, Server.view_mark]
    simp
  cases h with
  | wrongLength hr hl =>
    rw [View.process_rejected (hmark.trans (hun hr)) (.inl hl), hquiet hr]
  | taken hr hl hk =>
    rw [View.process_rejected (hmark.trans (hun hr)) (.inr hk),
      Server.view_setConn _ (s := s.log (.packet a p)) hc (by simp [Connection.regMark, hr]),
      hquiet hr]
  | registers hr hl hk =>
    have hview := view_register (p := p) (s := s.log (.packet a p)) hc
    rw [hquiet hr] at hview
    rw [View.process_registered (hmark.trans (hun hr)) hl hk]
    exact congrArg (·, true) hview.symm
  | dropped hr _ =>
    rw [View.process_forwarded (hmark.trans (hreg hr)), howed hr]
  | @forwards t tc m w rest failed new hr ht hm hd h0 hf hF =>
    have hfail : failed = false := by
      apply hF.not_failed
      rw [flushedState_trace, writeErrors_append, writeErrors_append] at hw
      simp only [Server.log_trace, writeErrors] at hw
      omega
    subst hfail
    rw [View.process_forwarded (hmark.trans (hreg hr)),
      view_flushed (s := s.log (.packet a p)) ht hF, howed hr]

/-- **The packet loop is a consumer of the sender's stream.** -/
theorem Loop.feeds (h : Loop k a s s') (hi : Inv s) {c : Connection}
    (hc : s.gConnections.lookup a = some c) (hw : writeErrors s'.trace = writeErrors s.trace) :
    ∃ ps v r, Feeds (stream maxPayload) (View.process a) s.view c.recvBuf ps v r ∧
      ((∃ c', s'.gConnections.lookup a = some c' ∧ r = some c'.recvBuf ∧ s'.view = v) ∨
        (s'.gConnections.lookup a = none ∧ r = none ∧ s'.view = v.close a)) := by
  induction h generalizing c with
  | wait hc₀ hnext =>
    rw [hc] at hc₀
    cases hc₀
    exact ⟨[], _, _, .wait hnext, .inl ⟨_, hc, rfl, rfl⟩⟩
  | bad hc₀ hnext =>
    rw [hc] at hc₀
    cases hc₀
    refine ⟨[], _, _, .bad hnext, .inr ⟨?_, rfl, view_closeConnection hi a⟩⟩
    rw [closeConnection_lookup, if_pos rfl]
  | @reject s m c₀ p rest hc₀ hnext ho =>
    rw [hc] at hc₀
    cases hc₀
    have hwm : writeErrors m.trace = writeErrors s.trace := by
      simpa [closeConnection_trace, writeErrors] using hw
    refine ⟨[p], m.view, _, .stop hnext (ho.process hi hc hwm),
      .inr ⟨?_, rfl, view_closeConnection (ho.inv hi hc) a⟩⟩
    rw [closeConnection_lookup, if_pos rfl]
  | @more s m s' c₀ c' p rest hc₀ hnext ho hc' hloop ih =>
    rw [hc] at hc₀
    cases hc₀
    have h1 := (ho.keeps hc a).writeErrors_le
    have h2 := (hloop.keeps a).writeErrors_le
    rw [Server.setConn_trace] at h2
    obtain ⟨ps, v, r, hf, hr⟩ := ih ((ho.inv hi hc).setRecv hc' rest)
      (Server.setConn_lookup_self hc') (by rw [Server.setConn_trace]; omega)
    rw [Server.view_setConn { c' with recvBuf := rest } hc' rfl] at hf
    exact ⟨p :: ps, v, r, .item hnext (ho.process hi hc (by omega)) hf, hr⟩

/-! ## Chunks -/

/-- `handle_client_data` gets the chunks one after another for the connection of
`a`, each non-empty and within the space left, and no write fails hard; what
arrives after the connection was closed is discarded. -/
inductive Fed (a : Fd) : Server → List (List UInt8) → Server → Prop where
  | done {s : Server} : Fed a s [] s
  | chunk {k : Kernel} {s m s' : Server} {c : Connection} {b : List UInt8}
      {bs : List (List UInt8)} : s.gConnections.lookup a = some c → k.read a = .bytes b →
      b ≠ [] → c.recvBuf.length + b.length ≤ bufferSize → handleClientData k a s = some m →
      writeErrors m.trace = writeErrors s.trace → Fed a m bs s' → Fed a s (b :: bs) s'
  | discarded {s : Server} {bs : List (List UInt8)} : s.gConnections.lookup a = none →
      Fed a s bs s

theorem Fed.inv {bs : List (List UInt8)} (h : Fed a s bs s') (hi : Inv s) : Inv s' := by
  induction h with
  | done => exact hi
  | chunk _ _ _ _ hm _ _ ih => exact ih ((handleClientData_receives hi hm).inv hi)
  | discarded _ => exact hi

theorem Fed.closed {bs : List (List UInt8)} (h : Fed a s bs s')
    (hn : s.gConnections.lookup a = none) : s' = s := by
  cases h with
  | done => rfl
  | chunk hc _ _ _ _ _ _ => rw [hn] at hc; cases hc
  | discarded _ => rfl

theorem Receives.chunk {c : Connection} {b : List UInt8} (h : Receives k a s s')
    (hc : s.gConnections.lookup a = some c) (hr : k.read a = .bytes b) (hb : b ≠ [])
    (hfit : c.recvBuf.length + b.length ≤ bufferSize) :
    Loop k a ((s.log (.read a b)).setConn a { c with recvBuf := c.recvBuf ++ b }) s' := by
  have hlen : 0 < b.length := List.length_pos_iff.mpr hb
  have hrecv : k.received a c.recvBuf.length = b := by
    simp only [Kernel.received, hr]
    exact List.take_of_length_le (by omega)
  cases h with
  | unknown hn => rw [hc] at hn; cases hn
  | full hc₀ hfull =>
    rw [hc] at hc₀
    cases hc₀
    omega
  | ended hc₀ he =>
    rw [hc] at hc₀
    cases hc₀
    rw [hrecv] at he
    exact absurd he hb
  | again _ hr₀ => rw [hr] at hr₀; cases hr₀
  | data hc₀ he _ hloop =>
    rw [hc] at hc₀
    cases hc₀
    rw [hrecv] at he
    cases he
    exact hloop

/-- The chunks are consumed as the one stream they are cut from. -/
theorem Fed.feeds {bs : List (List UInt8)} (h : Fed a s bs s') (hi : Inv s) (hin : Intake s)
    {c : Connection} (hc : s.gConnections.lookup a = some c) :
    ∃ ps v r, Feeds (stream maxPayload) (View.process a) s.view (c.recvBuf ++ bs.flatten) ps v r ∧
      ((∃ c', s'.gConnections.lookup a = some c' ∧ r = some c'.recvBuf ∧ s'.view = v) ∨
        (s'.gConnections.lookup a = none ∧ r = none ∧ s'.view = v.close a)) := by
  induction h generalizing c with
  | done =>
    refine ⟨[], _, some c.recvBuf, ?_, .inl ⟨c, hc, rfl, rfl⟩⟩
    simpa using Feeds.wait (hin.waits hc)
  | discarded hn => rw [hc] at hn; cases hn
  | @chunk k s m s' c₀ b bs hc₀ hread hb hfit hm hw hrest ih =>
    obtain rfl : c = c₀ := Option.some.inj (hc.symm.trans hc₀)
    have hr := handleClientData_receives hi hm
    obtain ⟨ps, v, r, hf, hend⟩ := (hr.chunk hc hread hb hfit).feeds
      ((hi.read a b).setRecv hc _) (Server.setConn_lookup_self hc) (by simpa [writeErrors] using hw)
    have hview : ((s.log (.read a b)).setConn a { c with recvBuf := c.recvBuf ++ b }).view
        = s.view := by
      rw [Server.view_setConn { c with recvBuf := c.recvBuf ++ b } (s := s.log (.read a b)) hc rfl]
      rfl
    rw [hview] at hf
    rw [List.flatten_cons, ← List.append_assoc]
    rcases hend with ⟨c', hc', rfl, rfl⟩ | ⟨hn, rfl, hv⟩
    · obtain ⟨ps', v', r', hf', hend'⟩ := ih (hr.inv hi) (hr.intake_all hi hin) hc'
      exact ⟨ps ++ ps', v', r', hf.append bs.flatten hf', hend'⟩
    · -- the connection is closed and the other chunks are discarded
      rw [hrest.closed hn]
      exact ⟨ps, v, none, hf.stopped bs.flatten, .inr ⟨hn, rfl, hv⟩⟩

/-- **Segmentation does not matter**: two ways of cutting one stream of `a` into
chunks lead to the same packets processed, the same registry, the same output of
every connection, and the same end of the connection of `a`. -/
theorem segmentation_irrelevant (h : Reachable s) (ha : a ∈ s.gConnections)
    {bs₁ bs₂ : List (List UInt8)} {s₁ s₂ : Server} (h₁ : Fed a s bs₁ s₁) (h₂ : Fed a s bs₂ s₂)
    (hcut : bs₁.flatten = bs₂.flatten) :
    packets s₁.trace = packets s₂.trace ∧
    (∀ key, s₁.gMarkToFd.lookup key = s₂.gMarkToFd.lookup key) ∧
    (∀ f, s₁.gConnections.lookup f = none ↔ s₂.gConnections.lookup f = none) ∧
    (∀ f c₁ c₂, s₁.gConnections.lookup f = some c₁ → s₂.gConnections.lookup f = some c₂ →
      c₁.regMark = c₂.regMark ∧
      written f s₁.trace ++ c₁.sendBuf = written f s₂.trace ++ c₂.sendBuf) ∧
    (s₁.gConnections.lookup a).map (·.recvBuf) = (s₂.gConnections.lookup a).map (·.recvBuf) := by
  have hi := reachable_inv h
  obtain ⟨c, hc⟩ := AssocList.exists_lookup ha
  obtain ⟨ps₁, v₁, r₁, hf₁, he₁⟩ := h₁.feeds hi (reachable_intake h) hc
  obtain ⟨ps₂, v₂, r₂, hf₂, he₂⟩ := h₂.feeds hi (reachable_intake h) hc
  rw [hcut] at hf₁
  obtain ⟨-, rfl, rfl⟩ := hf₁.unique hf₂
  have hend : s₁.view = s₂.view ∧ (s₁.gConnections.lookup a).map (·.recvBuf)
      = (s₂.gConnections.lookup a).map (·.recvBuf) := by
    rcases he₁ with ⟨c₁, hc₁, rfl, rfl⟩ | ⟨hn₁, rfl, hv₁⟩
    · rcases he₂ with ⟨c₂, hc₂, hr, hv⟩ | ⟨-, hr, -⟩
      · rw [hc₁, hc₂]
        exact ⟨hv.symm, hr⟩
      · cases hr
    · rcases he₂ with ⟨c₂, -, hr, -⟩ | ⟨hn₂, -, hv₂⟩
      · cases hr
      · rw [hn₁, hn₂]
        exact ⟨hv₁.trans hv₂.symm, rfl⟩
  obtain ⟨hview, hrecv⟩ := hend
  have hconns : ∀ f, (s₁.gConnections.lookup f).map Connection.regMark
      = (s₂.gConnections.lookup f).map Connection.regMark := fun f =>
    congrFun (congrArg View.conns hview) f
  refine ⟨congrArg View.packets hview, fun key => congrFun (congrArg View.owner hview) key,
    fun f => ?_, fun f c₁ c₂ hc₁ hc₂ => ⟨?_, ?_⟩, hrecv⟩
  · rw [← Option.map_eq_none_iff (f := Connection.regMark), hconns, Option.map_eq_none_iff]
  · have := hconns f
    rw [hc₁, hc₂] at this
    exact Option.some.inj this
  · rw [(h₁.inv hi).out hc₁, (h₂.inv hi).out hc₂]
    exact congrFun (congrArg View.owed hview) f

/-- The packet of `forwardBlocked` in one piece, and cut inside its length. -/
theorem forwardBlocked_segmented : ∃ s₁ s₂,
    Fed 5 twoClientsEnd [[9, 0, 0, 0, 2, 0, 0, 0, 0, 0, 0, 0, 5]] s₁ ∧
    Fed 5 twoClientsEnd [[9, 0, 0], [0, 2, 0, 0, 0, 0, 0, 0, 0, 5]] s₂ ∧
    packets s₁.trace = packets s₂.trace := by
  let c : Connection := { fd := 5, mark := [1, 0, 0, 0, 0, 0, 0, 0], registered := true }
  let k : List UInt8 → Kernel := fun b => { read := fun _ => .bytes b }
  let s₁ := (handleClientData (k [9, 0, 0, 0, 2, 0, 0, 0, 0, 0, 0, 0, 5]) 5 twoClientsEnd).get
    (by decide +kernel)
  let m := (handleClientData (k [9, 0, 0]) 5 twoClientsEnd).get (by decide +kernel)
  let s₂ := (handleClientData (k [0, 2, 0, 0, 0, 0, 0, 0, 0, 5]) 5 m).get (by decide +kernel)
  have h₁ : Fed 5 twoClientsEnd [[9, 0, 0, 0, 2, 0, 0, 0, 0, 0, 0, 0, 5]] s₁ :=
    .chunk (k := k _) (c := c) (by decide +kernel) rfl (by decide) (by decide) (by simp [s₁])
      (by decide +kernel) .done
  have h₂ : Fed 5 twoClientsEnd [[9, 0, 0], [0, 2, 0, 0, 0, 0, 0, 0, 0, 5]] s₂ :=
    .chunk (k := k _) (c := c) (m := m) (by decide +kernel) rfl (by decide) (by decide)
      (by simp [m]) (by decide +kernel)
      (.chunk (k := k _) (c := { c with recvBuf := [9, 0, 0] }) (by decide +kernel) rfl (by decide)
        (by decide) (by simp [s₂]) (by decide +kernel) .done)
  exact ⟨s₁, s₂, h₁, h₂, (segmentation_irrelevant twoClientsEnd_reachable (by decide +kernel)
    h₁ h₂ rfl).1⟩

end IsaacP2P.Relay
