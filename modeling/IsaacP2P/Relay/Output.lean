import IsaacP2P.Relay.Server

/-!
# Sending: what `flush_send_buffer` does

A call of `flush_send_buffer` splits the buffer into the bytes `write()` took
and the rest, logs output events on its own descriptor only, and closes the
connection exactly when the kernel answered a hard error (`writeFails`).
`flushSendBuffer_eq` says all of this; nothing after it unfolds the loop.
-/

namespace IsaacP2P.Relay

/-! ## Output events -/

/-- The events `flush_send_buffer` logs for a descriptor before it may close it. -/
def Ev.OutputOn (f : Fd) : Ev → Prop
  | .write g _ | .writeAgain g | .writeFail g | .epollMod g _ _ => g = f
  | _ => False

/-- Output events on `f` only. -/
def OutputOn (f : Fd) (new : List Ev) : Prop := ∀ e ∈ new, e.OutputOn f

theorem OutputOn.nil (f : Fd) : OutputOn f [] := by simp [OutputOn]

theorem OutputOn.cons {f : Fd} {e : Ev} {new : List Ev} (he : e.OutputOn f) (h : OutputOn f new) :
    OutputOn f (e :: new) := by
  simpa [OutputOn] using ⟨he, h⟩

theorem OutputOn.append {f : Fd} {new new' : List Ev} (h : OutputOn f new)
    (h' : OutputOn f new') : OutputOn f (new ++ new') :=
  List.forall_mem_append.mpr ⟨h, h'⟩

/-- What is not read off an output event is not changed by any number of them. -/
theorem OutputOn.ignored {γ : Type} {f : Fd} {new : List Ev} (h : OutputOn f new)
    {p : List Ev → γ} (hp : ∀ e tr, Ev.OutputOn f e → p (e :: tr) = p tr) (tr : List Ev) :
    p (new ++ tr) = p tr := by
  induction new with
  | nil => rfl
  | cons e new ih =>
    have he := h e (List.mem_cons_self ..)
    rw [List.cons_append, hp e _ he]
    exact ih fun e' he' => h e' (List.mem_cons_of_mem _ he')

section

variable {f : Fd} {new : List Ev} (h : OutputOn f new) (g : Fd) (tr : List Ev)
include h

theorem isOpen_output : isOpen g (new ++ tr) = isOpen g tr :=
  h.ignored (fun e tr he => by cases e <;> first | exact he.elim | rfl) tr

theorem consumed_output : consumed g (new ++ tr) = consumed g tr :=
  h.ignored (fun e tr he => by cases e <;> first | exact he.elim | rfl) tr

theorem handled_output : handled g (new ++ tr) = handled g tr :=
  h.ignored (fun e tr he => by cases e <;> first | exact he.elim | rfl) tr

theorem packets_output : packets (new ++ tr) = packets tr :=
  h.ignored (fun e tr he => by cases e <;> first | exact he.elim | rfl) tr

theorem markOf_output : markOf g (new ++ tr) = markOf g tr :=
  h.ignored (fun e tr he => by cases e <;> first | exact he.elim | rfl) tr

theorem forwarded_output : forwarded g (new ++ tr) = forwarded g tr :=
  h.ignored (fun e tr he => by cases e <;> first | exact he.elim | rfl) tr

theorem written_output :
    written g (new ++ tr) = written g tr ++ (if g = f then written f new else []) := by
  induction new with
  | nil => simp [written]
  | cons e new ih =>
    have he := h e (List.mem_cons_self ..)
    have ih := ih fun e' he' => h e' (List.mem_cons_of_mem _ he')
    by_cases hg : g = f
    · subst hg
      cases e <;> simp_all [Ev.OutputOn, written]
    · cases e <;> simp_all [Ev.OutputOn, written, eq_comm]

end

/-! ## The loop -/

/-- The kernel answers a hard error before the `len` bytes left are gone and
before it answers `EAGAIN`; the trace has `pos` events. The first argument
bounds the rounds. -/
def writeFails (k : Kernel) (fd : Fd) : Nat → Nat → Nat → Bool
  | 0, _, _ => false
  | n + 1, pos, len =>
    if len = 0 then false
    else match k.write pos fd with
      | .wrote m => writeFails k fd n (pos + 1) (len - min (m + 1) len)
      | .again => false
      | .fail => true

/-- Sending the buffer `buf` ends in a hard error. -/
def flushFails (k : Kernel) (fd : Fd) (pos : Nat) (buf : List UInt8) : Bool :=
  writeFails k fd buf.length pos buf.length

theorem writeFails_eq_false {k : Kernel} {fd : Fd} (h : ∀ pos, k.write pos fd ≠ .fail)
    (n pos len : Nat) : writeFails k fd n pos len = false := by
  induction n generalizing pos len with
  | zero => rfl
  | succ n ih =>
    rw [writeFails]
    split
    · rfl
    · cases hw : k.write pos fd with
      | wrote m => exact ih ..
      | again => rfl
      | fail => exact absurd hw (h pos)

/-- One call of `flush_send_buffer` on the buffer `buf` of `f`: `write()` took
`w` and left `rest`, and the events `new` were logged. -/
structure Flushed (f : Fd) (buf w rest : List UInt8) (failed : Bool) (new : List Ev) : Prop where
  split : buf = w ++ rest
  output : OutputOn f new
  written : written f new = w
  failed_iff : failed = true ↔ .writeFail f ∈ new
  /-- Without an error the last thing done is to ask for `EPOLLOUT` if and only if
  bytes are left. -/
  armed : failed = false → ∃ ok old, new = .epollMod f (!rest.isEmpty) ok :: old

theorem Flushed.writeFail_mem {f : Fd} {buf w rest : List UInt8} {failed : Bool} {new : List Ev}
    (h : Flushed f buf w rest failed new) (g : Fd) :
    .writeFail g ∈ new ↔ g = f ∧ failed = true := by
  constructor
  · intro hg
    obtain rfl : g = f := h.output _ hg
    exact ⟨rfl, h.failed_iff.mpr hg⟩
  · rintro ⟨rfl, hfail⟩
    exact h.failed_iff.mp hfail

/-- The state a flush leaves: the rest in the buffer, the connection closed if
a write failed. -/
def flushedState (f : Fd) (c : Connection) (rest : List UInt8) (failed : Bool) (new : List Ev)
    (s : Server) : Server :=
  let s' := (s.logs new).setConn f { c with sendBuf := rest }
  if failed then closeConnection f s' else s'

/-- What was in the buffer before the flush does not show. -/
theorem flushedState_setConn (f : Fd) (c : Connection) (b rest : List UInt8) (failed : Bool)
    (new : List Ev) (s : Server) :
    flushedState f { c with sendBuf := b } rest failed new (s.setConn f { c with sendBuf := b })
      = flushedState f c rest failed new s := by
  simp only [flushedState, Server.setConn, Server.logs, AssocList.replace_replace]

theorem Flushed.sent {f : Fd} {a b w rest : List UInt8} {failed : Bool} {new : List Ev}
    (h : Flushed f b w rest failed new) :
    Flushed f (a ++ b) (a ++ w) rest failed (new ++ [.write f a]) where
  split := by rw [h.split, List.append_assoc]
  output := h.output.append (.cons rfl (.nil f))
  written := by
    rw [written_output h.output, if_pos rfl, h.written]
    simp [Relay.written]
  failed_iff := by simp [h.failed_iff]
  armed hf := by
    obtain ⟨ok, old, rfl⟩ := h.armed hf
    exact ⟨ok, old ++ [.write f a], rfl⟩

theorem flushedState_unsent {f : Fd} {c : Connection} {s : Server} {new : List Ev}
    (hc : s.gConnections.lookup f = some c) (failed : Bool) :
    flushedState f c c.sendBuf failed new s
      = if failed then closeConnection f (s.logs new) else s.logs new := by
  have hc' : (s.logs new).gConnections.lookup f = some c := hc
  simp only [flushedState, Server.setConn_self hc']

theorem flushedState_sent (f : Fd) (c : Connection) (b rest : List UInt8) (failed : Bool)
    (new : List Ev) (e : Ev) (s : Server) :
    flushedState f { c with sendBuf := b } rest failed new
        ((s.log e).setConn f { c with sendBuf := b })
      = flushedState f c rest failed (new ++ [e]) s := by
  simp only [flushedState, Server.setConn, Server.logs, Server.log, AssocList.replace_replace,
    List.append_assoc, List.singleton_append]

theorem flushLoop_eq {k : Kernel} {f : Fd} {n : Nat} {s : Server} {c : Connection}
    (hc : s.gConnections.lookup f = some c) (hfd : c.fd = f) (hn : c.sendBuf.length ≤ n) :
    ∃ w rest new,
      Flushed f c.sendBuf w rest (writeFails k f n s.trace.length c.sendBuf.length) new ∧
      flushLoop k f n s = some (flushedState f c rest
        (writeFails k f n s.trace.length c.sendBuf.length) new s) := by
  induction n generalizing s c with
  | zero =>
    have he : c.sendBuf = [] := List.length_eq_zero_iff.mp (by omega)
    refine ⟨[], c.sendBuf, [.epollMod f false (k.epollCtl s.trace.length f)],
      ⟨rfl, .cons rfl (.nil f), rfl, by simp [writeFails], fun _ => ⟨_, _, by rw [he]; rfl⟩⟩, ?_⟩
    rw [flushedState_unsent hc]
    simp [flushLoop, hc, hfd, updateEpollEvents, writeFails, Server.log, Server.logs]
  | succ n ih =>
    by_cases he : c.sendBuf = []
    · refine ⟨[], c.sendBuf, [.epollMod f false (k.epollCtl s.trace.length f)],
        ⟨rfl, .cons rfl (.nil f), rfl, by simp [writeFails, he],
          fun _ => ⟨_, _, by rw [he]; rfl⟩⟩, ?_⟩
      rw [flushedState_unsent hc]
      simp [flushLoop, hc, hfd, he, updateEpollEvents, writeFails, Server.log, Server.logs]
    · have hlen : c.sendBuf.length ≠ 0 := by simpa using he
      subst hfd
      simp only [flushLoop, hc, Option.bind_eq_bind, Option.bind_some, List.isEmpty_iff, he,
        if_false, writeFails, hlen]
      cases hw : k.write s.trace.length c.fd with
      | wrote m =>
        let a := c.sendBuf.take (min (m + 1) c.sendBuf.length)
        let c' : Connection := { c with sendBuf := c.sendBuf.drop (min (m + 1) c.sendBuf.length) }
        have hc' : ((s.log (.write c.fd a)).setConn c.fd c').gConnections.lookup c.fd = some c' :=
          Server.setConn_lookup_self hc
        have hl : c'.sendBuf.length = c.sendBuf.length - min (m + 1) c.sendBuf.length :=
          List.length_drop ..
        obtain ⟨w, rest, new, hF, hr⟩ := ih hc' rfl (by omega)
        rw [hl] at hF hr
        refine ⟨a ++ w, rest, new ++ [.write c.fd a], ?_, ?_⟩
        · have := hF.sent (a := a)
          rwa [List.take_append_drop] at this
        · rw [← flushedState_sent c.fd c c'.sendBuf]
          exact hr
      | again =>
        refine ⟨[], c.sendBuf,
          [.epollMod c.fd true (k.epollCtl (s.trace.length + 1) c.fd), .writeAgain c.fd],
          ⟨rfl, .cons rfl (.cons rfl (.nil _)), rfl, by simp,
            fun _ => ⟨k.epollCtl (s.trace.length + 1) c.fd, [.writeAgain c.fd], by simp [he]⟩⟩, ?_⟩
        rw [flushedState_unsent hc]
        simp [updateEpollEvents, Server.log, Server.logs]
      | fail =>
        refine ⟨[], c.sendBuf, [.writeFail c.fd],
          ⟨rfl, .cons rfl (.nil _), rfl, by simp, fun h => nomatch h⟩, ?_⟩
        rw [flushedState_unsent hc]
        rfl

/-- **The effect of `flush_send_buffer`** on a connection stored under its own
descriptor. -/
theorem flushSendBuffer_eq {k : Kernel} {f : Fd} {s : Server} {c : Connection}
    (hc : s.gConnections.lookup f = some c) (hfd : c.fd = f) (hf : 0 ≤ f) :
    ∃ w rest new,
      Flushed f c.sendBuf w rest (flushFails k f s.trace.length c.sendBuf) new ∧
      flushSendBuffer k f s = some
        (flushedState f c rest (flushFails k f s.trace.length c.sendBuf) new s) := by
  obtain ⟨w, rest, new, hF, hr⟩ := flushLoop_eq (k := k) hc hfd (Nat.le_refl _)
  refine ⟨w, rest, new, hF, ?_⟩
  rw [flushFails, ← hr]
  by_cases he : c.sendBuf = []
  · simp [flushSendBuffer, flushLoop, hc, hfd, he, Int.not_lt.mpr hf]
  · simp [flushSendBuffer, hc, hfd, he, Int.not_lt.mpr hf]

end IsaacP2P.Relay
