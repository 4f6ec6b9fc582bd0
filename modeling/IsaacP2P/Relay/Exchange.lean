import IsaacP2P.Lib.Exchange
import IsaacP2P.Relay.History
import IsaacP2P.Relay.Induction

/-!
# The relay is an addressed exchange

Each connection is a member, its mark the address it claims, and a packet
`[mark][p]` of a registered connection a message `p` posted to `mark`. The acts
are read off the trace (`actions`), and in every reachable state they lead from
the empty board to the one the two maps and the trace show (`server_refines`).
So the results about exchanges hold of the server, whoever connects, registers
and leaves in between.
-/

namespace IsaacP2P.Relay

open Exchange (Act Board)
open LengthPrefixed (frame)

variable {k : Kernel} {s s' : Server} {f : Fd} {tr : List Ev}

/-- What an event after the trace `tr` is on the board. -/
def actOf (tr : List Ev) : Ev → List (Act Fd (List UInt8) (List UInt8))
  | .accept f => [.join f]
  | .register f mark => [.claim f mark]
  | .packet a data =>
    if (markOf a tr).isSome ∧ data.drop markSize ≠ [] then
      [.post a (data.take markSize) (data.drop markSize)]
    else []
  | .close f => [.leave f]
  | _ => []

/-- The acts of a trace, in their order. -/
def actions : List Ev → List (Act Fd (List UInt8) (List UInt8))
  | [] => []
  | e :: tr => actions tr ++ actOf tr e

/-- The board a trace shows. -/
def boardOf (tr : List Ev) : Board Fd (List UInt8) (List UInt8) where
  members f := if isOpen f tr then some (markOf f tr) else none
  inbox f := deliveries f tr

/-- The board the server shows: its maps, and the payloads each connection is owed. -/
def Server.board (s : Server) : Board Fd (List UInt8) (List UInt8) where
  members f := (s.gConnections.lookup f).map Connection.regMark
  inbox f := deliveries f s.trace

theorem Inv.boardOf_eq (hi : Inv s) : boardOf s.trace = s.board := by
  ext1
  · funext f
    have hm := hi.marked f
    show (if isOpen f s.trace then some (markOf f s.trace) else none) = _
    rw [hi.opened, hm]
    cases hc : s.gConnections.lookup f with
    | none => simp [Server.board, hc]
    | some c => simp [Server.board, hc, Server.markAt_of_lookup hc]
  · rfl

theorem boardOf_addr (h : ∀ g, markOf g tr ≠ none → isOpen g tr = true) (f : Fd) :
    (boardOf tr).addr f = markOf f tr := by
  show (if isOpen f tr then some (markOf f tr) else none).join = _
  cases ho : isOpen f tr with
  | true => rfl
  | false =>
    cases hm : markOf f tr with
    | none => rfl
    | some m =>
      have := h f (by simp [hm])
      rw [ho] at this
      cases this

/-! ## Lawful traces -/

/-- Only closed descriptors are accepted, a registration takes a free mark for an
open connection without one, and only open connections are registered when a
packet is processed. -/
def Lawful : List Ev → Prop
  | [] => True
  | .accept f :: tr => isOpen f tr = false ∧ Lawful tr
  | .register f mark :: tr =>
    (isOpen f tr = true ∧ markOf f tr = none ∧ (∀ g, markOf g tr ≠ none → isOpen g tr = true) ∧
      ∀ g, markOf g tr ≠ some mark) ∧ Lawful tr
  | .packet _ _ :: tr => (∀ g, markOf g tr ≠ none → isOpen g tr = true) ∧ Lawful tr
  | _ :: tr => Lawful tr

theorem lawful_output {new : List Ev} (h : OutputOn f new) (tr : List Ev) :
    Lawful (new ++ tr) = Lawful tr :=
  h.ignored (fun e tr he => by cases e <;> first | exact he.elim | rfl) tr

theorem Inv.open_of_mark (hi : Inv s) {g : Fd} (h : markOf g s.trace ≠ none) :
    isOpen g s.trace = true := by
  rw [hi.marked] at h
  obtain ⟨m, hm⟩ := Option.ne_none_iff_exists'.mp h
  obtain ⟨c, hc, -⟩ := Server.markAt_eq_some.mp hm
  rw [hi.opened, hc]
  rfl

theorem flushedState_lawful {c : Connection} {buf w rest : List UInt8} {failed : Bool}
    {new : List Ev} (hF : Flushed f buf w rest failed new) (hs : Lawful s.trace) :
    Lawful (flushedState f c rest failed new s).trace := by
  have hout := lawful_output hF.output s.trace
  rw [flushedState_trace]
  cases failed with
  | false => exact hout.mpr hs
  | true => exact hout.mpr hs

theorem Outcome.lawful {a : Fd} {c : Connection} {p : List UInt8} {more : Bool}
    (h : Outcome k a c p s more s') (hi : Inv s) (hc : s.gConnections.lookup a = some c)
    (hs : Lawful s.trace) : Lawful s'.trace := by
  have hpacket : Lawful (.packet a p :: s.trace) := ⟨fun g => hi.open_of_mark, hs⟩
  cases h with
  | wrongLength _ _ | taken _ _ _ | dropped _ _ => exact hpacket
  | registers hr _ hk =>
    refine ⟨⟨?_, ?_, fun g => hi.open_of_mark, fun g hg => ?_⟩, hpacket⟩
    · show isOpen a s.trace = true
      rw [hi.opened, hc]
      rfl
    · show markOf a s.trace = none
      rw [hi.marked, Server.markAt_of_lookup hc, Connection.regMark, hr]
      rfl
    · have hg' : s.markAt g = some p := (hi.marked g).symm.trans hg
      rw [hi.owner.mpr ⟨p, hg', rfl⟩] at hk
      cases hk
  | forwards _ _ _ _ _ _ hF => exact flushedState_lawful hF hpacket

theorem Accepts.lawful (h : Accepts k s s') (hs : Lawful s.trace) : Lawful s'.trace := by
  cases h with
  | nothing _ => exact hs
  | @refused f new hf _ hnew =>
    have hopen := (Server.free_iff.mp (free_of_accept hf)).2.2.2
    rcases hnew with rfl | ⟨ok, rfl⟩ <;> exact ⟨hopen, hs⟩
  | accepted hf => exact ⟨(Server.free_iff.mp (free_of_accept hf.1)).2.2.2, hs⟩

theorem lawful_kept : Kept (fun s => Lawful s.trace) where
  read _ _ _ hs := hs
  recv _ _ _ hs := hs
  outcome hi hc _ h hs := h.lawful hi hc hs
  flushed _ _ hF hs := flushedState_lawful hF hs
  close f _ hs := by
    rw [closeConnection_trace]
    exact hs
  accepts _ h hs := h.lawful hs

/-! ## The board follows the trace -/

theorem step_boardOf {e : Ev} (h : Lawful (e :: tr)) :
    Runs.run Exchange.step (actOf tr e) (boardOf tr) = some (boardOf (e :: tr)) := by
  cases e with
  | accept f =>
    have hnone : (boardOf tr).members f = none := by
      show (if isOpen f tr then some (markOf f tr) else none) = none
      rw [h.1]
      rfl
    show (Exchange.step (.join f) (boardOf tr)).bind _ = _
    rw [Exchange.step_join hnone, Option.bind_some, Runs.run_nil]
    congr 1
    ext1
    · funext g
      by_cases hg : f = g
      · simp [boardOf, Board.setMember, Board.clearInbox, isOpen, markOf, hg]
      · simp [boardOf, Board.setMember, Board.clearInbox, isOpen, markOf, hg, Ne.symm hg]
    · funext g
      by_cases hg : f = g
      · simp [boardOf, Board.setMember, Board.clearInbox, deliveries, hg]
      · simp [boardOf, Board.setMember, Board.clearInbox, deliveries, hg, Ne.symm hg]
  | register f mark =>
    obtain ⟨⟨hopen, hnone, hall, hfree⟩, -⟩ := h
    have hmember : (boardOf tr).members f = some none := by
      show (if isOpen f tr then some (markOf f tr) else none) = some none
      rw [hopen, hnone]
      rfl
    have hfree' : ∀ g, (boardOf tr).addr g ≠ some mark := by
      intro g
      rw [boardOf_addr hall]
      exact hfree g
    show (Exchange.step (.claim f mark) (boardOf tr)).bind _ = _
    rw [Exchange.step_claim hmember hfree', Option.bind_some, Runs.run_nil]
    congr 1
    ext1
    · funext g
      by_cases hg : f = g
      · subst hg
        simp [boardOf, Board.setMember, isOpen, markOf, hopen]
      · simp [boardOf, Board.setMember, isOpen, markOf, hg, Ne.symm hg]
    · rfl
  | packet a data =>
    have hmembers : (boardOf (.packet a data :: tr)).members = (boardOf tr).members := rfl
    cases hm : markOf a tr with
    | none =>
      have hinbox : (boardOf (.packet a data :: tr)).inbox = (boardOf tr).inbox := by
        funext t
        simp only [boardOf, deliveries, hm]
      rw [actOf, if_neg (by simp [hm]), Runs.run_nil]
      exact congrArg some (Board.ext hmembers hinbox).symm
    | some m =>
      have hinbox : ∀ t, (boardOf (.packet a data :: tr)).inbox t = deliveries t tr ++
          (markOf t tr).elim [] fun mark => (payloadFor mark data).toList.map (a, ·) := by
        intro t
        simp only [boardOf, deliveries, hm]
        cases markOf t tr with
        | none => exact (List.append_nil _).symm
        | some mark => rfl
      by_cases hd : data.drop markSize = []
      · rw [actOf, if_neg (by simp [hd]), Runs.run_nil]
        refine congrArg some (Board.ext hmembers ?_).symm
        funext t
        rw [hinbox]
        cases markOf t tr <;> simp [payloadFor, hd, boardOf]
      · have haddr : (boardOf tr).addr a ≠ none := by
          rw [boardOf_addr h.1, hm]
          simp
        rw [actOf, if_pos ⟨by simp [hm], hd⟩]
        show (Exchange.step (.post a _ _) (boardOf tr)).bind _ = _
        rw [Exchange.step_post haddr, Option.bind_some, Runs.run_nil]
        refine congrArg some (Board.ext hmembers.symm ?_)
        funext t
        rw [hinbox]
        show deliveries t tr ++ (if (boardOf tr).addr t = some _ then _ else _) = _
        rw [boardOf_addr h.1]
        cases markOf t tr with
        | none => rfl
        | some mark =>
          by_cases ht : data.take markSize = mark
          · simp [payloadFor, ht, hd]
          · simp [payloadFor, ht, Ne.symm ht]
  | close f =>
    show some ((boardOf tr).setMember f none) = _
    congr 1
    ext1
    · funext g
      by_cases hg : f = g
      · simp [boardOf, Board.setMember, isOpen, hg]
      · simp [boardOf, Board.setMember, isOpen, markOf, hg, Ne.symm hg]
    · rfl
  | _ => rfl

theorem lawful_tail {e : Ev} (h : Lawful (e :: tr)) : Lawful tr := by
  cases e with
  | accept _ | register _ _ | packet _ _ => exact h.2
  | _ => exact h

theorem actions_append (new tr : List Ev) :
    ∃ acts, actions (new ++ tr) = actions tr ++ acts := by
  induction new with
  | nil => exact ⟨[], (List.append_nil _).symm⟩
  | cons e new ih =>
    obtain ⟨acts, ha⟩ := ih
    exact ⟨acts ++ actOf (new ++ tr) e, by rw [List.cons_append, actions, ha, List.append_assoc]⟩

/-- The acts of a lawful trace lead from the empty board to the one it shows. -/
theorem run_actions (h : Lawful tr) :
    Runs.run Exchange.step (actions tr) Exchange.empty = some (boardOf tr) := by
  induction tr with
  | nil => rfl
  | cons e tr ih =>
    rw [actions, Runs.run_append, ih (lawful_tail h), Option.bind_some]
    exact step_boardOf h

theorem reachable_lawful (h : Reachable s) : Lawful s.trace :=
  lawful_kept.reachable (fun _ _ => trivial) h

theorem reachable_board (h : Reachable s) :
    Runs.run Exchange.step (actions s.trace) Exchange.empty = some s.board := by
  rw [run_actions (reachable_lawful h), (reachable_inv h).boardOf_eq]

theorem Server.board_addr (s : Server) (f : Fd) : s.board.addr f = s.markAt f := by
  show ((s.gConnections.lookup f).map Connection.regMark).join = _
  rw [Server.markAt]
  cases s.gConnections.lookup f <;> rfl

/-- What a connection was sent and has waiting is what is in its inbox. -/
theorem Inv.sent_inbox (hi : Inv s) {c : Connection} (hc : s.gConnections.lookup f = some c) :
    written f s.trace ++ c.sendBuf = (s.board.inbox f).flatMap fun d => frame d.2 := by
  rw [hi.out hc, forwarded_eq]
  rfl

/-- **The server refines the exchange**: the acts on its trace lead from the empty
board to the board its maps show, and each connection was sent, or has waiting,
the frames of what is in its inbox. -/
theorem server_refines (h : Reachable s) :
    Runs.run Exchange.step (actions s.trace) Exchange.empty = some s.board ∧
    ∀ f c, s.gConnections.lookup f = some c →
      written f s.trace ++ c.sendBuf = (s.board.inbox f).flatMap fun d => frame d.2 :=
  ⟨reachable_board h, fun _ _ hc => (reachable_inv h).sent_inbox hc⟩

theorem twoClientsEnd_refines :
    Runs.run Exchange.step (actions twoClientsEnd.trace) Exchange.empty = some twoClientsEnd.board ∧
    deliveries 6 twoClientsEnd.trace = [(5, [7, 8, 9])] :=
  ⟨(server_refines twoClientsEnd_reachable).1, by decide +kernel⟩

/-! ## Links -/

/-- **Links through any run**: what `t` is owed from `a` is a subsequence of what
`a` posted, and from a state where `t` is registered until it leaves it is owed
everything posted to its mark meanwhile, in that order, and nothing else. -/
theorem links_in_order (h : Reachable s) {is : List (Kernel × Event)}
    (hr : Runs.run step is s = some s') (a t : Fd) :
    (Exchange.fromMember a (s'.board.inbox t)).Sublist (Exchange.posts a (actions s'.trace)) ∧
    ∃ acts, actions s'.trace = actions s.trace ++ acts ∧
      ∀ c, s.gConnections.lookup t = some c → c.registered = true → .leave t ∉ acts →
        ∃ c', s'.gConnections.lookup t = some c' ∧ c'.registered = true ∧ c'.mark = c.mark ∧
          written t s'.trace ++ c'.sendBuf = written t s.trace ++ c.sendBuf ++
            (Exchange.postsTo c.mark acts).flatMap fun d => frame d.2 := by
  have hi := reachable_inv h
  have h' : Reachable s' := by
    obtain ⟨listenFd, epfd, hs⟩ := h
    exact ⟨listenFd, epfd, hs.run hr⟩
  have hi' := reachable_inv h'
  have hboard' := reachable_board h'
  refine ⟨?_, ?_⟩
  · exact (Exchange.inbox_sublist hboard' a t).trans (by simp [Exchange.empty, Exchange.fromMember])
  · obtain ⟨new, htr⟩ := run_suffix hi hr
    obtain ⟨acts, hacts⟩ := actions_append new s.trace
    rw [htr] at hacts
    refine ⟨acts, hacts, fun c hc hreg hstay => ?_⟩
    have hrun : Runs.run Exchange.step acts s.board = some s'.board := by
      rw [hacts, Runs.run_append, reachable_board h, Option.bind_some] at hboard'
      exact hboard'
    have haddr : s.board.addr t = some c.mark := by
      rw [Server.board_addr]
      exact Server.markAt_eq_some.mpr ⟨c, hc, hreg, rfl⟩
    obtain ⟨hheld, hinbox⟩ := Exchange.inbox_of_held hrun haddr hstay
    rw [Server.board_addr] at hheld
    obtain ⟨c', hc', hreg', hmark⟩ := Server.markAt_eq_some.mp hheld
    refine ⟨c', hc', hreg', hmark, ?_⟩
    rw [hi'.sent_inbox hc', hi.sent_inbox hc, hinbox, List.flatMap_append]

/-- Another packet over the link of `twoClients`. -/
def secondPacket : List (Kernel × Event) :=
  [({ read := fun _ => .bytes (frame [2, 0, 0, 0, 0, 0, 0, 0, 10]) }, { fd := 5, input := true })]

theorem twoClientsEnd_link : ∃ s', Runs.run step secondPacket twoClientsEnd = some s' ∧
    (Exchange.fromMember 5 (s'.board.inbox 6)).Sublist (Exchange.posts 5 (actions s'.trace)) ∧
    deliveries 6 s'.trace = [(5, [7, 8, 9]), (5, [10])] := by
  let s' := (Runs.run step secondPacket twoClientsEnd).get (by decide +kernel)
  have hr : Runs.run step secondPacket twoClientsEnd = some s' := by simp [s']
  exact ⟨s', hr, (links_in_order twoClientsEnd_reachable hr 5 6).1, by decide +kernel⟩

end IsaacP2P.Relay
