import IsaacP2P.Lib.Numerals
import IsaacP2P.Relay.Descriptors
import IsaacP2P.Relay.Induction

/-!
# The server from start to exit

`main` of `server/main.cpp`: the command line, the listening socket, the epoll
instance, the event loop with its signals, and the cleanup. Its log holds the
descriptors the process was given and those it closed. When the process exits
it holds none any more, whatever failed on the way (`exit_leaves_nothing_open`),
and it closed each one once exactly if the loop did (`exit_closes_once_iff`).
-/

namespace IsaacP2P.Relay

open Alternation (Alternates isOn)
open Numerals (leading fitsInt)

variable {s s' : Server} {f : Fd}

/-! ## The program -/

/-- What the kernel answers before the event loop is entered. -/
structure Startup where
  socket : Option Fd := none
  setReuseaddr : Bool := true
  bind : Bool := true
  listen : Bool := true
  getFlags : Bool := true
  setFlags : Bool := true
  epollCreate : Option Fd := none
  epollAdd : Bool := true

/-- What the process was given and gave back: `socket()`, `epoll_create1()` or
`accept()` returned a descriptor, `bind()` took a port for it, `close()` was called. -/
inductive Os where
  | opened (fd : Fd)
  | bound (fd : Fd) (port : UInt16)
  | closed (fd : Fd)
  deriving DecidableEq

/-- `atoi`; what it does on a number that is no `int` is undefined. -/
def atoi (s : List Char) : Option Int := some ((leading s).getD 0) |>.filter fitsInt

def setNonblocking (getFlags setFlags : Bool) : Bool :=
  if !getFlags then false
  else if !setFlags then false
  else true

/-- `htons(port)` takes the low 16 bits; the order of the bytes is the network's. -/
def htons (port : Int) : UInt16 := UInt16.ofNat (port % 65536).toNat

/-- The socket, or `none` for -1; newest event first. -/
def createListenSocket (k : Startup) (port : Int) : Option Fd × List Os :=
  match k.socket.filter (0 ≤ ·) with
  | none => (none, [])
  | some listenFd =>
    if !k.setReuseaddr then (none, [.closed listenFd, .opened listenFd])
    else if !k.bind then (none, [.closed listenFd, .opened listenFd])
    else
      let log := [.bound listenFd (htons port), .opened listenFd]
      if !k.listen then (none, .closed listenFd :: log)
      else if !setNonblocking k.getFlags k.setFlags then (none, .closed listenFd :: log)
      else (some listenFd, log)

def sigInt : Int := 2
def sigTerm : Int := 15
def maxEvents : Nat := 8

def signalHandler (signum : Int) (gRunning : Bool) : Bool :=
  if signum = sigInt ∨ signum = sigTerm then false else gRunning

/-- `epoll_wait`: `EINTR`, another error, or events with the kernel's answers while
each is dispatched; none at a timeout. -/
inductive Waited where
  | interrupted
  | failed
  | events (batch : List (Kernel × Event))

/-- One round of the main loop: the signals that arrived since the last test of
`g_running`, and what `epoll_wait` answers. -/
structure Round where
  signals : List Int := []
  wait : Waited := .events []

/-- The main loop, while the rounds last; the flag says whether it was left.
`epoll_wait` fills at most `maxEvents` entries. -/
def mainLoop : List Round → Bool → Server → Option (Bool × Server)
  | [], _, s => some (false, s)
  | r :: rs, gRunning, s =>
    let gRunning := r.signals.foldl (fun g signum => signalHandler signum g) gRunning
    if !gRunning then some (true, s)
    else match r.wait with
      | .interrupted => mainLoop rs gRunning s
      | .failed => some (true, s)
      | .events batch => (Runs.run step (batch.take maxEvents) s).bind (mainLoop rs gRunning)

/-- The clients' descriptors are closed and both maps cleared. -/
def closeClients (s : Server) : Server :=
  { s with
    gConnections := ∅
    gMarkToFd := ∅
    trace := (s.gConnections.keys.map Ev.close).reverse ++ s.trace }

def osOf : List Ev → List Os := List.filterMap fun
  | .accept f => some (.opened f)
  | .close f => some (.closed f)
  | _ => none

/-- The exit code, `none` while the loop runs, and the log of the process. -/
structure Progress where
  code : Option Nat
  log : List Os
  deriving DecidableEq

/-- `main`. The kernel hands out free descriptor numbers only. -/
def main (k : Startup) (argv : List (List Char)) (rounds : List Round) : Option Progress :=
  match argv with
  | [_, arg] => do
    let port ← atoi arg
    if port ≤ 0 || port > 65535 then some ⟨some 1, []⟩
    else match createListenSocket k port with
      | (none, log) => some ⟨some 1, log⟩
      | (some listenFd, log) =>
        match k.epollCreate.filter fun f => decide (0 ≤ f) && f != listenFd with
        | none => some ⟨some 1, .closed listenFd :: log⟩
        | some epfd =>
          let log := .opened epfd :: log
          if !k.epollAdd then some ⟨some 1, .closed listenFd :: .closed epfd :: log⟩
          else do
            let (left, s) ← mainLoop rounds true (start listenFd epfd)
            if left then
              some ⟨some 0,
                .closed s.listenFd :: .closed s.epfd :: (osOf (closeClients s).trace ++ log)⟩
            else some ⟨none, osOf s.trace ++ log⟩
  | _ => some ⟨some 1, []⟩

/-! ## The loop is a run -/

/-- The events the loop dispatches. -/
def dispatched : List Round → Bool → List (Kernel × Event)
  | [], _ => []
  | r :: rs, gRunning =>
    let gRunning := r.signals.foldl (fun g signum => signalHandler signum g) gRunning
    if !gRunning then []
    else match r.wait with
      | .interrupted => dispatched rs gRunning
      | .failed => []
      | .events batch => batch.take maxEvents ++ dispatched rs gRunning

/-- The loop is left: a signal said so, or `epoll_wait` failed. -/
def leaves : List Round → Bool → Bool
  | [], _ => false
  | r :: rs, gRunning =>
    let gRunning := r.signals.foldl (fun g signum => signalHandler signum g) gRunning
    if !gRunning then true
    else match r.wait with
      | .failed => true
      | _ => leaves rs gRunning

/-- **The main loop is a run** of the events it dispatches. -/
theorem mainLoop_eq (rounds : List Round) (gRunning : Bool) (s : Server) :
    mainLoop rounds gRunning s =
      (Runs.run step (dispatched rounds gRunning) s).map (leaves rounds gRunning, ·) := by
  induction rounds generalizing gRunning s with
  | nil => rfl
  | cons r rs ih =>
    simp only [mainLoop, dispatched, leaves]
    generalize r.signals.foldl (fun g signum => signalHandler signum g) gRunning = g
    cases g with
    | false => rfl
    | true =>
      simp only [Bool.not_true, Bool.false_eq_true, if_false]
      cases r.wait with
      | interrupted => exact ih true s
      | failed => rfl
      | events batch =>
        simp only [Runs.run_append]
        cases Runs.run step (batch.take maxEvents) s with
        | none => rfl
        | some m => exact ih true m

/-! ## Descriptors -/

/-- The times the process was given the descriptor (`true`) and closed it (`false`),
newest first. -/
def switches (f : Fd) : List Os → List Bool
  | [] => []
  | .opened g :: log => if g = f then true :: switches f log else switches f log
  | .closed g :: log => if g = f then false :: switches f log else switches f log
  | .bound _ _ :: log => switches f log

theorem switches_append (f : Fd) (new log : List Os) :
    switches f (new ++ log) = switches f new ++ switches f log := by
  induction new with
  | nil => rfl
  | cons e new ih =>
    cases e with
    | opened g | closed g =>
      simp only [List.cons_append, switches, ih]
      split <;> rfl
    | bound _ _ => exact ih

theorem switches_osOf (f : Fd) (tr : List Ev) : switches f (osOf tr) = handovers f tr := by
  induction tr with
  | nil => rfl
  | cons e tr ih =>
    cases e with
    | accept g | close g =>
      simp only [osOf, List.filterMap_cons, switches, handovers]
      exact if_congr Iff.rfl (congrArg _ ih) ih
    | _ => exact ih

theorem isOn_closed_cons (f g : Fd) (log : List Os) :
    isOn (switches f (.closed g :: log)) = (if g = f then false else isOn (switches f log)) := by
  rw [switches]
  split <;> rfl

theorem isOpen_closes (f : Fd) (fds : List Fd) (tr : List Ev) :
    isOpen f (fds.map Ev.close ++ tr) = if f ∈ fds then false else isOpen f tr := by
  induction fds with
  | nil => rfl
  | cons g fds ih =>
    simp only [List.map_cons, List.cons_append, isOpen, ih]
    by_cases hg : g = f
    · simp [hg]
    · simp [hg, Ne.symm hg]

/-! ## How the process ends -/

/-- Nothing is open, and everything was closed once. -/
def Balanced (log : List Os) : Prop :=
  ∀ f, Alternates (switches f log) ∧ isOn (switches f log) = false

theorem balanced_nil : Balanced [] := fun _ => ⟨trivial, rfl⟩

/-- The listening socket was opened, perhaps bound, and closed. -/
theorem balanced_socket (l : Fd) (log : List Os) (h : ∀ e ∈ log, ∃ port, e = .bound l port) :
    Balanced (.closed l :: (log ++ [.opened l])) := by
  have hnil : ∀ f, switches f log = [] := by
    intro f
    induction log with
    | nil => rfl
    | cons e log ih =>
      obtain ⟨port, rfl⟩ := h e (List.mem_cons_self ..)
      exact ih fun e he => h e (List.mem_cons_of_mem _ he)
  intro f
  simp only [switches, switches_append, hnil, List.nil_append]
  by_cases hf : l = f
  · simp [hf, Alternates]
  · simp [hf, Alternates]

def BindsOnly (port : Int) (log : List Os) : Prop := ∀ l p, .bound l p ∈ log → p = htons port

theorem createListenSocket_cases (k : Startup) (port : Int) :
    (∃ log, createListenSocket k port = (none, log) ∧ Balanced log ∧ BindsOnly port log) ∨
    ∃ l, k.socket = some l ∧
      createListenSocket k port = (some l, [.bound l (htons port), .opened l]) := by
  unfold createListenSocket
  cases hs : k.socket.filter (0 ≤ ·) with
  | none => exact .inl ⟨[], rfl, balanced_nil, by simp [BindsOnly]⟩
  | some l =>
    have hclosed := balanced_socket l [] (by simp)
    have hbound := balanced_socket l [.bound l (htons port)] (by simp)
    simp only
    cases k.setReuseaddr with
    | false => exact .inl ⟨_, rfl, hclosed, by simp [BindsOnly]⟩
    | true =>
      cases k.bind with
      | false => exact .inl ⟨_, rfl, hclosed, by simp [BindsOnly]⟩
      | true =>
        cases k.listen with
        | false => exact .inl ⟨_, rfl, hbound, by simp [BindsOnly]⟩
        | true =>
          cases setNonblocking k.getFlags k.setFlags with
          | false => exact .inl ⟨_, rfl, hbound, by simp [BindsOnly]⟩
          | true => exact .inr ⟨l, (Option.filter_eq_some_iff.mp hs).1, rfl⟩

def startLog (l e : Fd) (port : Int) : List Os := [.opened e, .bound l (htons port), .opened l]

/-- The command line names the port; a number that is no `int` names none. -/
def Names (argv : List (List Char)) (port : Int) : Prop :=
  ∃ prog arg, argv = [prog, arg] ∧ atoi arg = some port ∧ 0 < port ∧ port ≤ 65535

/-- The ways `main` ends: before the loop is entered, in the loop, or behind it. -/
inductive Ends (k : Startup) (argv : List (List Char)) (rounds : List Round) : Progress → Prop where
  | unused : Ends k argv rounds ⟨some 1, []⟩
  | failed {log : List Os} {port : Int} : Names argv port → Balanced log → BindsOnly port log →
      Ends k argv rounds ⟨some 1, log⟩
  | entered {l e : Fd} {port : Int} {s : Server} : Names argv port → k.socket = some l →
      k.epollCreate = some e → e ≠ l →
      Runs.run step (dispatched rounds true) (start l e) = some s →
      Ends k argv rounds (if leaves rounds true then
        ⟨some 0, .closed s.listenFd :: .closed s.epfd ::
          (osOf (closeClients s).trace ++ startLog l e port)⟩
        else ⟨none, osOf s.trace ++ startLog l e port⟩)

theorem main_ends {k : Startup} {argv : List (List Char)} {rounds : List Round} {p : Progress}
    (h : main k argv rounds = some p) : Ends k argv rounds p := by
  unfold main at h
  split at h
  · rename_i prog arg
    obtain ⟨n, hn, h⟩ := Option.bind_eq_some_iff.mp h
    by_cases hport : n ≤ 0 ∨ n > 65535
    · rw [if_pos (by simpa using hport)] at h
      cases h
      exact .unused
    · rw [if_neg (by simpa using hport)] at h
      have hnames : Names [prog, arg] n := ⟨prog, arg, rfl, hn, by omega, by omega⟩
      rcases createListenSocket_cases k n with ⟨log, hc, hlog, hbinds⟩ | ⟨l, hl, hc⟩
      · rw [hc] at h
        cases h
        exact .failed hnames hlog hbinds
      · rw [hc] at h
        simp only at h
        split at h
        · cases h
          exact .failed hnames (balanced_socket l [.bound l (htons n)] (by simp))
            (by simp [BindsOnly])
        · rename_i e he
          obtain ⟨he, hfree⟩ := Option.filter_eq_some_iff.mp he
          have hne : e ≠ l := by simpa using (Bool.and_eq_true_iff.mp hfree).2
          cases hadd : k.epollAdd with
          | false =>
            rw [hadd] at h
            cases h
            refine .failed hnames (fun f => ?_) (by simp [BindsOnly])
            by_cases hf : l = f
            · subst hf
              simp [switches, hne, Alternates]
            · by_cases hf' : e = f <;> simp [switches, hf, hf', Alternates]
          | true =>
            simp only [hadd, Bool.not_true, Bool.false_eq_true, if_false, mainLoop_eq] at h
            obtain ⟨⟨left, s⟩, hs, h⟩ := Option.bind_eq_some_iff.mp h
            obtain ⟨s', hs', heq⟩ := Option.map_eq_some_iff.mp hs
            cases heq
            have hend := Ends.entered hnames hl he hne hs'
            split at h
            · rw [if_pos ‹_›] at hend
              cases h
              exact hend
            · rw [if_neg ‹_›] at hend
              cases h
              exact hend
  · cases h
    exact .unused

theorem closeClients_closed (hi : Inv s) (f : Fd) : isOpen f (closeClients s).trace = false := by
  show isOpen f ((s.gConnections.keys.map Ev.close).reverse ++ s.trace) = false
  rw [← List.map_reverse, isOpen_closes]
  split
  · rfl
  · rename_i hf
    rw [List.mem_reverse, ← AList.mem_keys] at hf
    rw [hi.opened, AList.lookup_eq_none.mpr hf]
    rfl

theorem htons_toNat {port : Int} (h0 : 0 < port) (h1 : port ≤ 65535) :
    ((htons port).toNat : Int) = port := by
  rw [htons, UInt16.toNat_ofNat']
  omega

theorem Names.bound {argv : List (List Char)} {port : Int} (h : Names argv port) :
    Names argv (htons port).toNat := by
  obtain ⟨prog, arg, hargv, harg, h0, h1⟩ := h
  rw [htons_toNat h0 h1]
  exact ⟨prog, arg, hargv, harg, h0, h1⟩

theorem bound_notMem_osOf (l : Fd) (port : UInt16) (tr : List Ev) : .bound l port ∉ osOf tr := by
  intro h
  obtain ⟨e, -, he⟩ := List.mem_filterMap.mp h
  cases e <;> cases he

/-- What the process holds behind the loop is what it started with and its clients. -/
theorem switches_loop (f l e : Fd) (port : Int) (tr : List Ev) :
    switches f (osOf tr ++ startLog l e port) =
      handovers f tr ++ ((if e = f then [true] else []) ++ if l = f then [true] else []) := by
  rw [switches_append, switches_osOf]
  congr 1
  by_cases he : e = f <;> by_cases hl : l = f <;> simp [startLog, switches, he, hl]

/-- **Nothing is left open**: when the process has exited, with 0 or 1, every
descriptor it was given is closed, and a port was bound only if the command line
names it, whatever failed on the way. -/
theorem exit_leaves_nothing_open {k : Startup} {argv : List (List Char)} {rounds : List Round}
    {code : Nat} {log : List Os} (h : main k argv rounds = some ⟨some code, log⟩) :
    (∀ f, isOn (switches f log) = false) ∧ (code = 0 ∨ code = 1) ∧
    ∀ l port, .bound l port ∈ log → Names argv port.toNat := by
  have hends := main_ends h
  generalize hp : (⟨some code, log⟩ : Progress) = p at hends
  cases hends with
  | unused =>
    cases hp
    exact ⟨fun f => rfl, .inr rfl, by simp⟩
  | failed hnames hlog hbinds =>
    cases hp
    exact ⟨fun f => (hlog f).2, .inr rfl, fun l p hb => hbinds l p hb ▸ hnames.bound⟩
  | @entered l e port s hnames _ _ _ hr =>
    split at hp
    · cases hp
      have hi := Runs.run_invariant step_inv (init_inv l e) hr
      obtain ⟨hl, he⟩ := (fds_kept l e).run (init_inv l e) ⟨rfl, rfl⟩ hr
      refine ⟨fun f => ?_, .inl rfl, fun l' p hb => ?_⟩
      · rw [isOn_closed_cons, isOn_closed_cons, hl, he, switches_loop]
        split
        · rfl
        · split
          · rfl
          · simp only [List.append_nil, isOn_handovers]
            exact closeClients_closed hi f
      · simp only [List.mem_cons, reduceCtorEq, false_or, List.mem_append] at hb
        rcases hb with hb | hb
        · exact absurd hb (bound_notMem_osOf l' p _)
        · simp only [startLog, List.mem_cons, reduceCtorEq, false_or, List.not_mem_nil,
            or_false, Os.bound.injEq] at hb
          exact hb.2 ▸ hnames.bound
    · cases hp

/-- A client, then `SIGTERM`. -/
def clientThenTerm : List Round :=
  [{ wait := .events [({ accept := some 5 }, { fd := 3 })] }, { signals := [sigTerm] }]

/-- The socket is 3 and the epoll instance 4. -/
def startsWell : Startup := { socket := some 3, epollCreate := some 4 }

def onPort27015 : List (List Char) :=
  [['r', 'e', 'l', 'a', 'y', '_', 's', 'e', 'r', 'v', 'e', 'r'], ['2', '7', '0', '1', '5']]

theorem clientThenTerm_main :
    main startsWell onPort27015 clientThenTerm = some ⟨some 0, [.closed 3, .closed 4, .closed 5,
      .opened 5, .opened 4, .bound 3 27015, .opened 3]⟩ := by
  decide +kernel

theorem clientThenTerm_leaves_nothing_open :
    (∀ f, isOn (switches f [.closed 3, .closed 4, .closed 5, .opened 5, .opened 4,
      .bound 3 27015, .opened 3]) = false) ∧ Names onPort27015 27015 :=
  have h := exit_leaves_nothing_open clientThenTerm_main
  ⟨h.1, h.2.2 3 27015 (by decide)⟩

/-! ## Closed once -/

theorem alternates_of_false {log : List Bool} (h : true ∉ log) : Alternates log ↔ log = [] := by
  cases log with
  | nil => exact iff_of_true trivial rfl
  | cons b log =>
    cases b with
    | true => exact absurd (List.mem_cons_self ..) h
    | false =>
      cases log with
      | nil => simp
      | cons b log =>
        cases b with
        | true => exact absurd (List.mem_cons_of_mem _ (List.mem_cons_self ..)) h
        | false => simp

theorem alternates_between {log : List Bool} (h : true ∉ log) :
    Alternates (false :: (log ++ [true])) ↔ log = [] := by
  cases log with
  | nil => simp [Alternates]
  | cons b log =>
    cases b with
    | true => exact absurd (List.mem_cons_self ..) h
    | false => simp

theorem handovers_of_notMem {tr : List Ev} (h : .accept f ∉ tr) : true ∉ handovers f tr := by
  induction tr with
  | nil => exact List.not_mem_nil
  | cons e tr ih =>
    have ih := ih fun hm => h (List.mem_cons_of_mem _ hm)
    cases e with
    | accept g =>
      have hg : g ≠ f := by
        rintro rfl
        exact h (List.mem_cons_self ..)
      rwa [handovers, if_neg hg]
    | close g =>
      rw [handovers]
      split
      · simpa using ih
      · exact ih
    | _ => exact ih

theorem handovers_closes (f : Fd) {fds : List Fd} (hnodup : fds.Nodup) (tr : List Ev) :
    handovers f (fds.map Ev.close ++ tr) = (if f ∈ fds then [false] else []) ++ handovers f tr := by
  induction fds with
  | nil => rfl
  | cons g fds ih =>
    obtain ⟨hg, hnodup⟩ := List.nodup_cons.mp hnodup
    simp only [List.map_cons, List.cons_append, handovers, ih hnodup]
    by_cases hgf : g = f
    · subst hgf
      simp [hg]
    · simp [hgf, Ne.symm hgf]

/-- The cleanup closes each client once. -/
theorem handovers_closeClients (s : Server) (f : Fd) :
    handovers f (closeClients s).trace =
      (if f ∈ s.gConnections then [false] else []) ++ handovers f s.trace := by
  show handovers f ((s.gConnections.keys.map Ev.close).reverse ++ s.trace) = _
  have hmem : f ∈ s.gConnections ↔ f ∈ s.gConnections.keys.reverse := by
    rw [List.mem_reverse, AList.mem_keys]
  have hnodup : s.gConnections.keys.reverse.Nodup :=
    List.nodup_reverse.mpr s.gConnections.nodupKeys
  rw [← List.map_reverse, handovers_closes f hnodup]
  simp only [hmem]

theorem alternates_exit {l e : Fd} {port : Int} (hi : Inv s) (hown : OwnFds s)
    (hl : s.listenFd = l) (he : s.epfd = e) (hne : e ≠ l) :
    (∀ f, Alternates (switches f (.closed l :: .closed e ::
      (osOf (closeClients s).trace ++ startLog l e port)))) ↔ ClosedOnce s.trace := by
  refine forall_congr' fun f => ?_
  rw [switches, switches, switches_loop, handovers_closeClients]
  have hown' : f = l ∨ f = e → f ∉ s.gConnections ∧ true ∉ handovers f s.trace := by
    intro hf
    have hacc : .accept f ∉ s.trace := by
      intro hmem
      obtain ⟨h1, h2⟩ := hown f hmem
      rw [hl] at h1
      rw [he] at h2
      exact hf.elim h1 h2
    refine ⟨fun hmem => hacc (accept_of_isOpen ?_), handovers_of_notMem hacc⟩
    rw [hi.opened]
    exact AList.lookup_isSome.mpr hmem
  by_cases hfl : l = f
  · subst hfl
    obtain ⟨hmem, htrue⟩ := hown' (.inl rfl)
    simp only [if_neg hmem, if_neg hne, if_true, List.nil_append]
    rw [alternates_between htrue, alternates_of_false htrue]
  · by_cases hfe : e = f
    · subst hfe
      obtain ⟨hmem, htrue⟩ := hown' (.inr rfl)
      simp only [if_neg hmem, if_neg hfl, if_true, List.nil_append, List.append_nil]
      rw [alternates_between htrue, alternates_of_false htrue]
    · simp only [if_neg hfl, if_neg hfe, List.append_nil]
      by_cases hmem : f ∈ s.gConnections
      · have hon : isOn (handovers f s.trace) = true := by
          rw [isOn_handovers, hi.opened]
          exact AList.lookup_isSome.mpr hmem
        rw [if_pos hmem, List.singleton_append, Alternation.alternates_cons, hon]
        exact and_iff_right (by simp)
      · rw [if_neg hmem, List.nil_append]

/-- **Closed once**: a process that has exited closed every descriptor it was given
once, and no other, exactly if no event of its loop was for a descriptor that had
been closed. -/
theorem exit_closes_once_iff {k : Startup} {argv : List (List Char)} {rounds : List Round}
    {code : Nat} {log : List Os} (h : main k argv rounds = some ⟨some code, log⟩) :
    (∀ f, Alternates (switches f log)) ↔ ∀ l e, code = 0 → k.socket = some l →
      k.epollCreate = some e → Runs.Meets step OnlyKnown (dispatched rounds true) (start l e) := by
  have hends := main_ends h
  generalize hp : (⟨some code, log⟩ : Progress) = p at hends
  cases hends with
  | unused =>
    cases hp
    exact iff_of_true (fun _ => trivial) fun _ _ h0 => by cases h0
  | failed _ hlog _ =>
    cases hp
    exact iff_of_true (fun f => (hlog f).1) fun _ _ h0 => by cases h0
  | @entered l e port s _ hsock hepoll hne hr =>
    split at hp
    · cases hp
      have hi := Runs.run_invariant step_inv (init_inv l e) hr
      obtain ⟨hl, he⟩ := (fds_kept l e).run (init_inv l e) ⟨rfl, rfl⟩ hr
      have hown := ownFds_kept.run (init_inv l e) (start_ownFds l e) hr
      have hmeets := Runs.run_iff_meets (P := Inv) (Q := fun s => ClosedOnce s.trace)
        (C := OnlyKnown) step_inv step_closedOnce (init_inv l e) hr
      have hstart : ClosedOnce (start l e).trace := fun _ => trivial
      rw [hl, he, alternates_exit hi hown hl he hne, hmeets]
      constructor
      · rintro ⟨-, hm⟩ l' e' - hl' he'
        cases hsock.symm.trans hl'
        cases hepoll.symm.trans he'
        exact hm
      · intro hm
        exact ⟨hstart, hm l e rfl hsock hepoll⟩
    · cases hp

theorem clientThenTerm_closes_once :
    (∀ f, Alternates (switches f [.closed 3, .closed 4, .closed 5, .opened 5, .opened 4,
      .bound 3 27015, .opened 3])) ↔ ∀ l e, 0 = 0 → startsWell.socket = some l →
      startsWell.epollCreate = some e →
      Runs.Meets step OnlyKnown (dispatched clientThenTerm true) (start l e) :=
  exit_closes_once_iff clientThenTerm_main

end IsaacP2P.Relay
