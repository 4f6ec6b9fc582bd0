import IsaacP2P.Hook.Staging
import IsaacP2P.Hook.VTable

/-!
# The injected process and the game's memory

`Injected` is the process beside the memory its table lies in: the injection
thread waits for the game's object, and the game calls through it. The process
of `Hook.step` is what is left when the memory is taken away
(`injected_refines`), and of the game's memory the hook leaves what the game
alone would have made of it (`game_unaffected`).
-/

namespace IsaacP2P.Hook

open Client
open Blocks (Op)

variable {k : Kernel}

/-! ## The process and its memory -/

structure Injected where
  process : Process
  table : Table

inductive Act where
  /-- `InjectionThread`: one round of its wait. -/
  | inject (block : Nat)
  | identify (getSteamID : Fn → Word → CSteamID)
  | register
  | pump
  /-- The game calls a method of its object. -/
  | isAvailable
  | read (pubDest : Bool) (cubDest : UInt32)
  | send (steamIDRemote : CSteamID) (pubData : Option (List UInt8)) (cubData : UInt32)
  | detach
  | game (g : GameStep)

/-- A call of method `i`: `hook` is what the function of the hook does, if that is
what is called; the game's own functions do nothing that is modelled. -/
def Injected.call (i : Nat) (hook : Fn → Option Process) (s : Injected) : Option Injected := do
  match ← s.table.mem.method i with
  | .game _ => some s
  | f => (hook f).map ({ s with process := · })

def Injected.step (i : Kernel × Act) (s : Injected) : Option Injected :=
  match i.2 with
  | .inject block =>
    if s.process.user.injection = .waiting then
      if s.table.mem.intPtr > 0 && s.table.mem.object != .null then do
        let (ok, table) ← hookVTable block s.table
        let process := onHook (fun g => { g with injection := .hooked, tableHooked := ok }) s.process
        some { process, table }
      else some s
    else none
  | .identify getSteamID =>
    if s.process.user.injection = .hooked then do
      let id ← getLocalSteamID getSteamID s.table.mem
      let process :=
        onHook (fun g => { g with injection := .identified, gLocalSteamID := id }) s.process
      some { s with process }
    else none
  | .register =>
    if s.process.user.injection = .identified then
      some { s with process := register i.1 s.process }
    else none
  | .pump =>
    if !s.process.user.gStopPumpThread then
      (p2pRunCallbacks connectionCallback i.1 s.process).map ({ s with process := · })
    else none
  | .isAvailable => s.call vtableIndexIsP2PPacketAvailable fun
    | .isP2PPacketAvailable => (hookIsP2PPacketAvailable i.1 s.process).map (·.2)
    | _ => none
  | .read pubDest cubDest => s.call vtableIndexReadP2PPacket fun
    | .readP2PPacket => some (hookReadP2PPacket pubDest cubDest s.process).2
    | _ => none
  | .send steamIDRemote pubData cubData => s.call vtableIndexSendP2PPacket fun
    | .sendP2PPacket => hookSendP2PPacket i.1 steamIDRemote pubData cubData s.process
    | _ => none
  | .detach => do
    let process ← Hook.detach i.1 s.process
    let table ← unhookVTable s.table
    some { process, table }
  | .game g =>
    if s.table.allows g then (s.table.mem.step g).map fun mem => { s with table.mem := mem }
    else none

/-! ## Who changes the flag -/

variable {w w' : Process}

/-- The flag of the table, and where the injection thread stands. -/
def Globals.phase (g : Globals) : Bool × Injection := (g.tableHooked, g.injection)

theorem hookCallback_phase (peer : PeerID) (e : ConnectionEvent) (w w' : Process)
    (h : hookCallback k peer e w = some w') : w'.user.phase = w.user.phase := by
  unfold hookCallback internalConnectionCallback connectionCallback at h
  split at h
  · split at h
    · dsimp only at h
      split at h <;> cases h
      · rw [p2pSendPacket_user]
        rfl
      · rfl
    · dsimp only at h
      split at h <;> cases h <;> rfl
  · cases h
    rfl

theorem runCallbacks_phase (h : p2pRunCallbacks connectionCallback k w = some w') :
    w'.user.phase = w.user.phase := by
  unfold p2pRunCallbacks at h
  split at h
  · exact (processEvents_acts h).invariant (P := fun v => v.user.phase = w.user.phase)
      (fun _ _ hv ha => (ha.user hookCallback_phase).trans hv) rfl
  · cases h
    rfl

theorem stagePacket_phase (w : Process) : (stagePacket w).user.phase = w.user.phase := by
  unfold stagePacket
  split
  · rfl
  · rename_i size peer _
    obtain ⟨m, hm, -⟩ := p2pReadPacket_pops peer (size != 0) size w
    have hphase : (p2pReadPacket peer (size != 0) size w).2.2.user.phase = w.user.phase := by
      rw [hm]
    split
    · rename_i he
      rw [he] at hphase
      split <;> exact hphase
    · rename_i he
      rw [he] at hphase
      exact hphase

theorem isAvailable_phase {out : Option UInt32}
    (h : hookIsP2PPacketAvailable k w = some (out, w')) : w'.user.phase = w.user.phase := by
  obtain ⟨w₁, h₁, h⟩ := Option.bind_eq_some_iff.mp h
  have hphase : (if !w₁.user.gHasTcpData then stagePacket w₁ else w₁).user.phase = w.user.phase := by
    split
    · exact (stagePacket_phase w₁).trans (runCallbacks_phase h₁)
    · exact runCallbacks_phase h₁
  dsimp only at h
  generalize (if !w₁.user.gHasTcpData then stagePacket w₁ else w₁) = w₂ at h hphase
  split at h <;> cases h <;> exact hphase

theorem readP2PPacket_phase (pubDest : Bool) (cubDest : UInt32) (w : Process) :
    (hookReadP2PPacket pubDest cubDest w).2.user.phase = w.user.phase := by
  unfold hookReadP2PPacket
  split <;> rfl

theorem sendP2PPacket_phase {target : CSteamID} {src : Option (List UInt8)} {cub : UInt32}
    (h : hookSendP2PPacket k target src cub w = some w') : w'.user.phase = w.user.phase := by
  rcases sendP2PPacket_cases h with ⟨-, d, -, rfl⟩ | ⟨-, rfl⟩
  · rw [p2pSendPacket_user]
  · rfl

theorem setAutoReconnect_user (peer : PeerID) (enable : Bool) (baseDelayMs maxDelayMs : UInt32)
    (w : Process) :
    (p2pSetAutoReconnect peer enable baseDelayMs maxDelayMs w).user = w.user := by
  unfold p2pSetAutoReconnect
  split <;> rfl

/-- `DllMain` gives the table back, wherever the injection thread stands. -/
theorem detach_phase (h : detach k w = some w') :
    w'.user.phase = (false, w.user.injection) := by
  obtain ⟨w₁, hh, h⟩ := Option.bind_eq_some_iff.mp h
  cases h
  have hphase : w₁.user.phase = w.user.phase := by
    unfold hangUp at hh
    split at hh
    · obtain ⟨w₂, hd, hh⟩ := Option.bind_eq_some_iff.mp hh
      cases hh
      show w₂.user.phase = _
      unfold p2pDisconnect disconnect at hd
      split at hd
      · split at hd
        · cases hd
          rw [setAutoReconnect_user]
        · rename_i c hc
          obtain ⟨m, hn, ha⟩ := Option.bind_eq_some_iff.mp hd
          have hl : Loses hookCallback k _ c _ w₂ := ⟨hc, m, hn, ha⟩
          rw [hl.user hookCallback_phase, setAutoReconnect_user]
      · cases hd
        rw [setAutoReconnect_user]
    · cases hh
      rfl
  have hinjection := congrArg Prod.snd hphase
  exact Prod.ext rfl hinjection

/-! ## The process refines the one without memory -/

/-- The table and the flag say the same. -/
structure Injected.Agree (s : Injected) : Prop where
  sound : s.table.Sound
  flag : s.process.user.tableHooked = true ↔ s.table.gPNewVTable ≠ .null
  fresh : s.process.user.injection = .waiting → s.table.gPNewVTable = .null

def gameSteps : List (Kernel × Act) → List GameStep
  | [] => []
  | (_, .game g) :: is => g :: gameSteps is
  | _ :: is => gameSteps is

theorem Injected.Agree.process {s : Injected} (h : s.Agree) {w : Process}
    (hw : w.user.phase = s.process.user.phase) : Agree { s with process := w } where
  sound := h.sound
  flag := by
    have := congrArg Prod.fst hw
    exact (iff_of_eq (congrArg (· = true) this)).trans h.flag
  fresh hi := by
    have := congrArg Prod.snd hw
    exact h.fresh (this.symm.trans hi)

/-- A method of the hook is called while the table is hooked only. -/
theorem Injected.call_cases {s s' : Injected} {i : Nat} {hook : Fn → Option Process}
    (ha : s.Agree) (h : s.call i hook = some s') :
    s' = s ∨ ∃ f w, s.process.user.tableHooked = true ∧ hook f = some w ∧
      s' = { s with process := w } := by
  obtain ⟨f, hf, h⟩ := Option.bind_eq_some_iff.mp h
  by_cases hnull : s.table.gPNewVTable = .null
  · have hclean := ha.sound.clean
    rw [Table.unhooked_of_null hnull] at hclean
    obtain ⟨n, rfl⟩ := hclean.method hf
    cases h
    exact .inl rfl
  · cases f with
    | game n =>
      cases h
      exact .inl rfl
    | _ =>
      obtain ⟨w, hw, rfl⟩ := Option.map_eq_some_iff.mp h
      exact .inr ⟨_, w, ha.flag.mpr hnull, hw, rfl⟩

/-- **Step**: what an act does to the process is nothing, or a step of it; what it does
to the memory without the hook is nothing, or the game's step. -/
theorem Injected.step_agree {i : Kernel × Act} {s s' : Injected} (ha : s.Agree)
    (h : Injected.step i s = some s') :
    s'.Agree ∧ (s'.process = s.process ∨ ∃ j, Hook.step j s.process = some s'.process) ∧
    Runs.run Memory.step (gameSteps [i]) s.table.unhooked = some s'.table.unhooked := by
  obtain ⟨k, act⟩ := i
  cases act with
  | inject block =>
    simp only [Injected.step] at h
    split at h
    · rename_i hwait
      split at h
      · obtain ⟨⟨ok, table⟩, hh, h⟩ := Option.bind_eq_some_iff.mp h
        cases h
        obtain ⟨hsound, hun, hok⟩ := hookVTable_sound ha.sound (ha.fresh hwait) hh
        refine ⟨⟨hsound, hok, fun hi => nomatch hi⟩, .inr ⟨(k, .hookVTable ok), ?_⟩, ?_⟩
        · exact if_pos hwait
        · rw [Table.unhooked_of_null (ha.fresh hwait)]
          exact congrArg some hun.symm
      · cases h
        exact ⟨ha, .inl rfl, rfl⟩
    · cases h
  | identify getSteamID =>
    simp only [Injected.step] at h
    split at h
    · rename_i hhooked
      obtain ⟨id, -, h⟩ := Option.bind_eq_some_iff.mp h
      cases h
      exact ⟨⟨ha.sound, ha.flag, fun hi => nomatch hi⟩, .inr ⟨(k, .identify id), if_pos hhooked⟩, rfl⟩
    · cases h
  | register =>
    simp only [Injected.step] at h
    split at h
    · rename_i hid
      cases h
      have huser : (register k s.process).user =
          (onHook (fun s => { s with injection := .done }.note
            (.registration s.gLocalSteamID)) s.process).user := p2pSendPacket_user _ _ _
      refine ⟨⟨ha.sound, ?_, fun hi => ?_⟩, .inr ⟨(k, .register), if_pos hid⟩, rfl⟩
      · rw [huser]
        exact ha.flag
      · rw [huser] at hi
        cases hi
    · cases h
  | pump =>
    simp only [Injected.step] at h
    split at h
    · rename_i hstop
      obtain ⟨w, hw, rfl⟩ := Option.map_eq_some_iff.mp h
      exact ⟨ha.process (runCallbacks_phase hw), .inr ⟨(k, .pump), (if_pos hstop).trans hw⟩, rfl⟩
    · cases h
  | isAvailable =>
    rcases Injected.call_cases ha h with rfl | ⟨f, w, hflag, hw, rfl⟩
    · exact ⟨ha, .inl rfl, rfl⟩
    · cases f with
      | isP2PPacketAvailable =>
        obtain ⟨⟨out, w⟩, hr, rfl⟩ := Option.map_eq_some_iff.mp hw
        refine ⟨ha.process (isAvailable_phase hr), .inr ⟨(k, .isAvailable), ?_⟩, rfl⟩
        exact (if_pos hflag).trans hw
      | _ => cases hw
  | read pubDest cubDest =>
    rcases Injected.call_cases ha h with rfl | ⟨f, w, hflag, hw, rfl⟩
    · exact ⟨ha, .inl rfl, rfl⟩
    · cases f with
      | readP2PPacket =>
        cases hw
        exact ⟨ha.process (readP2PPacket_phase ..), .inr ⟨(k, .read pubDest cubDest), if_pos hflag⟩,
          rfl⟩
      | _ => cases hw
  | send target src cub =>
    rcases Injected.call_cases ha h with rfl | ⟨f, w, hflag, hw, rfl⟩
    · exact ⟨ha, .inl rfl, rfl⟩
    · cases f with
      | sendP2PPacket =>
        exact ⟨ha.process (sendP2PPacket_phase hw),
          .inr ⟨(k, .send target src cub), (if_pos hflag).trans hw⟩, rfl⟩
      | _ => cases hw
  | detach =>
    obtain ⟨w, hw, h⟩ := Option.bind_eq_some_iff.mp h
    obtain ⟨table, ht, h⟩ := Option.bind_eq_some_iff.mp h
    cases h
    obtain ⟨hsound, hmem, hnull⟩ := unhookVTable_sound ha.sound ht
    have hphase := detach_phase hw
    refine ⟨⟨hsound, ?_, fun _ => hnull⟩, .inr ⟨(k, .detach), hw⟩, ?_⟩
    · have := congrArg Prod.fst hphase
      exact iff_of_false (fun hf => by cases this.symm.trans hf) fun hne => hne hnull
    · rw [Table.unhooked_of_null hnull, hmem]
      rfl
  | game g =>
    simp only [Injected.step] at h
    split at h
    · rename_i hallow
      obtain ⟨m, hm, rfl⟩ := Option.map_eq_some_iff.mp h
      obtain ⟨hsound, hun⟩ := ha.sound.game hallow hm
      refine ⟨⟨hsound, ha.flag, ha.fresh⟩, .inl rfl, ?_⟩
      exact Runs.run_cons_iff.mpr ⟨_, hun, rfl⟩
    · cases h

theorem gameSteps_cons (i : Kernel × Act) (is : List (Kernel × Act)) :
    gameSteps (i :: is) = gameSteps [i] ++ gameSteps is := by
  obtain ⟨k, act⟩ := i
  cases act <;> rfl

theorem Injected.run_agree {is : List (Kernel × Act)} {s s' : Injected} (ha : s.Agree)
    (h : Runs.run Injected.step is s = some s') :
    s'.Agree ∧ Runs.Reachable Hook.step s.process s'.process ∧
    Runs.run Memory.step (gameSteps is) s.table.unhooked = some s'.table.unhooked := by
  induction is generalizing s with
  | nil =>
    cases h
    exact ⟨ha, .refl _, rfl⟩
  | cons i is ih =>
    obtain ⟨m, hm, hr⟩ := Runs.run_cons_iff.mp h
    obtain ⟨ham, hstep, hgame⟩ := Injected.step_agree ha hm
    obtain ⟨ha', ⟨js, hjs⟩, hgame'⟩ := ih ham hr
    refine ⟨ha', ?_, ?_⟩
    · rcases hstep with he | ⟨j, hj⟩
      · exact ⟨js, he ▸ hjs⟩
      · exact ⟨j :: js, Runs.run_cons_iff.mpr ⟨_, hj, hjs⟩⟩
    · rw [gameSteps_cons, Runs.run_append, hgame, Option.bind_some, hgame']

theorem attach_phase {ip : Text} {port : UInt16} (h : attach k ip port = some w) :
    w.user.phase = (false, .waiting) := by
  rcases attach_cases h with ⟨m, -, rfl⟩ | ⟨sock, -, rfl⟩
  · rfl
  · rw [setAutoReconnect_user]
    rfl

theorem attach_agree {ip : Text} {port : UInt16} {m : Memory} (h : attach k ip port = some w)
    (hm : Clean m.heap) : Injected.Agree ⟨w, { mem := m }⟩ := by
  have hphase := attach_phase h
  refine ⟨⟨.inl rfl, hm⟩, ?_, fun _ => rfl⟩
  have hflag := congrArg Prod.fst hphase
  exact iff_of_false (fun hf => by cases hflag.symm.trans hf) fun hne => hne rfl

/-- **The process refines the one without memory**: whatever the game does to its memory,
within `Table.allows`, and whenever it creates its object, the process is in a state that it
reaches with a flag in the place of the table. -/
theorem injected_refines {ip : Text} {port : UInt16} {m : Memory} {is : List (Kernel × Act)}
    {s : Injected} (hw : attach k ip port = some w) (hm : Clean m.heap)
    (h : Runs.run Injected.step is ⟨w, { mem := m }⟩ = some s) :
    Reachable s.process ∧ (s.process.user.tableHooked = true ↔ s.table.gPNewVTable ≠ .null) := by
  obtain ⟨ha, hreach, -⟩ := Injected.run_agree (attach_agree hw hm) h
  exact ⟨⟨k, ip, port, w, hw, hreach⟩, ha.flag⟩

theorem attach_linked : attach relayKernel ['r'] 27015 = some linked := by simp [linked]

/-- The game's object is block 1, its table block 2. -/
def gameMemory : Memory where
  heap
    | 1 => some [.addr 2, .null]
    | 2 => some ((List.range vtableSize).map fun i => .code (.game i))
    | _ => none
  intPtr := 1
  object := .addr 1
  steamUser := .addr 1

theorem gameMemory_clean : Clean gameMemory.heap := by
  intro b cells h w hw
  match b with
  | 1 =>
    cases h
    rcases List.mem_cons.mp hw with rfl | hw
    · rfl
    · cases List.mem_singleton.mp hw
      rfl
  | 2 =>
    cases h
    obtain ⟨i, -, rfl⟩ := List.mem_map.mp hw
    rfl
  | 0 | _ + 3 => cases h

/-- The object is hooked, the game writes to it and sends a packet. -/
def hookedSession : List (Kernel × Act) :=
  [(relayKernel, .inject 9), (relayKernel, .identify fun _ _ => 7), (relayKernel, .register),
    (relayKernel, .game (.heap (.store 1 1 (.addr 1)))), (relayKernel, .send 8 (some [1, 2]) 2)]

theorem hookedSession_refines : ∃ s, Runs.run Injected.step hookedSession
      ⟨linked, { mem := gameMemory }⟩ = some s ∧
    Reachable s.process ∧ (s.process.user.tableHooked = true ↔ s.table.gPNewVTable ≠ .null) := by
  obtain ⟨s, hs⟩ := Option.isSome_iff_exists.mp (show (Runs.run Injected.step hookedSession
    ⟨linked, { mem := gameMemory }⟩).isSome by decide +kernel)
  exact ⟨s, hs, injected_refines attach_linked gameMemory_clean hs⟩

/-! ## The game is left alone -/

/-- **The game is left alone**: the memory with the hook taken out is what the game's own
steps make of it, and what it is when the table is not hooked; and every call of the
game's through one of the slots the hook copies goes to the function it would go to without
the hook, or to the hook's in front of it, which finds that function in the table it keeps. -/
theorem game_unaffected {ip : Text} {port : UInt16} {m : Memory} {is : List (Kernel × Act)}
    {s : Injected} (hw : attach k ip port = some w) (hm : Clean m.heap)
    (h : Runs.run Injected.step is ⟨w, { mem := m }⟩ = some s) :
    ∃ m', Runs.run Memory.step (gameSteps is) m = some m' ∧
      (s.process.user.tableHooked = false → s.table.mem = m') ∧
      ∀ i f, i < vtableSize → m'.method i = some f → (∃ n, f = .game n) ∧
        (s.table.mem.method i = some f ∨ ∃ h, hookOf i = some h ∧
          s.table.mem.method i = some h ∧
          s.table.mem.load s.table.gPOriginalVTable i = some (.code f)) := by
  obtain ⟨ha, -, hgame⟩ := Injected.run_agree (attach_agree hw hm) h
  refine ⟨s.table.unhooked, hgame, fun hflag => ?_, fun i f hi hf => ⟨ha.sound.clean.method hf, ?_⟩⟩
  · have hnull : s.table.gPNewVTable = .null := by
      by_contra hne
      rw [ha.flag.mpr hne] at hflag
      cases hflag
    exact (Table.unhooked_of_null hnull).symm
  · rcases ha.sound.state with hnull | ⟨o, n, v, cells, hh⟩
    · rw [Table.unhooked_of_null hnull] at hf
      exact .inl hf
    · exact hh.method hi hf

theorem hookedSession_unaffected : ∃ s m', Runs.run Injected.step
      (hookedSession ++ [(relayKernel, .detach)]) ⟨linked, { mem := gameMemory }⟩ = some s ∧
    Runs.run Memory.step [.heap (.store 1 1 (.addr 1))] gameMemory = some m' ∧
    s.table.mem = m' := by
  obtain ⟨s, hs⟩ := Option.isSome_iff_exists.mp (show (Runs.run Injected.step
    (hookedSession ++ [(relayKernel, .detach)]) ⟨linked, { mem := gameMemory }⟩).isSome by
      decide +kernel)
  obtain ⟨m', hm', hmem, -⟩ := game_unaffected attach_linked gameMemory_clean hs
  have hflag : some s.process.user.tableHooked = some false := by
    have hmap := congrArg (Option.map fun s => s.process.user.tableHooked) hs
    exact hmap.symm.trans (by decide +kernel)
  exact ⟨s, m', hs, hm', hmem (Option.some.inj hflag)⟩

end IsaacP2P.Hook
