import IsaacP2P.Hook.Hook
import IsaacP2P.Lib.Blocks

/-!
# The hooked table

`HookVTable` and `UnhookVTable`, on the memory they work on: the object's block
starts with the address of its table, the table holds code. A `Hooked` table can
be taken out of the memory (`Table.unhooked`): `HookVTable` changes nothing
else, `UnhookVTable` leaves just that, and the game's steps are the same with
and without it. Every call through the table ends in the function it would go
to without the hook, or has that function behind it (`Hooked.method`).
-/

namespace IsaacP2P.Hook

open Client
open Blocks (Heap Op)

/-! ## The memory -/

/-- A function: one of the game's, or one of the three the hook puts in. -/
inductive Fn where
  | game (n : Nat)
  | sendP2PPacket
  | isP2PPacketAvailable
  | readP2PPacket
  deriving DecidableEq

inductive Word where
  | null
  | addr (block : Nat)
  | code (f : Fn)
  deriving DecidableEq

def Word.hooks : Word → Bool
  | .code (.game _) => false
  | .code _ => true
  | _ => false

/-- The memory as far as the hook looks at it. `intPtr`, `object` and `steamUser` are
the cells of the module at `VTABLE_OFFSET - 4`, `VTABLE_OFFSET` and
`ISTEAMUSER_OFFSET`. -/
@[ext] structure Memory where
  heap : Heap Word := fun _ => none
  intPtr : Int := 0
  object : Word := .null
  steamUser : Word := .null

namespace Memory

/-- `((void**)p)[i]` -/
def load (p : Word) (i : Nat) (m : Memory) : Option Word :=
  match p with
  | .addr b => Blocks.load m.heap b i
  | _ => none

def onHeap (op : Op Word) (m : Memory) : Option Memory :=
  (Blocks.step op m.heap).map fun heap => { m with heap }

/-- `((void**)p)[i] = w` -/
def store (p : Word) (i : Nat) (w : Word) (m : Memory) : Option Memory :=
  match p with
  | .addr b => m.onHeap (.store b i w)
  | _ => none

/-- The function a call of method `i` of `*ppObject` goes to. -/
def method (i : Nat) (m : Memory) : Option Fn := do
  let vtable ← m.load m.object 0
  match ← m.load vtable i with
  | .code f => some f
  | _ => none

end Memory

/-- What the game does to its memory. -/
inductive GameStep where
  | heap (op : Op Word)
  | intPtr (n : Int)
  | object (w : Word)
  | steamUser (w : Word)

def Memory.step : GameStep → Memory → Option Memory
  | .heap op, m => m.onHeap op
  | .intPtr n, m => some { m with intPtr := n }
  | .object w, m => some { m with object := w }
  | .steamUser w, m => some { m with steamUser := w }

/-! ## The functions -/

def vtableSize : Nat := 48
def vtableIndexSendP2PPacket : Nat := 0
def vtableIndexIsP2PPacketAvailable : Nat := 1
def vtableIndexReadP2PPacket : Nat := 2
def vtableIndexGetSteamID : Nat := 2

/-- The memory and the variables `g_pObject`, `g_pOriginalVTable`, `g_pNewVTable`. -/
structure Table where
  mem : Memory := {}
  gPObject : Word := .null
  gPOriginalVTable : Word := .null
  gPNewVTable : Word := .null

/-- `memcpy` of `n` words from the beginning of a block. -/
def Memory.copy (p : Word) (n : Nat) (m : Memory) : Option (List Word) :=
  match p with
  | .addr b => (m.heap b).bind fun cells => if cells.length < n then none else some (cells.take n)
  | _ => none

/-- `HookVTable`; `new` returns `block`. -/
def hookVTable (block : Nat) (t : Table) : Option (Bool × Table) := do
  let t := { t with gPObject := t.mem.object }
  if t.gPObject = .null then some (false, t)
  else do
    let t := { t with gPOriginalVTable := ← t.mem.load t.gPObject 0 }
    if t.gPOriginalVTable = .null then some (false, t)
    else do
      let cells ← t.mem.copy t.gPOriginalVTable vtableSize
      let m ← t.mem.onHeap (.new block cells)
      let t := { t with gPNewVTable := .addr block }
      let m ← m.store t.gPNewVTable vtableIndexSendP2PPacket (.code .sendP2PPacket)
      let m ← m.store t.gPNewVTable vtableIndexIsP2PPacketAvailable (.code .isP2PPacketAvailable)
      let m ← m.store t.gPNewVTable vtableIndexReadP2PPacket (.code .readP2PPacket)
      let m ← m.store t.gPObject 0 t.gPNewVTable
      some (true, { t with mem := m })

def unhookVTable (t : Table) : Option Table :=
  if t.gPOriginalVTable = .null || t.gPNewVTable = .null || t.gPObject = .null then some t
  else do
    let m ← t.mem.store t.gPObject 0 t.gPOriginalVTable
    match t.gPNewVTable with
    | .addr n => do
      let m ← m.onHeap (.delete n)
      some { t with mem := m, gPNewVTable := .null, gPObject := .null }
    | _ => none

/-- `getSteamID` is what the game's function `GetSteamID` stores for an object. -/
def getLocalSteamID (getSteamID : Fn → Word → CSteamID) (m : Memory) : Option CSteamID :=
  if m.steamUser = .null then some 0
  else do
    let vtable ← m.load m.steamUser 0
    if vtable = .null then some 0
    else do
      match ← m.load vtable vtableIndexGetSteamID with
      | .code f => some (getSteamID f m.steamUser)
      | _ => none

/-- The game does not write the hook's functions anywhere. While its object is hooked
it leaves the block of the new table alone, which is not its own, and the old table,
which is constant, and it neither destroys the object nor gives it another table. -/
def Table.allows (t : Table) : GameStep → Bool
  | .heap op =>
    op.words.all (fun w => !w.hooks) &&
      match t.gPObject, t.gPNewVTable, t.gPOriginalVTable with
      | .addr o, .addr n, .addr v => op.spares o n && op.block != v
      | _, _, _ => true
  | _ => true

/-! ## The memory without the hook -/

/-- No function of the hook is anywhere. -/
def Clean (h : Heap Word) : Prop := ∀ b cells, h b = some cells → ∀ w ∈ cells, w.hooks = false

/-- The memory with the hook taken out. -/
def Table.unhooked (t : Table) : Memory :=
  match t.gPObject, t.gPNewVTable, t.gPOriginalVTable with
  | .addr o, .addr n, .addr v => { t.mem with heap := Blocks.withdraw o (.addr v) n t.mem.heap }
  | _, _, _ => t.mem

/-- The table `HookVTable` makes of an old one. -/
def patched (cells : List Word) : List Word :=
  (((cells.take vtableSize).set vtableIndexSendP2PPacket (.code .sendP2PPacket)).set
    vtableIndexIsP2PPacketAvailable (.code .isP2PPacketAvailable)).set
    vtableIndexReadP2PPacket (.code .readP2PPacket)

/-- The object `o` has the table `n` in the place of `v`, which holds `cells`. -/
structure Hooked (t : Table) (o n v : Nat) (cells : List Word) : Prop where
  gPObject : t.gPObject = .addr o
  gPNewVTable : t.gPNewVTable = .addr n
  gPOriginalVTable : t.gPOriginalVTable = .addr v
  object : Blocks.load t.mem.heap o 0 = some (.addr n)
  table : t.mem.heap n = some (patched cells)
  original : Blocks.withdraw o (.addr v) n t.mem.heap v = some cells
  size : vtableSize ≤ cells.length
  ne : o ≠ n

theorem Hooked.unhooked {t : Table} {o n v : Nat} {cells : List Word} (h : Hooked t o n v cells) :
    t.unhooked = { t.mem with heap := Blocks.withdraw o (.addr v) n t.mem.heap } := by
  rw [Table.unhooked, h.gPObject, h.gPNewVTable, h.gPOriginalVTable]

theorem Table.unhooked_of_null {t : Table} (h : t.gPNewVTable = .null) : t.unhooked = t.mem := by
  rw [Table.unhooked, h]
  split
  · rename_i hn _
    cases hn
  · rfl

/-- The table is hooked or not, and without the hook none of its functions is left. -/
structure Table.Sound (t : Table) : Prop where
  state : t.gPNewVTable = .null ∨ ∃ o n v cells, Hooked t o n v cells
  clean : Clean t.unhooked.heap

theorem Clean.step {op : Op Word} {h h' : Heap Word} (hc : Clean h)
    (hop : op.words.all (fun w => !w.hooks) = true) (hs : Blocks.step op h = some h') : Clean h' := by
  intro b cells hb w hw
  rcases Blocks.mem_of_step hs hb hw with hw | ⟨cells', hb', hw'⟩
  · simpa using List.all_eq_true.mp hop w hw
  · exact hc b cells' hb' w hw'

theorem Hooked.game {t : Table} {o n v : Nat} {cells : List Word} (hh : Hooked t o n v cells)
    {g : GameStep} (ha : t.allows g = true) {m : Memory} (hs : t.mem.step g = some m) :
    Hooked { t with mem := m } o n v cells ∧
      t.unhooked.step g = some ({ t with mem := m } : Table).unhooked := by
  have hsame : ∀ m : Memory, m.heap = t.mem.heap → Hooked { t with mem := m } o n v cells := by
    intro m hm
    exact { hh with
      object := hm ▸ hh.object
      table := hm ▸ hh.table
      original := hm ▸ hh.original }
  cases g with
  | heap op =>
    obtain ⟨heap, hop, rfl⟩ := Option.map_eq_some_iff.mp hs
    simp only [Table.allows, hh.gPObject, hh.gPNewVTable, hh.gPOriginalVTable,
      Bool.and_eq_true, bne_iff_ne] at ha
    obtain ⟨-, hspares, hv⟩ := ha
    have hn : op.block ≠ n := by
      simp only [Op.spares, Bool.and_eq_true, bne_iff_ne] at hspares
      exact hspares.1
    have hwithdraw := Blocks.step_withdraw hspares hh.ne (.addr v) t.mem.heap
    rw [hop, Option.map_some] at hwithdraw
    have hh' : Hooked { t with mem := { t.mem with heap } } o n v cells :=
      { hh with
        object := (Blocks.load_of_spares hspares hop).trans hh.object
        table := (Blocks.step_other hop hn).trans hh.table
        original := (Blocks.step_other hwithdraw hv).trans hh.original }
    refine ⟨hh', ?_⟩
    rw [hh'.unhooked, hh.unhooked]
    simp only [Memory.step, Memory.onHeap, hwithdraw, Option.map_some]
  | intPtr _ | object _ | steamUser _ =>
    have hh' := hsame m (by cases hs; rfl)
    refine ⟨hh', ?_⟩
    rw [hh'.unhooked, hh.unhooked]
    cases hs
    rfl

/-- **A step of the game** is a step of the memory without the hook. -/
theorem Table.Sound.game {t : Table} (h : t.Sound) {g : GameStep} (ha : t.allows g = true)
    {m : Memory} (hs : t.mem.step g = some m) :
    Sound { t with mem := m } ∧ t.unhooked.step g = some ({ t with mem := m } : Table).unhooked := by
  have hstep : (t.gPNewVTable = .null ∨ ∃ o n v cells, Hooked { t with mem := m } o n v cells) ∧
      t.unhooked.step g = some ({ t with mem := m } : Table).unhooked := by
    rcases h.state with hnull | ⟨o, n, v, cells, hh⟩
    · rw [Table.unhooked_of_null hnull, Table.unhooked_of_null (t := { t with mem := m }) hnull]
      exact ⟨.inl hnull, hs⟩
    · exact ⟨.inr ⟨o, n, v, cells, (hh.game ha hs).1⟩, (hh.game ha hs).2⟩
  refine ⟨⟨hstep.1, ?_⟩, hstep.2⟩
  have hunhooked := hstep.2
  generalize ({ t with mem := m } : Table).unhooked = m' at hunhooked ⊢
  cases g with
  | heap op =>
    obtain ⟨heap, hop, rfl⟩ := Option.map_eq_some_iff.mp hunhooked
    exact h.clean.step (Bool.and_eq_true_iff.mp ha).1 hop
  | intPtr _ | object _ | steamUser _ =>
    cases hunhooked
    exact h.clean

theorem unhookVTable_sound {t t' : Table} (h : t.Sound) (hu : unhookVTable t = some t') :
    t'.Sound ∧ t'.mem = t.unhooked ∧ t'.gPNewVTable = .null := by
  have hend : t'.mem = t.unhooked ∧ t'.gPNewVTable = .null := by
    unfold unhookVTable at hu
    rcases h.state with hnull | ⟨o, n, v, cells, hh⟩
    · rw [if_pos (by simp [hnull])] at hu
      cases hu
      exact ⟨(Table.unhooked_of_null hnull).symm, hnull⟩
    · rw [if_neg (by simp [hh.gPObject, hh.gPNewVTable, hh.gPOriginalVTable])] at hu
      simp only [hh.gPObject, hh.gPNewVTable, hh.gPOriginalVTable] at hu
      obtain ⟨m, hm, hu⟩ := Option.bind_eq_some_iff.mp hu
      obtain ⟨heap, hstore, rfl⟩ := Option.map_eq_some_iff.mp hm
      obtain ⟨m', hm', hu⟩ := Option.bind_eq_some_iff.mp hu
      obtain ⟨heap', hdelete, rfl⟩ := Option.map_eq_some_iff.mp hm'
      cases hu
      refine ⟨?_, rfl⟩
      have hboth := Blocks.step_store_delete hh.ne (w := Word.addr v) hh.object hh.table
      rw [hstore, Option.bind_some] at hboth
      cases hdelete.symm.trans hboth
      rw [hh.unhooked]
  refine ⟨⟨.inl hend.2, ?_⟩, hend⟩
  rw [Table.unhooked_of_null hend.2, hend.1]
  exact h.clean

theorem Memory.load_eq_some {m : Memory} {p w : Word} {i : Nat} (h : m.load p i = some w) :
    ∃ b, p = .addr b ∧ Blocks.load m.heap b i = some w := by
  cases p with
  | addr b => exact ⟨b, rfl, h⟩
  | null | code _ => cases h

theorem Memory.store_eq_some {m m' : Memory} {b i : Nat} {w : Word}
    (h : m.store (.addr b) i w = some m') :
    ∃ heap, Blocks.step (.store b i w) m.heap = some heap ∧ m' = { m with heap } := by
  obtain ⟨heap, hs, rfl⟩ := Option.map_eq_some_iff.mp h
  exact ⟨heap, hs, rfl⟩

/-- The ways `HookVTable` ends: without a table, or with the new one written and put
into the object. -/
theorem hookVTable_cases {block : Nat} {t t' : Table} {ok : Bool}
    (hh : hookVTable block t = some (ok, t')) :
    (ok = false ∧ ∃ p v, t' = { t with gPObject := p, gPOriginalVTable := v }) ∨
    (ok = true ∧ ∃ o v cells h₀ h₁ h₂ h₃ heap,
      Blocks.load t.mem.heap o 0 = some (.addr v) ∧ t.mem.heap v = some cells ∧
      vtableSize ≤ cells.length ∧
      Blocks.step (.new block (cells.take vtableSize)) t.mem.heap = some h₀ ∧
      Blocks.step (.store block 0 (.code .sendP2PPacket)) h₀ = some h₁ ∧
      Blocks.step (.store block 1 (.code .isP2PPacketAvailable)) h₁ = some h₂ ∧
      Blocks.step (.store block 2 (.code .readP2PPacket)) h₂ = some h₃ ∧
      Blocks.step (.store o 0 (.addr block)) h₃ = some heap ∧
      t' = ⟨{ t.mem with heap }, .addr o, .addr v, .addr block⟩) := by
  dsimp only [hookVTable] at hh
  split at hh
  · cases hh
    exact .inl ⟨rfl, _, _, rfl⟩
  · obtain ⟨vtable, hvtable, hh⟩ := Option.bind_eq_some_iff.mp hh
    split at hh
    · cases hh
      exact .inl ⟨rfl, _, _, rfl⟩
    · obtain ⟨cells, hcells, hh⟩ := Option.bind_eq_some_iff.mp hh
      obtain ⟨m₀, hm₀, hh⟩ := Option.bind_eq_some_iff.mp hh
      obtain ⟨m₁, hm₁, hh⟩ := Option.bind_eq_some_iff.mp hh
      obtain ⟨m₂, hm₂, hh⟩ := Option.bind_eq_some_iff.mp hh
      obtain ⟨m₃, hm₃, hh⟩ := Option.bind_eq_some_iff.mp hh
      obtain ⟨m₄, hm₄, hh⟩ := Option.bind_eq_some_iff.mp hh
      obtain ⟨o, ho, hload⟩ := Memory.load_eq_some hvtable
      obtain ⟨h₀, hs₀, rfl⟩ := Option.map_eq_some_iff.mp hm₀
      obtain ⟨h₁, hs₁, rfl⟩ := Memory.store_eq_some hm₁
      obtain ⟨h₂, hs₂, rfl⟩ := Memory.store_eq_some hm₂
      obtain ⟨h₃, hs₃, rfl⟩ := Memory.store_eq_some hm₃
      rw [ho] at hm₄
      obtain ⟨heap, hs₄, rfl⟩ := Memory.store_eq_some hm₄
      cases hh
      cases vtable with
      | addr v =>
        obtain ⟨all, hall, hsize⟩ := Option.bind_eq_some_iff.mp hcells
        split at hsize
        · cases hsize
        · cases hsize
          exact .inr ⟨rfl, o, v, all, h₀, h₁, h₂, h₃, heap, hload, hall, Nat.not_lt.mp ‹_›,
            hs₀, hs₁, hs₂, hs₃, hs₄, by rw [← ho]⟩
      | null | code _ => cases hcells

/-- `HookVTable` changes nothing but what can be taken out again. -/
theorem hookVTable_sound {block : Nat} {t t' : Table} {ok : Bool} (h : t.Sound)
    (hnew : t.gPNewVTable = .null) (hh : hookVTable block t = some (ok, t')) :
    t'.Sound ∧ t'.unhooked = t.mem ∧ (ok = true ↔ t'.gPNewVTable ≠ .null) := by
  have hclean : Clean t.mem.heap := by
    have := h.clean
    rwa [Table.unhooked_of_null hnew] at this
  rcases hookVTable_cases hh with ⟨rfl, p, v, rfl⟩ |
    ⟨rfl, o, v, cells, h₀, h₁, h₂, h₃, heap, hload, hcells, hsize, hs₀, hs₁, hs₂, hs₃, hs₄, rfl⟩
  · have hmem := Table.unhooked_of_null (t := { t with gPObject := p, gPOriginalVTable := v }) hnew
    refine ⟨⟨.inl hnew, ?_⟩, hmem, by simp [hnew]⟩
    rw [hmem]
    exact hclean
  · obtain ⟨hfree, hc₀⟩ := Blocks.step_new hs₀
    have hne : o ≠ block := by
      rintro rfl
      rw [Blocks.load, hfree] at hload
      cases hload
    -- all that was written is in the new table and in the first cell of the object
    have hheap : Blocks.withdraw o (.addr v) block heap = t.mem.heap :=
      calc Blocks.withdraw o (.addr v) block heap
        _ = Blocks.withdraw o (.addr v) block h₃ := Blocks.withdraw_store _ _ hs₄
        _ = Blocks.withdraw o (.addr v) block h₂ := Blocks.withdraw_step rfl hne _ hs₃
        _ = Blocks.withdraw o (.addr v) block h₁ := Blocks.withdraw_step rfl hne _ hs₂
        _ = Blocks.withdraw o (.addr v) block h₀ := Blocks.withdraw_step rfl hne _ hs₁
        _ = Blocks.withdraw o (.addr v) block t.mem.heap := Blocks.withdraw_step rfl hne _ hs₀
        _ = t.mem.heap := Blocks.withdraw_self hfree hload
    have htable : h₃ block = some (patched cells) := by
      obtain ⟨c₀, hb₀, -, hc₁⟩ := Blocks.step_store hs₁
      obtain ⟨c₁, hb₁, -, hc₂⟩ := Blocks.step_store hs₂
      obtain ⟨c₂, hb₂, -, hc₃⟩ := Blocks.step_store hs₃
      cases hc₀.symm.trans hb₀
      cases hc₁.symm.trans hb₁
      cases hc₂.symm.trans hb₂
      exact hc₃
    have hobject : Blocks.load heap o 0 = some (.addr block) := by
      obtain ⟨c₃, -, hlt, hc₄⟩ := Blocks.step_store hs₄
      rw [Blocks.load, hc₄, Option.bind_some, List.getElem?_set_self hlt]
    have hhooked : Hooked ⟨{ t.mem with heap }, .addr o, .addr v, .addr block⟩ o block v cells :=
      { gPObject := rfl
        gPNewVTable := rfl
        gPOriginalVTable := rfl
        object := hobject
        table := (Blocks.step_other hs₄ hne).trans htable
        original := hheap ▸ hcells
        size := hsize
        ne := hne }
    have hmem := hhooked.unhooked
    rw [hheap] at hmem
    refine ⟨⟨.inr ⟨o, block, v, cells, hhooked⟩, ?_⟩, hmem, by simp⟩
    rw [hmem]
    exact hclean

/-! ## Calls -/

theorem Memory.method_eq_some {m : Memory} {i : Nat} {f : Fn} (h : m.method i = some f) :
    ∃ o b, m.object = .addr o ∧ Blocks.load m.heap o 0 = some (.addr b) ∧
      Blocks.load m.heap b i = some (.code f) := by
  obtain ⟨vtable, hvtable, h⟩ := Option.bind_eq_some_iff.mp h
  obtain ⟨w, hw, h⟩ := Option.bind_eq_some_iff.mp h
  obtain ⟨o, ho, hload⟩ := Memory.load_eq_some hvtable
  obtain ⟨b, rfl, hload'⟩ := Memory.load_eq_some hw
  cases w with
  | code g =>
    cases h
    exact ⟨o, b, ho, hload, hload'⟩
  | null | addr _ => cases h

theorem Clean.method {m : Memory} (hc : Clean m.heap) {i : Nat} {f : Fn}
    (h : m.method i = some f) : ∃ n, f = .game n := by
  obtain ⟨-, b, -, -, hload⟩ := Memory.method_eq_some h
  obtain ⟨cells, hcells, hi⟩ := Option.bind_eq_some_iff.mp hload
  have := hc b cells hcells _ (List.mem_of_getElem? hi)
  cases f with
  | game n => exact ⟨n, rfl⟩
  | _ => cases this

/-- The function the hook puts in the place of a method. -/
def hookOf : Nat → Option Fn
  | 0 => some .sendP2PPacket
  | 1 => some .isP2PPacketAvailable
  | 2 => some .readP2PPacket
  | _ => none

theorem Memory.method_of_load {m : Memory} {o b i : Nat} {f : Fn} (ho : m.object = .addr o)
    (hb : Blocks.load m.heap o 0 = some (.addr b)) (hf : Blocks.load m.heap b i = some (.code f)) :
    m.method i = some f := by
  simp only [Memory.method, Memory.load, ho, hb, hf, Option.bind_eq_bind, Option.bind_some]

theorem patched_getElem {cells : List Word} {i : Nat} (hsize : vtableSize ≤ cells.length)
    (hi : i < vtableSize) :
    (patched cells)[i]? = (match hookOf i with
      | some f => some (.code f)
      | none => cells[i]?) := by
  have htake : (cells.take vtableSize)[i]? = cells[i]? := List.getElem?_take_of_lt hi
  have hlt : i < (cells.take vtableSize).length := by
    rw [List.length_take]
    omega
  unfold patched vtableIndexSendP2PPacket vtableIndexIsP2PPacketAvailable vtableIndexReadP2PPacket
  match i with
  | 0 =>
    rw [List.getElem?_set_ne (by decide), List.getElem?_set_ne (by decide),
      List.getElem?_set_self hlt]
    rfl
  | 1 =>
    rw [List.getElem?_set_ne (by decide), List.getElem?_set_self (by rwa [List.length_set])]
    rfl
  | 2 =>
    rw [List.getElem?_set_self (by rwa [List.length_set, List.length_set])]
    rfl
  | i + 3 =>
    rw [List.getElem?_set_ne (by omega), List.getElem?_set_ne (by omega),
      List.getElem?_set_ne (by omega), htake]
    rfl

theorem Hooked.method {t : Table} {o n v : Nat} {cells : List Word} (hh : Hooked t o n v cells)
    {i : Nat} {f : Fn} (hi : i < vtableSize) (hf : t.unhooked.method i = some f) :
    t.mem.method i = some f ∨ ∃ h, hookOf i = some h ∧ t.mem.method i = some h ∧
      t.mem.load t.gPOriginalVTable i = some (.code f) := by
  rw [hh.unhooked] at hf
  obtain ⟨p, b, hp, hb, hcode⟩ := Memory.method_eq_some hf
  have hnone : ∀ j, Blocks.load (Blocks.withdraw o (.addr v) n t.mem.heap) n j = none := by
    intro j
    rw [Blocks.load, Blocks.withdraw, if_pos rfl]
    rfl
  have hfirst : Blocks.load (Blocks.withdraw o (.addr v) n t.mem.heap) o 0 = some (.addr v) :=
    Blocks.load_withdraw_first hh.ne _ hh.object
  have hpn : p ≠ n := by
    rintro rfl
    rw [hnone] at hb
    cases hb
  have hbn : b ≠ n := by
    rintro rfl
    rw [hnone] at hcode
    cases hcode
  -- the first cell of the object holds no function
  have hbi : b ≠ o ∨ i ≠ 0 := by
    by_contra hboth
    obtain ⟨rfl, rfl⟩ := not_or.mp hboth |>.imp not_not.mp not_not.mp
    rw [hfirst] at hcode
    cases hcode
  have hcode' : Blocks.load t.mem.heap b i = some (.code f) :=
    (Blocks.load_withdraw hbn hbi _ _).symm.trans hcode
  by_cases hpo : p = o
  · subst hpo
    cases hfirst.symm.trans hb
    have hcell : cells[i]? = some (.code f) := by
      have horiginal := hh.original
      simpa only [Blocks.load, horiginal, Option.bind_some] using hcode
    have hload : Blocks.load t.mem.heap n i = (patched cells)[i]? := by
      rw [Blocks.load, hh.table]
      rfl
    rw [patched_getElem hh.size hi] at hload
    cases hhook : hookOf i with
    | some h =>
      rw [hhook] at hload
      refine .inr ⟨h, rfl, Memory.method_of_load hp hh.object hload, ?_⟩
      rw [hh.gPOriginalVTable]
      exact hcode'
    | none =>
      rw [hhook, hcell] at hload
      exact .inl (Memory.method_of_load hp hh.object hload)
  · exact .inl (Memory.method_of_load hp
      ((Blocks.load_withdraw hpn (.inl hpo) _ _).symm.trans hb) hcode')

end IsaacP2P.Hook
