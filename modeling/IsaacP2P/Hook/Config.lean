import IsaacP2P.Hook.Links
import IsaacP2P.Lib.Numerals

/-!
# The configuration file

`LoadConfig` reads `p2p_config.txt` line by line, and `DllMain` starts with what
it leaves in `g_strRemoteIP` and `g_nPort`. `Loaded` says what the file asks for, and
that no number out of range is reduced; `LoadConfig` does that exactly if every
`port=` line spells a number from 0 to 65535 and the last of them counts
(`loadConfig_iff`).
-/

namespace IsaacP2P.Hook

open Client (Text Kernel)
open Numerals (Spells decimal leading fitsInt)

/-- The two variables of the hook that the file sets. -/
structure Config where
  gStrRemoteIP : Text := ['1', '2', '7', '.', '0', '.', '0', '.', '1']
  gNPort : UInt16 := 27015
  deriving DecidableEq

/-- `std::stoi`; it throws if there is no number at the front of the text, or if the
number is out of range. -/
def stoi (s : Text) : Option Int := (leading s).filter fitsInt

/-! ## Lines -/

/-- What `std::getline` returns call by call. -/
def getlines : Text → List Text
  | [] => []
  | '\n' :: cs => [] :: getlines cs
  | c :: cs =>
    match getlines cs with
    | [] => [[c]]
    | line :: rest => (c :: line) :: rest

def dropCR (line : Text) : Text := if line.getLast? == some '\r' then line.dropLast else line

/-- The text behind the key, if the line starts with it. -/
def valueOf (key line : Text) : Option Text :=
  if line.take key.length == key then some (line.drop key.length) else none

def ipKey : Text := ['i', 'p', '=']
def portKey : Text := ['p', 'o', 'r', 't', '=']

/-- One round of the loop; `none` if an exception is thrown. -/
def loadLine (line : Text) (s : Config) : Option Config :=
  let line := dropCR line
  if line.isEmpty || line.head? == some '#' || line.head? == some ';' then some s
  else
    match valueOf ipKey line, valueOf portKey line with
    | some ip, _ => some { s with gStrRemoteIP := ip }
    | none, some port => (stoi port).map fun n => { s with gNPort := UInt16.ofInt n }
    | none, none => some s

def loadLines : List Text → Config → Option Config
  | [], s => some s
  | line :: rest, s => (loadLine line s).bind (loadLines rest)

/-- The file beside the DLL and the one in the current directory, as the stream
delivers them; `none` if a file cannot be opened. -/
def loadConfig (beside here : Option Text) (s : Config) : Option (Bool × Config) :=
  match beside <|> here with
  | none => some (false, s)
  | some content => (loadLines (getlines content) s).map (true, ·)

/-- `DllMain` with `DLL_PROCESS_ATTACH`; it catches no exception. -/
def processAttach (k : Kernel) (beside here : Option Text) : Option Process := do
  let (_, s) ← loadConfig beside here {}
  attach k s.gStrRemoteIP s.gNPort

theorem processAttach_reachable {k : Kernel} {beside here : Option Text} {w : Process}
    (h : processAttach k beside here = some w) : Reachable w := by
  obtain ⟨⟨_, s⟩, -, ha⟩ := Option.bind_eq_some_iff.mp h
  exact ⟨k, _, _, w, ha, .refl w⟩

/-! ## What the file asks for -/

/-- The texts the file gives for the key, line by line. -/
def settings (key : Text) (content : Text) : List Text :=
  (getlines content).filterMap fun line => valueOf key (dropCR line)

/-- The port, if the text is a decimal integer from 1 to 65535. -/
def portOf (text : Text) : Option UInt16 :=
  if !text.isEmpty && text.all Char.isDigit && 1 ≤ decimal text && decimal text ≤ 65535 then
    some (UInt16.ofNat (decimal text))
  else none

/-- The port of the last line that has one. -/
def askedPort (content : Text) (port : UInt16) : UInt16 :=
  (((settings portKey content).filterMap portOf).getLast?).getD port

/-- No number out of range is reduced: the round of a `port=` line that spells one leaves the
variables as they are. -/
def NoneReduced (content : Text) : Prop :=
  ∀ line ∈ getlines content, ∀ text ∈ valueOf portKey (dropCR line), ∀ n,
    Spells text n → n < 0 ∨ 65535 < n → ∀ t, loadLine line t = some t

/-- The variables are what the file asks for. -/
structure Loaded (content : Text) (s s' : Config) : Prop where
  ip : s'.gStrRemoteIP = ((settings ipKey content).getLast?).getD s.gStrRemoteIP
  port : s'.gNPort = askedPort content s.gNPort
  exact : NoneReduced content

/-- Every `port=` line spells a number from 0 to 65535. -/
def Readable (content : Text) : Prop :=
  ∀ text ∈ settings portKey content, ∃ n, Spells text n ∧ 0 ≤ n ∧ n ≤ 65535

/-- The last `port=` line, if there is one, is a decimal integer from 1 to 65535. -/
def EndsInPort (content : Text) : Prop :=
  ∀ text ∈ (settings portKey content).getLast?, (portOf text).isSome

/-- The last `port=` line is no such integer, but spells the number of the last one that
is (of `port` if none is) in another way. -/
def Respelt (content : Text) (port : UInt16) : Prop :=
  ∃ text old, (settings portKey content).getLast? = some text ∧ portOf text = none ∧
    (((settings portKey content).filterMap portOf).getLast?).getD port = old ∧
    Spells text old.toNat

/-! ## One line -/

theorem eq_of_valueOf {key line value : Text} (h : valueOf key line = some value) :
    line = key ++ value := by
  unfold valueOf at h
  split at h
  · rename_i htake
    cases h
    rw [← eq_of_beq htake, ← eq_of_beq htake]
    simp
  · cases h

/-- A line with a key is no comment, and has one key only. -/
theorem loadLine_cases (line : Text) (s : Config) :
    (∃ ip, valueOf ipKey (dropCR line) = some ip ∧ valueOf portKey (dropCR line) = none ∧
      loadLine line s = some { s with gStrRemoteIP := ip }) ∨
    (∃ port, valueOf ipKey (dropCR line) = none ∧ valueOf portKey (dropCR line) = some port ∧
      loadLine line s = (stoi port).map fun n => { s with gNPort := UInt16.ofInt n }) ∨
    (valueOf ipKey (dropCR line) = none ∧ valueOf portKey (dropCR line) = none ∧
      loadLine line s = some s) := by
  unfold loadLine
  generalize dropCR line = l
  cases hip : valueOf ipKey l with
  | some ip =>
    obtain rfl := eq_of_valueOf hip
    exact .inl ⟨ip, rfl, rfl, rfl⟩
  | none =>
    cases hport : valueOf portKey l with
    | some port =>
      obtain rfl := eq_of_valueOf hport
      exact .inr (.inl ⟨port, rfl, rfl, rfl⟩)
    | none =>
      refine .inr (.inr ⟨rfl, rfl, ?_⟩)
      dsimp only
      split
      · rfl
      · simp only [hip, hport]

/-! ## The loop -/

theorem last_number {texts : List Text} {first : Text} {n : Int} (port : UInt16)
    (hreads : ∀ text ∈ texts, (stoi text).isSome) (hn : stoi first = some n) :
    ((texts.getLast?.bind stoi).map UInt16.ofInt).getD (UInt16.ofInt n) =
      (((some (texts.getLast?.getD first)).bind stoi).map UInt16.ofInt).getD port := by
  cases hlast : texts.getLast? with
  | none => simp [hn]
  | some text =>
    obtain ⟨i, hi⟩ := Option.isSome_iff_exists.mp (hreads text (List.mem_of_getLast? hlast))
    simp [hi]

/-- The loop ends exactly if every `port=` line has a number, and the last line of
each key counts. -/
theorem loadLines_some_iff {lines : List Text} {s s' : Config} :
    loadLines lines s = some s' ↔
      (∀ text ∈ lines.filterMap (fun line => valueOf portKey (dropCR line)), (stoi text).isSome) ∧
      s'.gStrRemoteIP = ((lines.filterMap fun line => valueOf ipKey (dropCR line)).getLast?).getD
        s.gStrRemoteIP ∧
      s'.gNPort = ((((lines.filterMap fun line => valueOf portKey (dropCR line)).getLast?).bind
        stoi).map UInt16.ofInt).getD s.gNPort := by
  induction lines generalizing s with
  | nil =>
    simp only [loadLines, List.filterMap_nil, List.not_mem_nil, List.getLast?_nil]
    constructor
    · rintro h
      cases h
      exact ⟨by simp, rfl, rfl⟩
    · rintro ⟨-, hip, hport⟩
      obtain ⟨ip, port⟩ := s'
      cases hip
      cases hport
      rfl
  | cons line rest ih =>
    simp only [loadLines, Option.bind_eq_some_iff, List.filterMap_cons]
    rcases loadLine_cases line s with ⟨ip, hip, hport, hl⟩ | ⟨port, hip, hport, hl⟩ | ⟨hip, hport, hl⟩
    · simp only [hip, hport, hl, Option.some.injEq, exists_eq_left', ih, List.getLast?_cons,
        Option.getD_some]
    · simp only [hip, hport, hl, Option.map_eq_some_iff, List.mem_cons, forall_eq_or_imp,
        List.getLast?_cons]
      constructor
      · rintro ⟨_, ⟨n, hn, rfl⟩, hr⟩
        obtain ⟨hreads, hip', hport'⟩ := ih.mp hr
        refine ⟨⟨by rw [hn]; rfl, hreads⟩, hip', ?_⟩
        rw [hport', last_number s.gNPort hreads hn]
      · rintro ⟨⟨hsome, hreads⟩, hip', hport'⟩
        obtain ⟨n, hn⟩ := Option.isSome_iff_exists.mp hsome
        refine ⟨_, ⟨n, hn, rfl⟩, ih.mpr ⟨hreads, hip', ?_⟩⟩
        rw [hport', last_number s.gNPort hreads hn]
    · simp only [hip, hport, hl, Option.some.injEq, exists_eq_left', ih]

/-! ## Ports -/

theorem stoi_eq_some_iff {text : Text} {n : Int} :
    stoi text = some n ↔ Spells text n ∧ -0x80000000 ≤ n ∧ n ≤ 0x7FFFFFFF := by
  rw [stoi, Option.filter_eq_some_iff, Numerals.leading_eq_some_iff]
  simp [fitsInt]

theorem toNat_ofInt {n : Int} (h : 0 ≤ n ∧ n ≤ 65535) : ((UInt16.ofInt n).toNat : Int) = n := by
  rw [UInt16.ofInt, UInt16.toNat_ofNat']
  omega

theorem spells_of_portOf {text : Text} {port : UInt16} (h : portOf text = some port) :
    Spells text port.toNat := by
  unfold portOf at h
  split at h
  · rename_i hport
    cases h
    simp only [Bool.and_eq_true, Bool.not_eq_true', decide_eq_true_eq] at hport
    obtain ⟨⟨⟨hne, hall⟩, -⟩, hmax⟩ := hport
    have hspelt : Spells ([] ++ (text ++ [])) (decimal text) :=
      .unsigned (by simp) ⟨by simpa using hne, List.all_eq_true.mp hall, by simp⟩
    rw [UInt16.toNat_ofNat', Nat.mod_eq_of_lt (by omega)]
    simpa using hspelt
  · cases h

theorem askedPort_of_last {content text : Text} {port old : UInt16}
    (hlast : (settings portKey content).getLast? = some text) (hport : portOf text = some port) :
    askedPort content old = port := by
  obtain ⟨init, hinit⟩ := List.getLast?_eq_some_iff.mp hlast
  rw [askedPort, hinit, List.filterMap_append, List.filterMap_cons, hport, List.filterMap_nil,
    List.getLast?_concat]
  rfl

/-- A round that stores a number changes the variables of some state. -/
theorem loadLine_stores {line text : Text} {n : Int}
    (htext : valueOf portKey (dropCR line) = some text) (hn : stoi text = some n) :
    ∃ t, loadLine line t ≠ some t := by
  refine ⟨{ gNPort := UInt16.ofInt n + 1 }, fun hround => ?_⟩
  rcases loadLine_cases line { gNPort := UInt16.ofInt n + 1 } with
    ⟨_, -, hport, -⟩ | ⟨text', -, hport, hl⟩ | ⟨-, hport, -⟩
  · rw [htext] at hport
    cases hport
  · rw [htext] at hport
    cases hport
    rw [hl, hn] at hround
    have heq : UInt16.ofInt n = UInt16.ofInt n + 1 :=
      congrArg Config.gNPort (Option.some.inj hround)
    simp at heq
  · rw [htext] at hport
    cases hport

theorem mem_settings {key content text : Text} :
    text ∈ settings key content ↔
      ∃ line ∈ getlines content, valueOf key (dropCR line) = some text := List.mem_filterMap

theorem readable_iff (content : Text) :
    (∀ text ∈ settings portKey content, (stoi text).isSome) ∧ NoneReduced content ↔
      Readable content := by
  constructor
  · rintro ⟨hreads, hexact⟩ text hmem
    obtain ⟨n, hn⟩ := Option.isSome_iff_exists.mp (hreads text hmem)
    have hspelt := (stoi_eq_some_iff.mp hn).1
    refine ⟨n, hspelt, ?_⟩
    by_contra hout
    obtain ⟨line, hline, htext⟩ := mem_settings.mp hmem
    obtain ⟨t, ht⟩ := loadLine_stores htext hn
    exact ht (hexact line hline text htext n hspelt (by omega) t)
  · intro hreads
    refine ⟨fun text hmem => ?_, fun line hline text htext n hspelt hout => ?_⟩
    · obtain ⟨n, hspelt, hrange⟩ := hreads text hmem
      exact Option.isSome_iff_exists.mpr ⟨n, stoi_eq_some_iff.mpr ⟨hspelt, by omega, by omega⟩⟩
    · obtain ⟨i, hspelt', hrange⟩ := hreads text (mem_settings.mpr ⟨line, hline, htext⟩)
      cases hspelt.leading.symm.trans hspelt'.leading
      omega

theorem last_port_iff {content : Text} {port : UInt16} (hread : Readable content) :
    ((((settings portKey content).getLast?).bind stoi).map UInt16.ofInt).getD port =
      askedPort content port ↔ EndsInPort content ∨ Respelt content port := by
  cases hlast : (settings portKey content).getLast? with
  | none =>
    refine iff_of_true ?_ (.inl fun text htext => ?_)
    · rw [askedPort, List.getLast?_eq_none_iff.mp hlast]
      rfl
    · rw [hlast] at htext
      cases htext
  | some text =>
    obtain ⟨n, hspelt, hrange⟩ := hread text (List.mem_of_getLast? hlast)
    have hn : stoi text = some n := stoi_eq_some_iff.mpr ⟨hspelt, by omega, by omega⟩
    have hnat := toNat_ofInt hrange
    rw [Option.bind_some, hn, Option.map_some, Option.getD_some]
    cases hport : portOf text with
    | some p =>
      refine iff_of_true ?_ (.inl fun text' htext' => ?_)
      · rw [askedPort_of_last hlast hport, ← UInt16.toNat_inj]
        have hp := (spells_of_portOf hport).leading.symm.trans hspelt.leading
        simp only [Option.some.injEq] at hp
        omega
      · rw [hlast] at htext'
        cases htext'
        rw [hport]
        rfl
    | none =>
      constructor
      · intro heq
        refine .inr ⟨text, _, hlast, hport, rfl, ?_⟩
        rw [askedPort] at heq
        rw [← heq, hnat]
        exact hspelt
      · rintro (hends | ⟨text', old, hlast', -, hold, hspelt'⟩)
        · have := hends text hlast
          rw [hport] at this
          cases this
        · rw [hlast] at hlast'
          cases hlast'
          have hsame := hspelt'.leading.symm.trans hspelt.leading
          simp only [Option.some.injEq] at hsame
          rw [askedPort, hold, ← UInt16.toNat_inj]
          omega

theorem loadLines_loaded_iff (content : Text) (s : Config) :
    (∃ s', loadLines (getlines content) s = some s' ∧ Loaded content s s') ↔
      Readable content ∧ (EndsInPort content ∨ Respelt content s.gNPort) := by
  constructor
  · rintro ⟨s', hl, hloaded⟩
    obtain ⟨hreads, -, hport⟩ := loadLines_some_iff.mp hl
    have hread := (readable_iff content).mp ⟨hreads, hloaded.exact⟩
    exact ⟨hread, (last_port_iff hread).mp (hport.symm.trans hloaded.port)⟩
  · rintro ⟨hread, hlast⟩
    obtain ⟨hreads, hexact⟩ := (readable_iff content).mpr hread
    exact ⟨⟨_, _⟩, loadLines_some_iff.mpr ⟨hreads, rfl, rfl⟩, rfl, (last_port_iff hread).mpr hlast,
      hexact⟩

/-- **`LoadConfig` returns, with what the file asks for, exactly if every `port=` line
spells a number from 0 to 65535, and the last one is a port, or respells one.** -/
theorem loadConfig_iff (beside here : Option Text) (s : Config) :
    (∃ done s', loadConfig beside here s = some (done, s') ∧
      ∀ content ∈ (beside <|> here), Loaded content s s') ↔
    ∀ content ∈ (beside <|> here),
      Readable content ∧ (EndsInPort content ∨ Respelt content s.gNPort) := by
  unfold loadConfig
  generalize (beside <|> here) = file
  cases file with
  | none => simp
  | some content =>
    simp only [Option.mem_some_iff, forall_eq', ← loadLines_loaded_iff, Option.map_eq_some_iff,
      Prod.mk.injEq]
    constructor
    · rintro ⟨done, s', ⟨t, ht, -, rfl⟩, hloaded⟩
      exact ⟨t, ht, hloaded⟩
    · rintro ⟨s', hs', hloaded⟩
      exact ⟨true, s', ⟨s', hs', rfl, rfl⟩, hloaded⟩

/-- A `port=` line without a number: `DllMain` lets the exception through. -/
theorem loadConfig_throws : ¬ ∀ (beside here : Option Text) (s : Config),
    ∃ done s', loadConfig beside here s = some (done, s') ∧
      ∀ content ∈ (beside <|> here), Loaded content s s' := by
  intro hall
  obtain ⟨done, s', hl, -⟩ := hall (some portKey) none {}
  have hthrows : loadConfig (some portKey) none {} = none := by decide
  rw [hthrows] at hl
  cases hl

example : loadConfig (some (portKey ++ ['7', '0', '0', '0', '0'])) none {} =
    some (true, { gNPort := 4464 }) := by decide

end IsaacP2P.Hook
