import Jellybean.Framework.Bindings
import Jellybean.Model.ModelConfig

namespace Jellybean.Server.ServerConfig

open Jellybean.Bindings (valuesOf)
open Jellybean.Model (Text ConversionError DeviceKind stoi stoll stoul getlines)

/-! The two readers of `server.config`. Both split its lines in the same way. -/

/-- The characters of `" \t\r"`. -/
def isLineBlank (c : Char) : Bool := c ∈ [' ', '\t', '\r']

def trimLine (s : Text) : Text :=
  ((s.dropWhile isLineBlank).reverse.dropWhile isLineBlank).reverse

/-- The key and the value of a line, or that `continue` passes over it. -/
def splitLine (line : Text) : Option (Text × Text) :=
  if line = [] ∨ line.head? = some '#' then none
  else if '=' ∈ line then
    some (trimLine (line.takeWhile (· ≠ '=')), trimLine (line.dropWhile (· ≠ '=')).tail)
  else none

structure RuntimeConfig where
  workerThreads : Nat := 1
  deriving DecidableEq

structure ExtendedConfig where
  modelId : Text := []
  modelPath : Text := []
  modelRepository : Text := "models".toList
  host : Text := []
  port : Int := 9000
  inputShape : List Int := []
  device : DeviceKind := .cpu
  deriving DecidableEq

/-- The keys that `load_extended_config` compares with, in that order. -/
inductive Key where
  | modelId
  | modelPath
  | modelRepository
  | host
  | port
  | device
  | inputShape
  deriving DecidableEq

def Key.ofText (key : Text) : Option Key :=
  if key = "model_id".toList then some .modelId
  else if key = "model_path".toList then some .modelPath
  else if key = "model_repository".toList then some .modelRepository
  else if key = "host".toList then some .host
  else if key = "port".toList then some .port
  else if key = "device".toList then some .device
  else if key = "input_shape".toList then some .inputShape
  else none

/-- The items are converted without being trimmed, an empty one as well. -/
def parseDims (val : Text) : Except ConversionError (List Int) := (getlines ',' val).mapM stoll

def parseDevice (val : Text) : DeviceKind := if val = "cuda".toList then .cuda else .cpu

/-- `input_shape` is pushed back to what earlier lines left. -/
def assign (cfg : ExtendedConfig) (key : Key) (val : Text) : Except ConversionError ExtendedConfig :=
  match key with
  | .modelId => .ok { cfg with modelId := val }
  | .modelPath => .ok { cfg with modelPath := val }
  | .modelRepository => .ok { cfg with modelRepository := val }
  | .host => .ok { cfg with host := val }
  | .port => (stoi val).map fun n => { cfg with port := n }
  | .device => .ok { cfg with device := parseDevice val }
  | .inputShape => (parseDims val).map fun dims => { cfg with inputShape := cfg.inputShape ++ dims }

def extendedLine (cfg : ExtendedConfig) (line : Text) : Except ConversionError ExtendedConfig :=
  match splitLine line with
  | none => .ok cfg
  | some (key, val) =>
    match Key.ofText key with
    | none => .ok cfg
    | some key => assign cfg key val

/-- `load_extended_config` of a file with this text, `none` if it cannot be opened. -/
def loadExtendedConfig (file : Option Text) : Except ConversionError ExtendedConfig :=
  match file with
  | none => .ok {}
  | some text => (getlines '\n' text).foldlM extendedLine {}

def assignRuntime (cfg : RuntimeConfig) (key val : Text) : Except ConversionError RuntimeConfig :=
  if key = "worker_threads".toList then (stoul val).map fun n => { cfg with workerThreads := n }
  else .ok cfg

def runtimeLine (cfg : RuntimeConfig) (line : Text) : Except ConversionError RuntimeConfig :=
  match splitLine line with
  | none => .ok cfg
  | some (key, val) => assignRuntime cfg key val

/-- `RuntimeConfig::from_file`. -/
def fromFile (file : Option Text) : Except ConversionError RuntimeConfig :=
  match file with
  | none => .ok {}
  | some text => (getlines '\n' text).foldlM runtimeLine {}

def Key.text : Key → Text
  | .modelId => "model_id".toList
  | .modelPath => "model_path".toList
  | .modelRepository => "model_repository".toList
  | .host => "host".toList
  | .port => "port".toList
  | .device => "device".toList
  | .inputShape => "input_shape".toList

theorem Key.ofText_text (key : Key) : Key.ofText key.text = some key := by
  cases key with
  | _ => decide +kernel

theorem Key.ofText_iff {text : Text} {key : Key} : Key.ofText text = some key ↔ text = key.text := by
  constructor
  · intro h
    unfold Key.ofText at h
    split_ifs at h with h₁ h₂ h₃ h₄ h₅ h₆ h₇
    all_goals
      cases h
      assumption
  · intro h
    rw [h, Key.ofText_text]

/-! What the file says. -/

/-- All that is bound in the file, by the texts of the keys. -/
def bindings (file : Option Text) : List (Text × Text) :=
  (getlines '\n' (file.getD [])).filterMap splitLine

/-- A binding of a key that `load_extended_config` knows. -/
def knownBinding (line : Text) : Option (Key × Text) :=
  (splitLine line).bind fun b => (Key.ofText b.1).map fun key => (key, b.2)

def knownBindings (file : Option Text) : List (Key × Text) :=
  (getlines '\n' (file.getD [])).filterMap knownBinding

def extendedReader : Reader ExtendedConfig Key Text ConversionError := ⟨assign⟩

def runtimeReader : Reader RuntimeConfig Text Text ConversionError := ⟨assignRuntime⟩

theorem loadExtendedConfig_eq (file : Option Text) :
    loadExtendedConfig file = extendedReader.read {} (knownBindings file) := by
  have hline : ∀ cfg line, extendedLine cfg line =
      (knownBinding line).elim (.ok cfg) fun b => extendedReader.assign cfg b.1 b.2 := by
    intro cfg line
    unfold extendedLine knownBinding
    cases splitLine line with
    | none => rfl
    | some b =>
      dsimp only [Option.bind_some]
      cases Key.ofText b.1 with
      | none => rfl
      | some key => rfl
  cases file with
  | none => rfl
  | some text => exact Reader.read_filterMap hline _ _

theorem fromFile_eq (file : Option Text) :
    fromFile file = runtimeReader.read {} (bindings file) := by
  have hline : ∀ cfg line, runtimeLine cfg line =
      (splitLine line).elim (.ok cfg) fun b => runtimeReader.assign cfg b.1 b.2 := by
    intro cfg line
    unfold runtimeLine
    cases splitLine line with
    | none => rfl
    | some b => rfl
  cases file with
  | none => rfl
  | some text => exact Reader.read_filterMap hline _ _

theorem valuesOf_knownBindings (file : Option Text) (key : Key) :
    valuesOf key (knownBindings file) = valuesOf key.text (bindings file) := by
  unfold knownBindings bindings
  induction getlines '\n' (file.getD []) with
  | nil => rfl
  | cons line lines ih =>
    cases hs : splitLine line with
    | none =>
      rw [List.filterMap_cons_none (by rw [knownBinding, hs]; rfl), List.filterMap_cons_none hs, ih]
    | some b =>
      rw [List.filterMap_cons_some hs, Bindings.valuesOf_cons]
      cases hk : Key.ofText b.1 with
      | none =>
        have hne : b.1 ≠ key.text := by
          intro heq
          rw [Key.ofText_iff.mpr heq] at hk
          cases hk
        rw [List.filterMap_cons_none (by rw [knownBinding, hs, Option.bind_some, hk]; rfl), ih,
          if_neg hne]
      | some k =>
        have hiff : k = key ↔ b.1 = key.text := by
          rw [← Key.ofText_iff, hk, Option.some_inj]
        rw [List.filterMap_cons_some (b := (k, b.2))
          (by rw [knownBinding, hs, Option.bind_some, hk]; rfl), Bindings.valuesOf_cons, ih]
        simp only [hiff]

/-! Each setting is that of its own key. -/

variable {s t : ExtendedConfig} {key : Key} {val : Text}

/-- What an assignment leaves alone. -/
structure Frame (key : Key) (s t : ExtendedConfig) : Prop where
  modelId : key ≠ .modelId → t.modelId = s.modelId
  modelPath : key ≠ .modelPath → t.modelPath = s.modelPath
  modelRepository : key ≠ .modelRepository → t.modelRepository = s.modelRepository
  host : key ≠ .host → t.host = s.host
  port : key ≠ .port → t.port = s.port
  device : key ≠ .device → t.device = s.device
  inputShape : key ≠ .inputShape → t.inputShape = s.inputShape

theorem assign_frame (h : assign s key val = .ok t) : Frame key s t := by
  cases key with
  | modelId | modelPath | modelRepository | host | device =>
    cases h
    constructor <;> simp
  | port | inputShape =>
    obtain ⟨v, -, rfl⟩ := map_ok.mp h
    constructor <;> simp

theorem setting_modelId : extendedReader.HasSetting .modelId (.ok ·) (·.modelId) fun _ v => v where
  here := by
    intro s t v h
    cases h
    exact ⟨v, rfl, rfl⟩
  elsewhere := fun hk h => (assign_frame h).modelId hk

theorem setting_modelPath :
    extendedReader.HasSetting .modelPath (.ok ·) (·.modelPath) fun _ v => v where
  here := by
    intro s t v h
    cases h
    exact ⟨v, rfl, rfl⟩
  elsewhere := fun hk h => (assign_frame h).modelPath hk

theorem setting_modelRepository :
    extendedReader.HasSetting .modelRepository (.ok ·) (·.modelRepository) fun _ v => v where
  here := by
    intro s t v h
    cases h
    exact ⟨v, rfl, rfl⟩
  elsewhere := fun hk h => (assign_frame h).modelRepository hk

theorem setting_host : extendedReader.HasSetting .host (.ok ·) (·.host) fun _ v => v where
  here := by
    intro s t v h
    cases h
    exact ⟨v, rfl, rfl⟩
  elsewhere := fun hk h => (assign_frame h).host hk

theorem setting_port : extendedReader.HasSetting .port stoi (·.port) fun _ n => n where
  here := by
    intro s t v h
    obtain ⟨n, hn, rfl⟩ := map_ok.mp h
    exact ⟨n, hn, rfl⟩
  elsewhere := fun hk h => (assign_frame h).port hk

theorem setting_device :
    extendedReader.HasSetting .device (.ok ·) (·.device) fun _ v => parseDevice v where
  here := by
    intro s t v h
    cases h
    exact ⟨v, rfl, rfl⟩
  elsewhere := fun hk h => (assign_frame h).device hk

theorem setting_inputShape :
    extendedReader.HasSetting .inputShape parseDims (·.inputShape) fun dims more => dims ++ more where
  here := by
    intro s t v h
    obtain ⟨dims, hdims, rfl⟩ := map_ok.mp h
    exact ⟨dims, hdims, rfl⟩
  elsewhere := fun hk h => (assign_frame h).inputShape hk

/-- The values that do not throw. -/
def Accepted : Key → Text → Prop
  | .port, val => ∃ n, stoi val = .ok n
  | .inputShape, val => ∃ dims, parseDims val = .ok dims
  | _, _ => True

theorem accepts : extendedReader.Accepts Accepted := by
  intro s key val
  cases key with
  | modelId | modelPath | modelRepository | host | device => exact iff_of_true ⟨_, rfl⟩ trivial
  | port | inputShape =>
    constructor
    · intro h
      obtain ⟨t, ht⟩ := h
      obtain ⟨v, hv, -⟩ := map_ok.mp ht
      exact ⟨v, hv⟩
    · intro h
      obtain ⟨v, hv⟩ := h
      exact ⟨_, map_ok.mpr ⟨v, hv, rfl⟩⟩

/-- The values that the file gives to a key of `load_extended_config`. -/
def written (file : Option Text) (key : Key) : List Text := valuesOf key.text (bindings file)

/-- The configuration as the file has it: the last line of a key counts, but every `port` and
`input_shape` has to be well formed, and the lines of `input_shape` add up. -/
structure Describes (file : Option Text) (cfg : ExtendedConfig) : Prop where
  modelId : cfg.modelId = (written file .modelId).getLastD []
  modelPath : cfg.modelPath = (written file .modelPath).getLastD []
  modelRepository : cfg.modelRepository = (written file .modelRepository).getLastD "models".toList
  host : cfg.host = (written file .host).getLastD []
  port : ∃ ports, (written file .port).mapM stoi = .ok ports ∧ cfg.port = ports.getLastD 9000
  device : cfg.device = ((written file .device).map parseDevice).getLastD .cpu
  inputShape : ∃ dims, (written file .inputShape).mapM parseDims = .ok dims ∧
    cfg.inputShape = dims.flatten

theorem Describes.unique {file : Option Text} {cfg cfg' : ExtendedConfig} (h : Describes file cfg)
    (h' : Describes file cfg') : cfg = cfg' := by
  obtain ⟨ports, hports, hport⟩ := h.port
  obtain ⟨ports', hports', hport'⟩ := h'.port
  obtain ⟨dims, hdims, hshape⟩ := h.inputShape
  obtain ⟨dims', hdims', hshape'⟩ := h'.inputShape
  rw [hports] at hports'
  rw [hdims] at hdims'
  cases hports'
  cases hdims'
  cases cfg with
  | mk modelId modelPath modelRepository host port inputShape device =>
    cases cfg' with
    | mk modelId' modelPath' modelRepository' host' port' inputShape' device' =>
      have h₁ := h.modelId.trans h'.modelId.symm
      have h₂ := h.modelPath.trans h'.modelPath.symm
      have h₃ := h.modelRepository.trans h'.modelRepository.symm
      have h₄ := h.host.trans h'.host.symm
      have h₅ := h.device.trans h'.device.symm
      have h₆ := hport.trans hport'.symm
      have h₇ := hshape.trans hshape'.symm
      dsimp only at h₁ h₂ h₃ h₄ h₅ h₆ h₇
      rw [h₁, h₂, h₃, h₄, h₅, h₆, h₇]

/-- A text setting holds the last value of its key. -/
theorem text_setting {key : Key} {get : ExtendedConfig → Text} {file : Option Text}
    (h : extendedReader.HasSetting key (.ok ·) get fun _ v => v)
    (ht : loadExtendedConfig file = .ok t) : get t = (written file key).getLastD (get {}) := by
  rw [loadExtendedConfig_eq] at ht
  obtain ⟨vs, hvs, hget⟩ := h.last ht
  rw [mapM_pure, valuesOf_knownBindings] at hvs
  cases hvs
  exact hget

theorem describes_of_ok {file : Option Text} (h : loadExtendedConfig file = .ok t) :
    Describes file t := by
  have hread := h
  rw [loadExtendedConfig_eq] at hread
  obtain ⟨ports, hports, hport⟩ := setting_port.last hread
  obtain ⟨devices, hdevices, hdevice⟩ := setting_device.read hread
  obtain ⟨dims, hdims, hshape⟩ := setting_inputShape.read hread
  rw [valuesOf_knownBindings] at hports hdevices hdims
  rw [mapM_pure] at hdevices
  cases hdevices
  refine ⟨text_setting setting_modelId h, text_setting setting_modelPath h,
    text_setting setting_modelRepository h, text_setting setting_host h, ⟨ports, hports, hport⟩, ?_,
    dims, hdims, ?_⟩
  · rw [hdevice, ← foldl_replace, List.foldl_map]
    rfl
  · rw [hshape, ← List.flatMap_id]
    exact List.foldl_append_eq_append

theorem ok_of_describes {file : Option Text} (h : Describes file s) :
    loadExtendedConfig file = .ok s := by
  obtain ⟨ports, hports, -⟩ := h.port
  obtain ⟨dims, hdims, -⟩ := h.inputShape
  have haccepted : ∀ b ∈ knownBindings file, Accepted b.1 b.2 := by
    intro b hb
    have hmem : b.2 ∈ written file b.1 := by
      rw [written, ← valuesOf_knownBindings]
      exact Bindings.mem_valuesOf.mpr hb
    cases hk : b.1 with
    | port =>
      rw [hk] at hmem
      exact mapM_ok_iff.mp ⟨ports, hports⟩ _ hmem
    | inputShape =>
      rw [hk] at hmem
      exact mapM_ok_iff.mp ⟨dims, hdims⟩ _ hmem
    | _ => trivial
  obtain ⟨t, ht⟩ := (accepts.read_iff {} _).mpr haccepted
  rw [← loadExtendedConfig_eq] at ht
  rw [ht, h.unique (describes_of_ok ht)]

theorem setting_workerThreads : runtimeReader.HasSetting "worker_threads".toList stoul
    (·.workerThreads) fun _ n => n where
  here := by
    intro s t v h
    change assignRuntime s "worker_threads".toList v = .ok t at h
    rw [assignRuntime, if_pos rfl] at h
    obtain ⟨n, hn, rfl⟩ := map_ok.mp h
    exact ⟨n, hn, rfl⟩
  elsewhere := by
    intro s t k v hk h
    change assignRuntime s k v = .ok t at h
    rw [assignRuntime, if_neg hk] at h
    cases h
    rfl

theorem runtime_accepts : runtimeReader.Accepts fun key val =>
    key = "worker_threads".toList → ∃ n, stoul val = .ok n := by
  intro s key val
  change (∃ t, assignRuntime s key val = .ok t) ↔ _
  unfold assignRuntime
  split_ifs with hkey
  · constructor
    · intro h _
      obtain ⟨t, ht⟩ := h
      obtain ⟨n, hn, -⟩ := map_ok.mp ht
      exact ⟨n, hn⟩
    · intro h
      obtain ⟨n, hn⟩ := h hkey
      exact ⟨_, map_ok.mpr ⟨n, hn, rfl⟩⟩
  · exact iff_of_true ⟨s, rfl⟩ fun h => absurd h hkey

theorem fromFile_iff (file : Option Text) (cfg : RuntimeConfig) :
    fromFile file = .ok cfg ↔
      ∃ ns, (valuesOf "worker_threads".toList (bindings file)).mapM stoul = .ok ns ∧
        cfg.workerThreads = ns.getLastD 1 := by
  have hread : ∀ cfg : RuntimeConfig, fromFile file = .ok cfg →
      ∃ ns, (valuesOf "worker_threads".toList (bindings file)).mapM stoul = .ok ns ∧
        cfg.workerThreads = ns.getLastD 1 := by
    intro cfg h
    rw [fromFile_eq] at h
    exact setting_workerThreads.last h
  refine ⟨hread cfg, ?_⟩
  intro h
  obtain ⟨ns, hns, hcfg⟩ := h
  have haccepted : ∀ b ∈ bindings file, b.1 = "worker_threads".toList → ∃ n, stoul b.2 = .ok n := by
    intro b hb hkey
    refine mapM_ok_iff.mp ⟨ns, hns⟩ _ (Bindings.mem_valuesOf.mpr ?_)
    rw [← hkey]
    exact hb
  obtain ⟨cfg', h'⟩ := (runtime_accepts.read_iff {} _).mpr haccepted
  rw [← fromFile_eq] at h'
  obtain ⟨ns', hns', hcfg'⟩ := hread cfg' h'
  rw [hns] at hns'
  cases hns'
  have hsame : cfg' = cfg := by
    cases cfg
    cases cfg'
    exact congrArg RuntimeConfig.mk (hcfg'.trans hcfg.symm)
  rw [h', hsame]

/-- Both readers of a configuration file, for every text: they return exactly what the lines of the
file say, and throw exactly when one of the numbers that they know is malformed. -/
theorem serverConfig_iff (file : Option Text) (runtimeCfg : RuntimeConfig) (cfg : ExtendedConfig) :
    (fromFile file = .ok runtimeCfg ↔
      ∃ ns, (valuesOf "worker_threads".toList (bindings file)).mapM stoul = .ok ns ∧
        runtimeCfg.workerThreads = ns.getLastD 1) ∧
    (loadExtendedConfig file = .ok cfg ↔ Describes file cfg) :=
  ⟨fromFile_iff file runtimeCfg, describes_of_ok, ok_of_describes⟩

/-- Two lines of `input_shape` make one shape. -/
example : (loadExtendedConfig (some "input_shape=1,128\n port = 80x\ninput_shape=512\n".toList)).map
    (fun cfg => (cfg.inputShape, cfg.port)) = .ok ([1, 128, 512], 80) := by
  decide +kernel

end Jellybean.Server.ServerConfig
