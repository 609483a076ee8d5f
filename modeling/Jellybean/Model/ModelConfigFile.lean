import Jellybean.Framework.Bindings
import Jellybean.Model.ModelConfigFallback

namespace Jellybean.Model

open Jellybean.Bindings (valuesOf)

variable {s t cfg : ModelConfig} {key val : Text} {dir : DirEntry} {modelDir : Text}

/-- The binding in a line of `config.ini`. -/
def iniBinding (line : Text) : Option (Text × Text) :=
  let line := trim line
  if line = [] ∨ line.head? = some '#' then none
  else if '=' ∈ line then
    some (trim (line.takeWhile (· ≠ '=')), trim (line.dropWhile (· ≠ '=')).tail)
  else none

def iniBindings (dir : DirEntry) : List (Text × Text) :=
  (getlines '\n' (dir.configIni.getD [])).filterMap iniBinding

def iniReader : Reader ModelConfig Text Text ConversionError := ⟨setKey⟩

/-- What `from_dir` does after the file: it looks for the model file and, if there is none for the
version, for the highest version that has one. -/
def resolve (modelDir : Text) (dir : DirEntry) (cfg : ModelConfig) : ModelConfig :=
  let cfg := { cfg with modelFilePath := versionedFile modelDir dir cfg.version }
  if cfg.modelFilePath = [] then (dir.entries.foldl (bestVersion modelDir) (-1, cfg)).2 else cfg

theorem parseLine_eq (cfg : ModelConfig) (line : Text) :
    parseLine cfg line = (iniBinding line).elim (.ok cfg) fun b => iniReader.assign cfg b.1 b.2 := by
  unfold parseLine iniBinding
  dsimp only
  split_ifs
  · rfl
  · rfl
  · rfl

theorem parseIni_eq (dir : DirEntry) :
    parseIni dir = iniReader.read { name := dir.name } (iniBindings dir) :=
  Reader.read_filterMap parseLine_eq _ _

theorem fromDir_eq_map (modelDir : Text) (dir : DirEntry) :
    fromDir modelDir dir = (parseIni dir).map (resolve modelDir dir) := by
  unfold fromDir parseIni
  cases (getlines '\n' (dir.configIni.getD [])).foldlM parseLine { name := dir.name } with
  | error e => rfl
  | ok cfg =>
    show (if _ then _ else _) = Except.ok (resolve modelDir dir cfg)
    dsimp only [resolve]
    split_ifs
    · rfl
    · rfl

/-! Each setting is that of its own key. -/

theorem bind_pure_ok {ε α β : Type} {x : Except ε α} {f : α → β} {b : β} :
    (do return f (← x)) = Except.ok b ↔ ∃ a, x = .ok a ∧ f a = b := by
  rw [← map_ok]
  cases x with
  | error e => rfl
  | ok a => rfl

/-- What an assignment leaves alone. -/
structure IniFrame (key : Text) (s t : ModelConfig) : Prop where
  name : key ≠ "name".toList → t.name = s.name
  backend : key ≠ "backend".toList → t.backend = s.backend
  version : key ≠ "version".toList → t.version = s.version
  device : key ≠ "device".toList → t.device = s.device
  maxBatchSize : key ≠ "max_batch_size".toList → t.maxBatchSize = s.maxBatchSize
  maxBatchDelayUs : key ≠ "max_batch_delay_us".toList → t.maxBatchDelayUs = s.maxBatchDelayUs
  inputShape : key ≠ "input_shape".toList → t.inputShape = s.inputShape
  modelFilePath : t.modelFilePath = s.modelFilePath

theorem setKey_frame (h : setKey s key val = .ok t) : IniFrame key s t := by
  unfold setKey at h
  split_ifs at h with hname hbackend hversion hdevice hcuda hsize hdelay hshape
  · cases h
    constructor <;> simp [hname]
  · cases h
    constructor <;> simp [hbackend]
  · obtain ⟨v, -, rfl⟩ := bind_pure_ok.mp h
    constructor <;> simp [hversion]
  · cases h
    constructor <;> simp [hdevice]
  · cases h
    constructor <;> simp [hdevice]
  · obtain ⟨v, -, rfl⟩ := bind_pure_ok.mp h
    constructor <;> simp [hsize]
  · obtain ⟨v, -, rfl⟩ := bind_pure_ok.mp h
    constructor <;> simp [hdelay]
  · obtain ⟨v, -, rfl⟩ := bind_pure_ok.mp h
    constructor <;> simp [hshape]
  · cases h
    constructor <;> simp

theorem setting_name : iniReader.HasSetting "name".toList (.ok ·) (·.name) fun _ v => v where
  here := by
    intro s t v h
    cases (show Except.ok { s with name := v } = Except.ok t from h)
    exact ⟨v, rfl, rfl⟩
  elsewhere := fun hk h => (setKey_frame h).name hk

theorem setting_backend :
    iniReader.HasSetting "backend".toList (.ok ·) (·.backend) fun _ v => parseBackend v where
  here := by
    intro s t v h
    cases (show Except.ok { s with backend := parseBackend v } = Except.ok t from h)
    exact ⟨v, rfl, rfl⟩
  elsewhere := fun hk h => (setKey_frame h).backend hk

theorem setting_version :
    iniReader.HasSetting "version".toList stoi (·.version) fun _ v => v where
  here := by
    intro s t v h
    obtain ⟨n, hn, rfl⟩ := bind_pure_ok.mp
      (show (do return { s with version := ← stoi v }) = Except.ok t from h)
    exact ⟨n, hn, rfl⟩
  elsewhere := fun hk h => (setKey_frame h).version hk

def parseIniDevice (val : Text) : DeviceKind := if val = "cuda".toList then .cuda else .cpu

theorem setting_device :
    iniReader.HasSetting "device".toList (.ok ·) (·.device) fun _ v => parseIniDevice v where
  here := by
    intro s t v h
    cases (show Except.ok { s with device := parseIniDevice v } = Except.ok t from h)
    exact ⟨v, rfl, rfl⟩
  elsewhere := fun hk h => (setKey_frame h).device hk

theorem setting_maxBatchSize :
    iniReader.HasSetting "max_batch_size".toList stoul (·.maxBatchSize) fun _ n => n where
  here := by
    intro s t v h
    obtain ⟨n, hn, rfl⟩ := bind_pure_ok.mp
      (show (do return { s with maxBatchSize := ← stoul v }) = Except.ok t from h)
    exact ⟨n, hn, rfl⟩
  elsewhere := fun hk h => (setKey_frame h).maxBatchSize hk

theorem setting_maxBatchDelayUs :
    iniReader.HasSetting "max_batch_delay_us".toList stoll (·.maxBatchDelayUs) fun _ v => v where
  here := by
    intro s t v h
    obtain ⟨n, hn, rfl⟩ := bind_pure_ok.mp
      (show (do return { s with maxBatchDelayUs := ← stoll v }) = Except.ok t from h)
    exact ⟨n, hn, rfl⟩
  elsewhere := fun hk h => (setKey_frame h).maxBatchDelayUs hk

theorem setting_inputShape :
    iniReader.HasSetting "input_shape".toList parseShape (·.inputShape) fun _ dims => dims where
  here := by
    intro s t v h
    obtain ⟨dims, hdims, rfl⟩ := bind_pure_ok.mp
      (show (do return { s with inputShape := ← parseShape v }) = Except.ok t from h)
    exact ⟨dims, hdims, rfl⟩
  elsewhere := fun hk h => (setKey_frame h).inputShape hk

/-- The numbers that throw if they are malformed. -/
def IniAccepted (key val : Text) : Prop :=
  (key = "version".toList → ∃ v, stoi val = .ok v) ∧
    (key = "max_batch_size".toList → ∃ n, stoul val = .ok n) ∧
    (key = "max_batch_delay_us".toList → ∃ v, stoll val = .ok v) ∧
    (key = "input_shape".toList → ∃ dims, parseShape val = .ok dims)

theorem iniAccepts : iniReader.Accepts IniAccepted := by
  intro s key val
  change (∃ t, setKey s key val = .ok t) ↔ _
  constructor
  · intro h
    obtain ⟨t, ht⟩ := h
    refine ⟨?_, ?_, ?_, ?_⟩
    · rintro rfl
      obtain ⟨v, hv, -⟩ := setting_version.here ht
      exact ⟨v, hv⟩
    · rintro rfl
      obtain ⟨n, hn, -⟩ := setting_maxBatchSize.here ht
      exact ⟨n, hn⟩
    · rintro rfl
      obtain ⟨v, hv, -⟩ := setting_maxBatchDelayUs.here ht
      exact ⟨v, hv⟩
    · rintro rfl
      obtain ⟨dims, hdims, -⟩ := setting_inputShape.here ht
      exact ⟨dims, hdims⟩
  · intro h
    obtain ⟨hversion, hsize, hdelay, hshape⟩ := h
    unfold setKey
    split_ifs with h₁ h₂ h₃ h₄ h₄' h₅ h₆ h₇
    · exact ⟨_, rfl⟩
    · exact ⟨_, rfl⟩
    · obtain ⟨v, hv⟩ := hversion h₃
      exact ⟨_, bind_pure_ok.mpr ⟨v, hv, rfl⟩⟩
    · exact ⟨_, rfl⟩
    · exact ⟨_, rfl⟩
    · obtain ⟨n, hn⟩ := hsize h₅
      exact ⟨_, bind_pure_ok.mpr ⟨n, hn, rfl⟩⟩
    · obtain ⟨v, hv⟩ := hdelay h₆
      exact ⟨_, bind_pure_ok.mpr ⟨v, hv, rfl⟩⟩
    · obtain ⟨dims, hdims⟩ := hshape h₇
      exact ⟨_, bind_pure_ok.mpr ⟨dims, hdims, rfl⟩⟩
    · exact ⟨s, rfl⟩

/-- The values that `config.ini` gives to a key. -/
def iniWritten (dir : DirEntry) (key : String) : List Text := valuesOf key.toList (iniBindings dir)

/-- The config as the file has it, before the model file is looked for: the last line of a key
counts, but every number has to be well formed. -/
structure IniDescribes (dir : DirEntry) (cfg : ModelConfig) : Prop where
  name : cfg.name = (iniWritten dir "name").getLastD dir.name
  backend : cfg.backend = ((iniWritten dir "backend").map parseBackend).getLastD .torchScript
  version : ∃ vs, (iniWritten dir "version").mapM stoi = .ok vs ∧ cfg.version = vs.getLastD 1
  device : cfg.device = ((iniWritten dir "device").map parseIniDevice).getLastD .cpu
  maxBatchSize : ∃ ns, (iniWritten dir "max_batch_size").mapM stoul = .ok ns ∧
    cfg.maxBatchSize = ns.getLastD 4
  maxBatchDelayUs : ∃ vs, (iniWritten dir "max_batch_delay_us").mapM stoll = .ok vs ∧
    cfg.maxBatchDelayUs = vs.getLastD 1000
  inputShape : ∃ shapes, (iniWritten dir "input_shape").mapM parseShape = .ok shapes ∧
    cfg.inputShape = shapes.getLastD []
  modelFilePath : cfg.modelFilePath = []

theorem modelFilePath_read {bs : List (Text × Text)} (h : iniReader.read s bs = .ok t) :
    t.modelFilePath = s.modelFilePath := by
  induction bs generalizing s with
  | nil =>
    cases h
    rfl
  | cons b bs ih =>
    obtain ⟨u, hu, ht⟩ := foldlM_cons_ok.mp h
    exact (ih ht).trans (setKey_frame hu).modelFilePath

theorem iniDescribes_of_ok (h : parseIni dir = .ok cfg) : IniDescribes dir cfg := by
  rw [parseIni_eq] at h
  obtain ⟨names, hnames, hname⟩ := setting_name.last h
  obtain ⟨backends, hbackends, hbackend⟩ := setting_backend.read h
  obtain ⟨devices, hdevices, hdevice⟩ := setting_device.read h
  rw [mapM_pure] at hnames hbackends hdevices
  cases hnames
  cases hbackends
  cases hdevices
  refine ⟨hname, ?_, setting_version.last h, ?_, setting_maxBatchSize.last h,
    setting_maxBatchDelayUs.last h, setting_inputShape.last h,
    modelFilePath_read h⟩
  · rw [hbackend, ← foldl_replace, List.foldl_map]
    rfl
  · rw [hdevice, ← foldl_replace, List.foldl_map]
    rfl

theorem IniDescribes.unique (h : IniDescribes dir s) (h' : IniDescribes dir t) : s = t := by
  obtain ⟨vs, hvs, hversion⟩ := h.version
  obtain ⟨vs', hvs', hversion'⟩ := h'.version
  obtain ⟨ns, hns, hsize⟩ := h.maxBatchSize
  obtain ⟨ns', hns', hsize'⟩ := h'.maxBatchSize
  obtain ⟨ds, hds, hdelay⟩ := h.maxBatchDelayUs
  obtain ⟨ds', hds', hdelay'⟩ := h'.maxBatchDelayUs
  obtain ⟨shapes, hshapes, hshape⟩ := h.inputShape
  obtain ⟨shapes', hshapes', hshape'⟩ := h'.inputShape
  rw [hvs] at hvs'
  rw [hns] at hns'
  rw [hds] at hds'
  rw [hshapes] at hshapes'
  cases hvs'
  cases hns'
  cases hds'
  cases hshapes'
  have h₁ := h.name.trans h'.name.symm
  have h₂ := h.backend.trans h'.backend.symm
  have h₃ := hversion.trans hversion'.symm
  have h₄ := h.device.trans h'.device.symm
  have h₅ := hsize.trans hsize'.symm
  have h₆ := hdelay.trans hdelay'.symm
  have h₇ := hshape.trans hshape'.symm
  have h₈ := h.modelFilePath.trans h'.modelFilePath.symm
  cases s
  cases t
  dsimp only at h₁ h₂ h₃ h₄ h₅ h₆ h₇ h₈
  rw [h₁, h₂, h₃, h₄, h₅, h₆, h₇, h₈]

theorem ok_of_iniDescribes (h : IniDescribes dir cfg) : parseIni dir = .ok cfg := by
  obtain ⟨vs, hvs, -⟩ := h.version
  obtain ⟨ns, hns, -⟩ := h.maxBatchSize
  obtain ⟨ds, hds, -⟩ := h.maxBatchDelayUs
  obtain ⟨shapes, hshapes, -⟩ := h.inputShape
  have haccepted : ∀ b ∈ iniBindings dir, IniAccepted b.1 b.2 := by
    intro b hb
    have hmem : b.2 ∈ valuesOf b.1 (iniBindings dir) := Bindings.mem_valuesOf.mpr hb
    refine ⟨?_, ?_, ?_, ?_⟩
    · intro hkey
      rw [hkey] at hmem
      exact mapM_ok_iff.mp ⟨vs, hvs⟩ _ hmem
    · intro hkey
      rw [hkey] at hmem
      exact mapM_ok_iff.mp ⟨ns, hns⟩ _ hmem
    · intro hkey
      rw [hkey] at hmem
      exact mapM_ok_iff.mp ⟨ds, hds⟩ _ hmem
    · intro hkey
      rw [hkey] at hmem
      exact mapM_ok_iff.mp ⟨shapes, hshapes⟩ _ hmem
  obtain ⟨t, ht⟩ := (iniAccepts.read_iff { name := dir.name } _).mpr haccepted
  rw [← parseIni_eq] at ht
  rw [ht, h.unique (iniDescribes_of_ok ht)]

theorem resolve_frame (modelDir : Text) (dir : DirEntry) (cfg : ModelConfig) :
    { resolve modelDir dir cfg with version := cfg.version, modelFilePath := cfg.modelFilePath } =
      cfg := by
  have hsearch : ∀ (entries : List SubEntry) (best : Int × ModelConfig),
      { (entries.foldl (bestVersion modelDir) best).2 with
        version := cfg.version, modelFilePath := cfg.modelFilePath } =
      { best.2 with version := cfg.version, modelFilePath := cfg.modelFilePath } := by
    intro entries
    induction entries with
    | nil =>
      intro best
      rfl
    | cons sub entries ih =>
      intro best
      rw [List.foldl_cons, ih]
      unfold bestVersion
      dsimp only
      split
      · split
        · rfl
        · split_ifs
          · rfl
          · rfl
          · rfl
      · rfl
  unfold resolve
  dsimp only
  split_ifs
  · rw [hsearch]
  · rfl

/-- `from_dir` throws exactly when a number in the file is malformed, also where a later line
overrides it; else the config is that of the file but for the version that the search found. -/
theorem fromDir_iff (modelDir : Text) (dir : DirEntry) (cfg : ModelConfig) :
    (fromDir modelDir dir = .ok cfg ↔
      ∃ base, IniDescribes dir base ∧ cfg = resolve modelDir dir base) ∧
    ∀ base : ModelConfig, { resolve modelDir dir base with
      version := base.version, modelFilePath := base.modelFilePath } = base := by
  refine ⟨?_, resolve_frame modelDir dir⟩
  rw [fromDir_eq_map, map_ok]
  constructor
  · intro h
    obtain ⟨base, hbase, hresolve⟩ := h
    exact ⟨base, iniDescribes_of_ok hbase, hresolve.symm⟩
  · intro h
    obtain ⟨base, hbase, hresolve⟩ := h
    exact ⟨base, ok_of_iniDescribes hbase, hresolve.symm⟩

end Jellybean.Model
