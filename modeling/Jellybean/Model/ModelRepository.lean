import Jellybean.Model.ModelConfig

namespace Jellybean.Model

/-- `ModelState` of `model_metadata.hpp`. -/
inductive LoadState where
  | unloaded
  | loading
  | ready
  | failed
  | unloading
  deriving DecidableEq

/-- `backend` says whether a backend was stored. -/
structure ModelMetadata where
  config : ModelConfig
  state : LoadState
  backend : Bool
  deriving DecidableEq

/-- `models_`. -/
abbrev ModelRegistry := Text → Option ModelMetadata

namespace ModelRegistry

def lookup (reg : ModelRegistry) (modelId : Text) : Option ModelMetadata := reg modelId

def unregister (reg : ModelRegistry) (modelId : Text) : ModelRegistry :=
  Function.update reg modelId none

/-- `emplace`, and whether it inserted. -/
def registerModel (reg : ModelRegistry) (data : ModelMetadata) : ModelRegistry × Bool :=
  match reg data.config.name with
  | some _ => (reg, false)
  | none => (Function.update reg data.config.name (some data), true)

/-- A write through the pointer to registered metadata. -/
def modify (reg : ModelRegistry) (modelId : Text) (f : ModelMetadata → ModelMetadata) :
    ModelRegistry :=
  Function.update reg modelId ((reg modelId).map f)

/-- `lookup_ready` finds the model. -/
def isReady (reg : ModelRegistry) (modelId : Text) : Bool :=
  (reg.lookup modelId).any fun data => data.state = .ready

end ModelRegistry

structure LoadResult where
  loaded : Nat := 0
  failed : Nat := 0
  skipped : Nat := 0
  failedNames : List Text := []
  deriving DecidableEq

namespace ModelRepository

/-- `make_backend` makes one. -/
def makeBackend : BackendKind → Bool
  | .torchScript => true
  | .onnx => false

/-- `backend->load`. -/
abbrev Loader := Text → Text → DeviceKind → Bool

section

variable (load : Loader) (repoRoot : Text)

/-- `load_model`, from the parsed config on. -/
def loadConfig (cfg : ModelConfig) (reg : ModelRegistry) : Bool × ModelRegistry :=
  if cfg.name = [] then (false, reg)
  else
    let reg := if (reg.lookup cfg.name).isSome then reg.unregister cfg.name else reg
    let (reg, inserted) := reg.registerModel ⟨cfg, .loading, false⟩
    if inserted = false then (false, reg)
    else if makeBackend cfg.backend = false then
      (false, reg.modify cfg.name fun data => { data with state := .failed })
    else if load cfg.name cfg.modelFilePath cfg.device = false then
      (false, reg.modify cfg.name fun data => { data with state := .failed })
    else (true, reg.modify cfg.name fun data => { data with backend := true, state := .ready })

def modelDir (dir : DirEntry) : Text := repoRoot ++ '/' :: dir.name

def loadModel (dir : DirEntry) (reg : ModelRegistry) :
    Except ConversionError (Bool × ModelRegistry) :=
  (fromDir (modelDir repoRoot dir) dir).map fun cfg => loadConfig load cfg reg

/-- Some sub-directory has a name that `stoi` accepts. -/
def hasVersion (dir : DirEntry) : Bool :=
  dir.entries.any fun sub => sub.isDirectory && (stoi sub.name).isOk

def isHidden (dir : DirEntry) : Bool := dir.name.head? = some '.'

/-- One turn of the loop over the repository. -/
def scanEntry (dir : DirEntry) (result : LoadResult) (reg : ModelRegistry) :
    Except ConversionError (LoadResult × ModelRegistry) :=
  if dir.isDirectory = false then .ok (result, reg)
  else if isHidden dir then .ok ({ result with skipped := result.skipped + 1 }, reg)
  else if dir.configIni.isNone ∧ hasVersion dir = false then
    .ok ({ result with skipped := result.skipped + 1 }, reg)
  else do
    let (ok, reg) ← loadModel load repoRoot dir reg
    if ok then return ({ result with loaded := result.loaded + 1 }, reg)
    else return ({ result with
      failed := result.failed + 1
      failedNames := result.failedNames ++ [dir.name] }, reg)

/-- The loop. What a turn throws ends it; the registry is left as it is then. -/
def scanLoop : List DirEntry → LoadResult → ModelRegistry →
    Except (ConversionError × ModelRegistry) (LoadResult × ModelRegistry)
  | [], result, reg => .ok (result, reg)
  | dir :: dirs, result, reg =>
    match scanEntry load repoRoot dir result reg with
    | .error e => .error (e, reg)
    | .ok (result, reg) => scanLoop dirs result reg

/-- `scan_and_load` of a root with these entries, `none` if it is no directory. -/
def scanAndLoad (root : Option (List DirEntry)) (reg : ModelRegistry) :
    Except (ConversionError × ModelRegistry) (LoadResult × ModelRegistry) :=
  match root with
  | none => .ok ({}, reg)
  | some dirs => scanLoop load repoRoot dirs {} reg

end

end ModelRepository

end Jellybean.Model
