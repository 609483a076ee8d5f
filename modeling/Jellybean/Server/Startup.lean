import Jellybean.Inference.Runtime
import Jellybean.Model.ModelRepositoryCounters
import Jellybean.Server.ServerConfig

namespace Jellybean.Server.Startup

open Jellybean.Model (Text ConversionError ModelMetadata ModelRegistry DirEntry)
open Jellybean.Model.ModelRegistry (ModelInfo)
open Jellybean.Model.ModelRepository
open ServerConfig (ExtendedConfig fromFile loadExtendedConfig)

/-- What `main` returns 1 for. -/
inductive StartError where
  | config (e : ConversionError)
  | scan (e : ConversionError)
  /-- "No models were successfully loaded from repository: " -/
  | noModels (repository : Text)
  /-- "Failed to bind socket: " -/
  | bind
  deriving DecidableEq

/-- An executor that `register_model` made and started. -/
structure Executor where
  model : ModelMetadata
  config : Model.ModelExecutor.Config

def makeExecutor (workerThreads : Nat) (m : ModelMetadata) : Executor :=
  ⟨m, Inference.InferenceRuntime.executorConfig workerThreads m⟩

/-- `executors_` of the runtime. -/
abbrev Executors := Text → Option Executor

/-- `InferenceRuntime::register_model` while nobody else uses the runtime, and what it returns. -/
def registerModel (workerThreads : Nat) (executors : Executors) (modelId : Text)
    (data : Option ModelMetadata) : Executors × Bool :=
  match data with
  | none => (executors, false)
  | some m =>
    if Inference.InferenceRuntime.isReady m then
      match executors modelId with
      | some _ => (executors, false)
      | none =>
        (Function.update executors modelId (some (makeExecutor workerThreads m)), true)
    else (executors, false)

/-- `ModelRegistry::lookup_ready`. -/
def lookupReady (reg : ModelRegistry) (modelId : Text) : Option ModelMetadata :=
  (reg.lookup modelId).filter Inference.InferenceRuntime.isReady

/-- One turn of the loop over `registry.list()`. -/
def registerInfo (workerThreads : Nat) (reg : ModelRegistry) (executors : Executors)
    (info : ModelInfo) : Executors :=
  if info.state = .ready then
    match lookupReady reg info.name with
    | some data => (registerModel workerThreads executors info.name (some data)).1
    | none => executors
  else executors

structure Serving where
  config : ExtendedConfig
  executors : Executors

/-- `main` up to the point where it accepts connections: `file` is the text of the configuration
file, `tree` what stands in a repository, `listing` what `list()` returns, and `bound` whether
`bind` succeeds. -/
def main (load : Loader) (file : Option Text) (tree : Text → Option (List DirEntry))
    (listing : List ModelInfo) (bound : Bool) : Except StartError Serving := do
  let runtimeCfg ← (fromFile file).mapError .config
  let extCfg ← (loadExtendedConfig file).mapError .config
  let (result, registry) ← (scanAndLoad load extCfg.modelRepository (tree extCfg.modelRepository)
    .empty).mapError fun e => .scan e.1
  if result.loaded = 0 then throw (.noModels extCfg.modelRepository)
  let executors :=
    listing.foldl (registerInfo runtimeCfg.workerThreads registry) fun _ => none
  if bound = false then throw .bind
  return ⟨extCfg, executors⟩

variable {load : Loader} {repoRoot : Text} {dirs : List DirEntry} {reg : ModelRegistry}
  {workerThreads : Nat} {n : Text}

/-! The loop over `list()`. -/

theorem lookupReady_isSome : (lookupReady reg n).isSome = true ↔ reg.isReady n = true := by
  unfold lookupReady ModelRegistry.isReady
  cases reg.lookup n with
  | none => rfl
  | some data =>
    rw [Option.any_some, Option.filter_some]
    unfold Inference.InferenceRuntime.isReady
    split_ifs with h
    · simp [h]
    · simp [h]

theorem registerInfo_eq (executors : Executors) (info : ModelInfo) :
    registerInfo workerThreads reg executors info n =
      (executors n).or (if info.name = n ∧ info.state = .ready then
        (lookupReady reg n).map (makeExecutor workerThreads) else none) := by
  unfold registerInfo
  by_cases hstate : info.state = .ready
  swap
  · rw [if_neg hstate, if_neg (by simp [hstate]), Option.or_none]
  rw [if_pos hstate]
  by_cases hname : info.name = n
  swap
  · rw [if_neg (by simp [hname]), Option.or_none]
    cases lookupReady reg info.name with
    | none => rfl
    | some data =>
      dsimp only [registerModel]
      split_ifs
      · cases executors info.name with
        | none => exact Function.update_of_ne (Ne.symm hname) _ _
        | some x => rfl
      · rfl
  subst hname
  rw [if_pos ⟨rfl, hstate⟩]
  cases hdata : lookupReady reg info.name with
  | none => rw [Option.map_none, Option.or_none]
  | some data =>
    have hready : Inference.InferenceRuntime.isReady data = true :=
      (Option.filter_eq_some_iff.mp hdata).2
    dsimp only [registerModel]
    rw [if_pos hready]
    cases hx : executors info.name with
    | none =>
      dsimp only
      rw [Function.update_self]
      rfl
    | some x =>
      dsimp only
      rw [hx]
      rfl

theorem foldl_registerInfo (listing : List ModelInfo) (executors : Executors) :
    listing.foldl (registerInfo workerThreads reg) executors n =
      (executors n).or (if ∃ info ∈ listing, info.name = n ∧ info.state = .ready then
        (lookupReady reg n).map (makeExecutor workerThreads) else none) := by
  induction listing generalizing executors with
  | nil => simp
  | cons info listing ih =>
    rw [List.foldl_cons, ih, registerInfo_eq, Option.or_assoc]
    congr 1
    by_cases hinfo : info.name = n ∧ info.state = .ready
    · have hlisted : ∃ i ∈ info :: listing, i.name = n ∧ i.state = .ready :=
        ⟨info, List.mem_cons_self, hinfo⟩
      rw [if_pos hinfo, if_pos hlisted]
      cases (lookupReady reg n).map (makeExecutor workerThreads) with
      | none => simp
      | some x => rfl
    · rw [if_neg hinfo, Option.none_or]
      have hiff : (∃ i ∈ info :: listing, i.name = n ∧ i.state = .ready) ↔
          ∃ i ∈ listing, i.name = n ∧ i.state = .ready := by
        rw [List.exists_mem_cons_iff, or_iff_right hinfo]
      simp only [hiff]

/-- Whatever the order of the list, every model that is ready gets its executor. -/
theorem executors_eq {listing : List ModelInfo} (h : ∀ info, info ∈ listing ↔ info ∈ reg.list) :
    listing.foldl (registerInfo workerThreads reg) (fun _ => none) n =
      (lookupReady reg n).map (makeExecutor workerThreads) := by
  rw [foldl_registerInfo, Option.none_or]
  split_ifs with hlisted
  · rfl
  · cases hdata : lookupReady reg n with
    | none => rfl
    | some data =>
      obtain ⟨hreg, hready⟩ := Option.filter_eq_some_iff.mp hdata
      refine absurd ⟨⟨n, data.state, data.config.version⟩, (h _).mpr ⟨data, hreg, rfl, rfl⟩, rfl, ?_⟩
        hlisted
      exact of_decide_eq_true hready

/-! The repository. -/

/-- Some directory loads the model, and no later one fails to. -/
def LoadedLast (vs : List Verdict) (n : Text) : Prop :=
  ∃ before after, vs = before ++ Verdict.loads n :: after ∧ Verdict.fails n ∉ after

theorem loadedLast_concat (vs : List Verdict) (v : Verdict) :
    LoadedLast (vs ++ [v]) n ↔ v = .loads n ∨ (v ≠ .fails n ∧ LoadedLast vs n) := by
  constructor
  · intro h
    obtain ⟨before, after, heq, hfails⟩ := h
    cases after using List.reverseRecOn with
    | nil =>
      obtain ⟨-, hv⟩ := List.append_inj' heq rfl
      exact .inl (List.singleton_inj.mp hv)
    | append_singleton after w =>
      rw [← List.cons_append, ← List.append_assoc] at heq
      obtain ⟨hvs, hv⟩ := List.append_inj' heq rfl
      obtain rfl := List.singleton_inj.mp hv
      rw [List.mem_append, List.mem_singleton] at hfails
      refine .inr ⟨?_, before, after, hvs, fun h => hfails (.inl h)⟩
      intro hbad
      exact hfails (.inr hbad.symm)
  · intro h
    obtain rfl | ⟨hv, before, after, rfl, hfails⟩ := h
    · exact ⟨vs, [], rfl, List.not_mem_nil⟩
    · refine ⟨before, after ++ [v], by simp, ?_⟩
      rw [List.mem_append, List.mem_singleton]
      intro hbad
      obtain hbad | hbad := hbad
      · exact hfails hbad
      · exact hv hbad.symm

theorem readyAfter_iff (vs : List Verdict) :
    readyAfter vs (fun _ => false) n = true ↔ LoadedLast vs n := by
  induction vs using List.reverseRecOn with
  | nil =>
    refine iff_of_false Bool.false_ne_true ?_
    intro h
    obtain ⟨before, after, heq, -⟩ := h
    cases before with
    | nil => cases heq
    | cons v before => cases heq
  | append_singleton vs v ih =>
    rw [readyAfter_concat, loadedLast_concat]
    by_cases hl : v = .loads n
    · rw [hl]
      simp [Verdict.setReady]
    · by_cases hf : v = .fails n
      · rw [hf]
        simp [Verdict.setReady]
      · rw [setReady_self hl hf, ih]
        simp [hl, hf]

theorem mem_configs {cfg : Model.ModelConfig} :
    cfg ∈ configs repoRoot dirs ↔
      ∃ dir ∈ dirs, isModelDir dir = true ∧ Model.fromDir (modelDir repoRoot dir) dir = .ok cfg := by
  unfold configs configOf
  rw [List.mem_filterMap]
  constructor
  · intro h
    obtain ⟨dir, hdir, hcfg⟩ := h
    split_ifs at hcfg with hmodel
    refine ⟨dir, hdir, hmodel, ?_⟩
    cases hf : Model.fromDir (modelDir repoRoot dir) dir with
    | error e =>
      rw [hf] at hcfg
      cases hcfg
    | ok c =>
      rw [hf] at hcfg
      cases hcfg
      rfl
  · intro h
    obtain ⟨dir, hdir, hmodel, hcfg⟩ := h
    exact ⟨dir, hdir, by rw [if_pos hmodel, hcfg]; rfl⟩

theorem parses_iff (load : Loader) :
    Parses repoRoot dirs ↔ ∀ dir ∈ dirs, ∀ e, verdict load repoRoot dir ≠ .throws e := by
  have hdir : ∀ dir, (isModelDir dir = true →
      ∃ cfg, Model.fromDir (modelDir repoRoot dir) dir = .ok cfg) ↔
        ∀ e, verdict load repoRoot dir ≠ .throws e := by
    intro dir
    unfold verdict
    split_ifs with hmodel
    · cases Model.fromDir (modelDir repoRoot dir) dir with
      | error e =>
        refine iff_of_false ?_ ?_
        · intro h
          obtain ⟨cfg, hcfg⟩ := h hmodel
          cases hcfg
        · intro h
          exact h e rfl
      | ok cfg =>
        refine iff_of_true (fun _ => ⟨cfg, rfl⟩) ?_
        intro e
        dsimp only [configVerdict]
        split_ifs
        · exact fun h => by cases h
        · exact fun h => by cases h
        · exact fun h => by cases h
    · refine iff_of_true (fun h => absurd h hmodel) ?_
      intro e h
      cases h
  unfold Parses
  constructor
  · intro h dir hmem
    exact (hdir dir).mp (h dir hmem)
  · intro h dir hmem
    exact (hdir dir).mpr (h dir hmem)

/-- Something was loaded exactly when some directory loads a model. -/
theorem loaded_pos {result : Model.LoadResult} (h : Scanned load repoRoot dirs result reg) :
    result.loaded ≠ 0 ↔ ∃ n, Verdict.loads n ∈ dirs.map (verdict load repoRoot) := by
  rw [h.loaded, ← Nat.pos_iff_ne_zero, List.countP_pos_iff]
  constructor
  · intro hex
    obtain ⟨cfg, hcfg, hgood⟩ := hex
    obtain ⟨dir, hdir, hmodel, hparse⟩ := mem_configs.mp hcfg
    refine ⟨cfg.name, List.mem_map.mpr ⟨dir, hdir, ?_⟩⟩
    rw [verdict, if_pos hmodel, hparse]
    dsimp only
    unfold configVerdict at hgood ⊢
    split_ifs at hgood ⊢ with hname hload
    · cases hgood
    · rfl
    · cases hgood
  · intro hex
    obtain ⟨n, hn⟩ := hex
    obtain ⟨dir, hdir, hverdict⟩ := List.mem_map.mp hn
    unfold verdict at hverdict
    split_ifs at hverdict with hmodel
    cases hparse : Model.fromDir (modelDir repoRoot dir) dir with
    | error e =>
      rw [hparse] at hverdict
      cases hverdict
    | ok cfg =>
      rw [hparse] at hverdict
      refine ⟨cfg, mem_configs.mpr ⟨dir, hdir, hmodel, hparse⟩, ?_⟩
      dsimp only at hverdict
      rw [hverdict]
      rfl

/-- The executors of a server: one for each model that a directory loads and no later one fails to
load, made for the config of such a directory. -/
structure Serves (load : Loader) (repoRoot : Text) (dirs : List DirEntry) (workerThreads : Nat)
    (executors : Executors) : Prop where
  served : ∀ n, (executors n).isSome = true ↔ LoadedLast (dirs.map (verdict load repoRoot)) n
  made : ∀ n x, executors n = some x → x = makeExecutor workerThreads x.model ∧
    x.model.state = .ready ∧ x.model.config.name = n ∧ x.model.config ∈ configs repoRoot dirs

theorem serves_of_scanned {result : Model.LoadResult} {listing : List ModelInfo}
    (hparse : Parses repoRoot dirs)
    (hscan : scanAndLoad load repoRoot (some dirs) .empty = .ok (result, reg))
    (hscanned : Scanned load repoRoot dirs result reg)
    (hlist : ∀ info, info ∈ listing ↔ info ∈ reg.list) :
    Serves load repoRoot dirs workerThreads
      (listing.foldl (registerInfo workerThreads reg) fun _ => none) := by
  have hready : reg.isReady = readyAfter (dirs.map (verdict load repoRoot)) fun _ => false := by
    obtain ⟨result', reg', hloop, hready, -⟩ :=
      scanLoop_spec ((parses_iff load).mp hparse) {} ModelRegistry.empty
    have hsame : scanLoop load repoRoot dirs {} .empty = .ok (result, reg) := hscan
    rw [hsame] at hloop
    cases hloop
    exact hready
  refine ⟨?_, ?_⟩
  · intro m
    rw [executors_eq hlist, Option.isSome_map, lookupReady_isSome, hready, readyAfter_iff]
  · intro m x hx
    rw [executors_eq hlist] at hx
    obtain ⟨data, hdata, rfl⟩ := Option.map_eq_some_iff.mp hx
    obtain ⟨hreg, hstate⟩ := Option.filter_eq_some_iff.mp hdata
    obtain ⟨cfg, hcfg, hname, -, rfl⟩ := hscanned.sound m data hreg
    have hconfig := loadedEntry_config load cfg
    refine ⟨rfl, of_decide_eq_true hstate, ?_, ?_⟩
    · exact (congrArg Model.ModelConfig.name hconfig).trans hname
    · exact hconfig.symm ▸ hcfg

theorem scanAndLoad_getD (load : Loader) (repoRoot : Text) (root : Option (List DirEntry))
    (reg : ModelRegistry) :
    scanAndLoad load repoRoot root reg = scanAndLoad load repoRoot (some (root.getD [])) reg := by
  cases root with
  | none => rfl
  | some dirs => rfl

variable {file : Option Text} {tree : Text → Option (List DirEntry)} {listing : List ModelInfo}
  {bound : Bool} {serving : Serving}

theorem main_ok_iff :
    main load file tree listing bound = .ok serving ↔
      ∃ runtimeCfg extCfg result registry, fromFile file = .ok runtimeCfg ∧
        loadExtendedConfig file = .ok extCfg ∧
        scanAndLoad load extCfg.modelRepository (some ((tree extCfg.modelRepository).getD []))
          .empty = .ok (result, registry) ∧
        result.loaded ≠ 0 ∧ bound = true ∧ serving = ⟨extCfg, listing.foldl
          (registerInfo runtimeCfg.workerThreads registry) fun _ => none⟩ := by
  constructor
  · intro h
    obtain ⟨runtimeCfg, hruntime, h⟩ := bind_ok.mp h
    obtain ⟨extCfg, hext, h⟩ := bind_ok.mp h
    obtain ⟨⟨result, registry⟩, hscan, h⟩ := bind_ok.mp h
    rw [mapError_ok] at hruntime hext hscan
    rw [scanAndLoad_getD] at hscan
    refine ⟨runtimeCfg, extCfg, result, registry, hruntime, hext, hscan, ?_⟩
    dsimp only at h
    by_cases hloaded : result.loaded = 0
    · rw [if_pos hloaded] at h
      cases h
    · rw [if_neg hloaded] at h
      cases bound with
      | false => cases h
      | true =>
        cases h
        exact ⟨hloaded, rfl, rfl⟩
  · intro h
    obtain ⟨runtimeCfg, extCfg, result, registry, hruntime, hext, hscan, hloaded, hbound, rfl⟩ := h
    refine bind_ok.mpr ⟨runtimeCfg, mapError_ok.mpr hruntime, bind_ok.mpr ⟨extCfg,
      mapError_ok.mpr hext, bind_ok.mpr ⟨(result, registry), mapError_ok.mpr ?_, ?_⟩⟩⟩
    · rw [scanAndLoad_getD]
      exact hscan
    · dsimp only
      rw [if_neg hloaded, hbound]
      rfl

/-- What the directories of the configured repository come to. -/
def verdicts (load : Loader) (tree : Text → Option (List DirEntry)) (cfg : ExtendedConfig) :
    List Verdict :=
  ((tree cfg.modelRepository).getD []).map (verdict load cfg.modelRepository)

/-- Whatever the configuration, the repository holds the model `bert` alone. -/
def onlyBert (_ : Text) : Option (List DirEntry) := some [modelNamed "bert" "version=1"]

/-- The second directory takes the name of the first and has no backend: the server comes up with
no model at all. -/
example : (main (fun _ _ _ => true) none
    (fun _ => some [modelNamed "bert" "version=1", modelNamed "bert2" "name=bert\nbackend=onnx"])
    [⟨"bert".toList, .failed, 1⟩] true).toOption.map (fun s => s.executors "bert".toList |>.isSome) =
      some false := by
  decide +kernel

end Jellybean.Server.Startup
