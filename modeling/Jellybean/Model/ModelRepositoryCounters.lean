import Mathlib.Data.Set.Card
import Jellybean.Model.ModelRepositoryIsolation

namespace Jellybean.Model

namespace ModelRegistry

def empty : ModelRegistry := fun _ => none

/-- `ModelInfo`, an element of `list()`. -/
structure ModelInfo where
  name : Text
  state : LoadState
  version : Int

/-- The elements of `list()`. -/
def list (reg : ModelRegistry) : Set ModelInfo :=
  {info | ∃ data, reg info.name = some data ∧ info.state = data.state ∧
    info.version = data.config.version}

def inState (reg : ModelRegistry) (state : LoadState) : Set Text :=
  {name | ∃ data, reg name = some data ∧ data.state = state}

end ModelRegistry

namespace ModelRepository

variable {load : Loader} {repoRoot : Text} {dirs done : List DirEntry} {dir : DirEntry}
  {result : LoadResult} {reg : ModelRegistry}

/-- The config that `load_model` parses of an entry. -/
def configOf (repoRoot : Text) (dir : DirEntry) : Option ModelConfig :=
  if isModelDir dir then (fromDir (modelDir repoRoot dir) dir).toOption else none

def configs (repoRoot : Text) (dirs : List DirEntry) : List ModelConfig :=
  dirs.filterMap (configOf repoRoot)

/-- The names under which the models are registered. -/
def modelNames (repoRoot : Text) (dirs : List DirEntry) : List Text :=
  (configs repoRoot dirs).map (·.name)

/-- The config of every model directory parses. -/
def Parses (repoRoot : Text) (dirs : List DirEntry) : Prop :=
  ∀ dir ∈ dirs, isModelDir dir = true → ∃ cfg, fromDir (modelDir repoRoot dir) dir = .ok cfg

/-- In every order of the entries the scan of an empty registry counts each directory once, counts
as loaded and failed what the registry then lists as ready and failed, leaves nothing loading, and
lists the same models. -/
def CountsRight (load : Loader) (repoRoot : Text) (dirs : List DirEntry) : Prop :=
  ∃ infos, ∀ order : List DirEntry, order.Perm dirs → ∃ result reg,
    scanAndLoad load repoRoot (some order) .empty = .ok (result, reg) ∧
      result.loaded + result.failed + result.skipped = order.countP (·.isDirectory) ∧
      result.loaded = (reg.inState .ready).ncard ∧ result.failed = (reg.inState .failed).ncard ∧
      reg.inState .loading = ∅ ∧ reg.list = infos

/-- The result and the registry after the entries `done`. -/
structure Scanned (load : Loader) (repoRoot : Text) (done : List DirEntry) (result : LoadResult)
    (reg : ModelRegistry) : Prop where
  loaded : result.loaded =
    (configs repoRoot done).countP fun cfg => !(configVerdict load cfg).isBad
  failed : result.failed = (configs repoRoot done).countP fun cfg => (configVerdict load cfg).isBad
  total : result.loaded + result.failed + result.skipped = done.countP (·.isDirectory)
  sound : ∀ name data, reg name = some data →
    ∃ cfg ∈ configs repoRoot done, cfg.name = name ∧ name ≠ [] ∧ data = loadedEntry load cfg
  complete : ∀ cfg ∈ configs repoRoot done, cfg.name ≠ [] → (reg cfg.name).isSome

theorem configs_concat (repoRoot : Text) (done : List DirEntry) (dir : DirEntry) :
    configs repoRoot (done ++ [dir]) = configs repoRoot done ++ (configOf repoRoot dir).toList := by
  unfold configs
  rw [List.filterMap_append]
  cases h : configOf repoRoot dir <;> simp [h]

theorem Scanned.ignored (h : Scanned load repoRoot done result reg) (hdir : isModelDir dir = false) :
    Scanned load repoRoot (done ++ [dir])
      { result with skipped := result.skipped + dir.isDirectory.toNat } reg := by
  have hconfigs : configs repoRoot (done ++ [dir]) = configs repoRoot done := by
    rw [configs_concat, configOf, hdir]
    exact List.append_nil _
  refine ⟨?_, ?_, ?_, ?_, ?_⟩
  · rw [hconfigs]
    exact h.loaded
  · rw [hconfigs]
    exact h.failed
  · rw [List.countP_append, List.countP_singleton, ← h.total]
    cases dir.isDirectory <;> simp
    omega
  · rw [hconfigs]
    exact h.sound
  · rw [hconfigs]
    exact h.complete

theorem loadConfig_registry (load : Loader) (cfg : ModelConfig) (reg : ModelRegistry) :
    (loadConfig load cfg reg).2 = if cfg.name = [] then reg
      else Function.update reg cfg.name (some (loadedEntry load cfg)) := by
  by_cases hname : cfg.name = []
  · simp [loadConfig, hname]
  · rw [loadConfig_eq load hname, if_neg hname]

theorem Scanned.counted (h : Scanned load repoRoot done result reg) (hdir : isModelDir dir = true)
    {cfg : ModelConfig} (hcfg : fromDir (modelDir repoRoot dir) dir = .ok cfg) :
    Scanned load repoRoot (done ++ [dir])
      (LoadResult.count result dir (loadConfig load cfg reg).1) (loadConfig load cfg reg).2 := by
  have hconfigs : configs repoRoot (done ++ [dir]) = configs repoRoot done ++ [cfg] := by
    rw [configs_concat, configOf, hdir, hcfg]
    rfl
  have hisdir : dir.isDirectory = true := by
    simp only [isModelDir, Bool.and_eq_true] at hdir
    exact hdir.1.1
  have hok := (loadConfig_spec load cfg reg).1
  have hmem : ∀ c, c ∈ configs repoRoot (done ++ [dir]) ↔ c ∈ configs repoRoot done ∨ c = cfg := by
    intro c
    rw [hconfigs, List.mem_append, List.mem_singleton]
  refine ⟨?_, ?_, ?_, ?_, ?_⟩
  · rw [hconfigs, List.countP_append, List.countP_singleton, ← h.loaded, hok]
    cases (configVerdict load cfg).isBad <;> rfl
  · rw [hconfigs, List.countP_append, List.countP_singleton, ← h.failed, hok]
    cases (configVerdict load cfg).isBad <;> rfl
  · rw [List.countP_append, List.countP_singleton, if_pos hisdir, ← h.total]
    cases (loadConfig load cfg reg).1 <;> simp only [LoadResult.count] <;> omega
  · intro name data hdata
    rw [loadConfig_registry] at hdata
    by_cases hname : cfg.name = []
    · have hreg : (loadConfig load cfg reg).2 = reg := by simp [loadConfig, hname]
      rw [if_pos hname] at hdata
      obtain ⟨c, hc, hrest⟩ := h.sound name data hdata
      exact ⟨c, (hmem c).mpr (.inl hc), hrest⟩
    · rw [if_neg hname] at hdata
      by_cases hn : name = cfg.name
      · subst hn
        rw [Function.update_self] at hdata
        exact ⟨cfg, (hmem cfg).mpr (.inr rfl), rfl, hname, (Option.some.inj hdata).symm⟩
      · rw [Function.update_of_ne hn] at hdata
        obtain ⟨c, hc, hrest⟩ := h.sound name data hdata
        exact ⟨c, (hmem c).mpr (.inl hc), hrest⟩
  · intro c hc hcname
    rw [loadConfig_registry]
    by_cases hname : cfg.name = []
    · have hreg : (loadConfig load cfg reg).2 = reg := by simp [loadConfig, hname]
      rw [if_pos hname]
      rcases (hmem c).mp hc with hc | hc
      · exact h.complete c hc hcname
      · exact absurd (hc ▸ hname) hcname
    · rw [if_neg hname]
      by_cases hn : c.name = cfg.name
      · rw [hn, Function.update_self]
        rfl
      · rw [Function.update_of_ne hn]
        rcases (hmem c).mp hc with hc | hc
        · exact h.complete c hc hcname
        · exact absurd (congrArg ModelConfig.name hc) hn

/-- One turn of the loop. -/
theorem scanEntry_scanned (h : Scanned load repoRoot done result reg)
    (hparse : isModelDir dir = true → ∃ cfg, fromDir (modelDir repoRoot dir) dir = .ok cfg) :
    ∃ result' reg', scanEntry load repoRoot dir result reg = .ok (result', reg') ∧
      Scanned load repoRoot (done ++ [dir]) result' reg' := by
  cases hdir : isModelDir dir with
  | false => exact ⟨_, _, scanEntry_ignored hdir result reg, h.ignored hdir⟩
  | true =>
    obtain ⟨cfg, hcfg⟩ := hparse hdir
    refine ⟨_, _, ?_, h.counted hdir hcfg⟩
    rw [scanEntry_modelDir hdir, hcfg]
    rfl

theorem scanLoop_scanned (h : Scanned load repoRoot done result reg) (hparse : Parses repoRoot dirs) :
    ∃ result' reg', scanLoop load repoRoot dirs result reg = .ok (result', reg') ∧
      Scanned load repoRoot (done ++ dirs) result' reg' := by
  induction dirs generalizing done result reg with
  | nil =>
    rw [List.append_nil]
    exact ⟨result, reg, rfl, h⟩
  | cons dir dirs ih =>
    obtain ⟨result₁, reg₁, hentry, h₁⟩ := scanEntry_scanned h (hparse dir List.mem_cons_self)
    obtain ⟨result₂, reg₂, hloop, h₂⟩ := ih h₁ fun d hd => hparse d (List.mem_cons_of_mem dir hd)
    refine ⟨result₂, reg₂, ?_, ?_⟩
    · rw [scanLoop, hentry]
      exact hloop
    · rw [List.append_assoc] at h₂
      exact h₂

theorem scanAndLoad_scanned (load : Loader) (hparse : Parses repoRoot dirs) :
    ∃ result reg, scanAndLoad load repoRoot (some dirs) .empty = .ok (result, reg) ∧
      Scanned load repoRoot dirs result reg := by
  have hstart : Scanned load repoRoot [] {} .empty := by
    refine ⟨rfl, rfl, rfl, ?_, ?_⟩
    · intro name data hdata
      cases hdata
    · intro cfg hcfg
      simp [configs] at hcfg
  exact scanLoop_scanned hstart hparse

theorem loadedEntry_cases (load : Loader) (cfg : ModelConfig) :
    (loadedEntry load cfg).state = .ready ∨ (loadedEntry load cfg).state = .failed := by
  unfold loadedEntry
  split
  · exact .inl rfl
  · exact .inr rfl

theorem loadedEntry_config (load : Loader) (cfg : ModelConfig) :
    (loadedEntry load cfg).config = cfg := by
  unfold loadedEntry
  split <;> rfl

theorem loadedEntry_ready_iff (load : Loader) {cfg : ModelConfig} (hname : cfg.name ≠ []) :
    (loadedEntry load cfg).state = .ready ↔ (configVerdict load cfg).isBad = false := by
  unfold loadedEntry configVerdict
  rw [if_neg hname]
  split <;> simp [Verdict.isBad]

namespace Scanned

theorem loading_empty (h : Scanned load repoRoot dirs result reg) : reg.inState .loading = ∅ := by
  rw [Set.eq_empty_iff_forall_notMem]
  intro name hname
  obtain ⟨data, hdata, hstate⟩ := hname
  obtain ⟨cfg, _, _, _, rfl⟩ := h.sound name data hdata
  rcases loadedEntry_cases load cfg with hc | hc
  · rw [hc] at hstate
    cases hstate
  · rw [hc] at hstate
    cases hstate

/-- What is registered is ready or failed, under a name that some config gives. -/
theorem ready_union_failed (h : Scanned load repoRoot dirs result reg) :
    reg.inState .ready ∪ reg.inState .failed =
      ((modelNames repoRoot dirs).toFinset.erase [] : Finset Text) := by
  ext name
  rw [Finset.mem_coe, Finset.mem_erase, List.mem_toFinset, modelNames, List.mem_map]
  constructor
  · intro hname
    obtain ⟨data, hdata, _⟩ | ⟨data, hdata, _⟩ := hname
    · obtain ⟨cfg, hcfg, hn, hne, _⟩ := h.sound name data hdata
      exact ⟨hne, cfg, hcfg, hn⟩
    · obtain ⟨cfg, hcfg, hn, hne, _⟩ := h.sound name data hdata
      exact ⟨hne, cfg, hcfg, hn⟩
  · intro hname
    obtain ⟨hne, cfg, hcfg, rfl⟩ := hname
    obtain ⟨data, hdata⟩ := Option.isSome_iff_exists.mp (h.complete cfg hcfg hne)
    obtain ⟨c, _, _, _, hc⟩ := h.sound _ data hdata
    rcases loadedEntry_cases load c with hstate | hstate
    · exact .inl ⟨data, hdata, hc ▸ hstate⟩
    · exact .inr ⟨data, hdata, hc ▸ hstate⟩

theorem ncard_add (h : Scanned load repoRoot dirs result reg) :
    (reg.inState .ready).ncard + (reg.inState .failed).ncard =
      ((modelNames repoRoot dirs).toFinset.erase []).card := by
  have hunion := h.ready_union_failed
  have hfinite : (reg.inState .ready ∪ reg.inState .failed).Finite := by
    rw [hunion]
    exact Finset.finite_toSet _
  have hdisjoint : Disjoint (reg.inState .ready) (reg.inState .failed) := by
    rw [Set.disjoint_left]
    intro name hready hfailed
    obtain ⟨data, hdata, hstate⟩ := hready
    obtain ⟨data', hdata', hstate'⟩ := hfailed
    rw [hdata] at hdata'
    rw [← Option.some.inj hdata', hstate] at hstate'
    cases hstate'
  rw [← Set.ncard_union_eq hdisjoint (hfinite.subset Set.subset_union_left)
    (hfinite.subset Set.subset_union_right), hunion, Set.ncard_coe_finset]

theorem loaded_add_failed (h : Scanned load repoRoot dirs result reg) :
    result.loaded + result.failed = (modelNames repoRoot dirs).length := by
  have hsplit := List.length_eq_countP_add_countP (fun cfg => (configVerdict load cfg).isBad)
    (l := configs repoRoot dirs)
  rw [h.loaded, h.failed, modelNames, List.length_map, hsplit, Nat.add_comm]
  simp

/-- Counters that agree with the registry leave no room for a name that is used twice or empty. -/
theorem names_of_counts (h : Scanned load repoRoot dirs result reg)
    (hl : result.loaded = (reg.inState .ready).ncard)
    (hf : result.failed = (reg.inState .failed).ncard) :
    (modelNames repoRoot dirs).Nodup ∧ [] ∉ modelNames repoRoot dirs := by
  have hlength := h.loaded_add_failed
  rw [hl, hf, h.ncard_add] at hlength
  have herase := Finset.card_erase_le (s := (modelNames repoRoot dirs).toFinset) (a := [])
  have hle := (modelNames repoRoot dirs).toFinset_card_le
  constructor
  · have hcard : (modelNames repoRoot dirs).toFinset.card = (modelNames repoRoot dirs).length := by
      omega
    exact Multiset.toFinset_card_eq_card_iff_nodup.mp hcard
  · intro hmem
    have hlt := Finset.card_erase_lt_of_mem (List.mem_toFinset.mpr hmem)
    omega

/-- With names that are all different each config has its own entry. -/
theorem registered_iff (h : Scanned load repoRoot dirs result reg)
    (hnodup : (modelNames repoRoot dirs).Nodup) (hne : [] ∉ modelNames repoRoot dirs) {name : Text}
    {data : ModelMetadata} : reg name = some data ↔
      ∃ cfg ∈ configs repoRoot dirs, cfg.name = name ∧ data = loadedEntry load cfg := by
  constructor
  · intro hdata
    obtain ⟨cfg, hcfg, hname, _, heq⟩ := h.sound name data hdata
    exact ⟨cfg, hcfg, hname, heq⟩
  · intro hcfg
    obtain ⟨cfg, hcfg, rfl, rfl⟩ := hcfg
    have hname : cfg.name ≠ [] := by
      intro hnil
      exact hne (List.mem_map.mpr ⟨cfg, hcfg, hnil⟩)
    obtain ⟨data, hdata⟩ := Option.isSome_iff_exists.mp (h.complete cfg hcfg hname)
    obtain ⟨c, hc, hcname, _, rfl⟩ := h.sound _ data hdata
    have hsame : c = cfg := List.inj_on_of_nodup_map hnodup hc hcfg hcname
    rw [hdata, hsame]

theorem inState_ncard (h : Scanned load repoRoot dirs result reg)
    (hnodup : (modelNames repoRoot dirs).Nodup) (hne : [] ∉ modelNames repoRoot dirs)
    {state : LoadState} {p : ModelConfig → Bool}
    (hp : ∀ cfg ∈ configs repoRoot dirs, (loadedEntry load cfg).state = state ↔ p cfg = true) :
    (reg.inState state).ncard = (configs repoRoot dirs).countP p := by
  have hset : reg.inState state =
      (((configs repoRoot dirs).filter p).map (·.name)).toFinset := by
    ext name
    rw [Finset.mem_coe, List.mem_toFinset, List.mem_map]
    constructor
    · intro hname
      obtain ⟨data, hdata, hstate⟩ := hname
      obtain ⟨cfg, hcfg, hn, rfl⟩ := (h.registered_iff hnodup hne).mp hdata
      exact ⟨cfg, List.mem_filter.mpr ⟨hcfg, (hp cfg hcfg).mp hstate⟩, hn⟩
    · intro hname
      obtain ⟨cfg, hcfg, hn⟩ := hname
      rw [List.mem_filter] at hcfg
      exact ⟨_, (h.registered_iff hnodup hne).mpr ⟨cfg, hcfg.1, hn, rfl⟩,
        (hp cfg hcfg.1).mpr hcfg.2⟩
  have hdistinct : (((configs repoRoot dirs).filter p).map (·.name)).Nodup :=
    hnodup.sublist (List.filter_sublist.map _)
  rw [hset, Set.ncard_coe_finset, List.toFinset_card_of_nodup hdistinct, List.length_map,
    List.countP_eq_length_filter]

theorem list_eq (h : Scanned load repoRoot dirs result reg)
    (hnodup : (modelNames repoRoot dirs).Nodup) (hne : [] ∉ modelNames repoRoot dirs) :
    reg.list = {info | ∃ cfg ∈ configs repoRoot dirs,
      info = ⟨cfg.name, (loadedEntry load cfg).state, cfg.version⟩} := by
  ext info
  constructor
  · intro hinfo
    obtain ⟨data, hdata, hstate, hversion⟩ := hinfo
    obtain ⟨cfg, hcfg, hname, rfl⟩ := (h.registered_iff hnodup hne).mp hdata
    rw [loadedEntry_config] at hversion
    refine ⟨cfg, hcfg, ?_⟩
    cases info
    simp_all
  · intro hinfo
    obtain ⟨cfg, hcfg, rfl⟩ := hinfo
    exact ⟨_, (h.registered_iff hnodup hne).mpr ⟨cfg, hcfg, rfl, rfl⟩, rfl,
      (congrArg ModelConfig.version (loadedEntry_config load cfg)).symm⟩

theorem counts_of_names (h : Scanned load repoRoot dirs result reg)
    (hnodup : (modelNames repoRoot dirs).Nodup) (hne : [] ∉ modelNames repoRoot dirs) :
    result.loaded = (reg.inState .ready).ncard ∧ result.failed = (reg.inState .failed).ncard := by
  have hready : ∀ cfg ∈ configs repoRoot dirs,
      (loadedEntry load cfg).state = .ready ↔ (!(configVerdict load cfg).isBad) = true := by
    intro cfg hcfg
    have hname : cfg.name ≠ [] := by
      intro hnil
      exact hne (List.mem_map.mpr ⟨cfg, hcfg, hnil⟩)
    rw [loadedEntry_ready_iff load hname, Bool.not_eq_true']
  have hfailed : ∀ cfg ∈ configs repoRoot dirs,
      (loadedEntry load cfg).state = .failed ↔ (configVerdict load cfg).isBad = true := by
    intro cfg hcfg
    have hiff := hready cfg hcfg
    rw [Bool.not_eq_true'] at hiff
    rcases loadedEntry_cases load cfg with hstate | hstate
    · simp [hstate, hiff.mp hstate]
    · simp only [hstate, reduceCtorEq, false_iff, Bool.not_eq_false] at hiff
      simp [hstate, hiff]
  exact ⟨h.loaded.trans (h.inState_ncard hnodup hne hready).symm,
    h.failed.trans (h.inState_ncard hnodup hne hfailed).symm⟩

end Scanned

theorem Parses.perm {order : List DirEntry} (h : Parses repoRoot dirs) (hp : order.Perm dirs) :
    Parses repoRoot order := by
  intro dir hdir
  exact h dir (hp.mem_iff.mp hdir)

theorem parses_of (h : dirs.all (fun dir => (fromDir (modelDir repoRoot dir) dir).isOk) = true) :
    Parses repoRoot dirs := by
  intro dir hdir _
  have hok := List.all_eq_true.mp h dir hdir
  cases hcfg : fromDir (modelDir repoRoot dir) dir with
  | ok cfg => exact ⟨cfg, rfl⟩
  | error e =>
    rw [hcfg] at hok
    cases hok

theorem names_of_countsRight (hparse : Parses repoRoot dirs)
    (hall : CountsRight load repoRoot dirs) :
    (modelNames repoRoot dirs).Nodup ∧ [] ∉ modelNames repoRoot dirs := by
  obtain ⟨_, hall⟩ := hall
  obtain ⟨result, reg, hscan, _, hloaded, hfailed, _⟩ := hall dirs (List.Perm.refl dirs)
  obtain ⟨result', reg', hscan', hscanned⟩ := scanAndLoad_scanned load hparse
  rw [hscan] at hscan'
  cases hscan'
  exact hscanned.names_of_counts hloaded hfailed

/-- Counters and registry agree, and no order shows, exactly where the configs of the model
directories give names that are all different and none of which is empty. -/
theorem countsRight_iff (load : Loader) (repoRoot : Text) (dirs : List DirEntry)
    (hparse : Parses repoRoot dirs) : CountsRight load repoRoot dirs ↔
      (modelNames repoRoot dirs).Nodup ∧ [] ∉ modelNames repoRoot dirs := by
  constructor
  · exact names_of_countsRight hparse
  · intro hnames
    obtain ⟨hnodup, hne⟩ := hnames
    refine ⟨{info | ∃ cfg ∈ configs repoRoot dirs,
      info = ⟨cfg.name, (loadedEntry load cfg).state, cfg.version⟩}, ?_⟩
    intro order hp
    have hconfigs : (configs repoRoot order).Perm (configs repoRoot dirs) := hp.filterMap _
    have hperm : (modelNames repoRoot order).Perm (modelNames repoRoot dirs) := hconfigs.map _
    have hnodup' : (modelNames repoRoot order).Nodup := hperm.nodup_iff.mpr hnodup
    have hne' : [] ∉ modelNames repoRoot order := by
      intro hmem
      exact hne (hperm.mem_iff.mp hmem)
    obtain ⟨result, reg, hscan, hscanned⟩ := scanAndLoad_scanned load (hparse.perm hp)
    obtain ⟨hloaded, hfailed⟩ := hscanned.counts_of_names hnodup' hne'
    refine ⟨result, reg, hscan, hscanned.total, hloaded, hfailed, hscanned.loading_empty, ?_⟩
    rw [hscanned.list_eq hnodup' hne']
    ext info
    simp only [Set.mem_ofPred_eq, hconfigs.mem_iff]

/-- The directory of a model with version 1, and what its config says. -/
def modelNamed (dirName ini : String) : DirEntry :=
  ⟨dirName.toList, true, some ini.toList, [⟨"1".toList, true, ["model.pt".toList]⟩]⟩

theorem countsRight_two : CountsRight (fun _ _ _ => true) "models".toList
    [modelNamed "bert" "version=1", modelNamed "resnet" "backend=onnx"] :=
  (countsRight_iff _ _ _ (parses_of (by decide +kernel))).mpr (by decide +kernel)

/-- An empty name is counted as failed and never registered; of two directories with one name the
one that is listed last stays. -/
theorem nameless_and_clash :
    ¬CountsRight (fun _ _ _ => true) "models".toList [modelNamed "bert" "name="] ∧
    ¬CountsRight (fun _ _ _ => true) "models".toList
      [modelNamed "bert" "version=1", modelNamed "bert2" "name=bert"] := by
  constructor
  · intro hall
    have hnames := names_of_countsRight (parses_of (by decide +kernel)) hall
    exact hnames.2 (by decide +kernel)
  · intro hall
    have hnames := names_of_countsRight (parses_of (by decide +kernel)) hall
    exact absurd hnames.1 (by decide +kernel)

end ModelRepository

end Jellybean.Model
