import Jellybean.Model.ModelRepository

namespace Jellybean.Model

namespace ModelRepository

/-- What becomes of an entry of the repository, with the name that its config gives the model. -/
inductive Verdict where
  | ignored
  | throws (e : ConversionError)
  | nameless
  | fails (name : Text)
  | loads (name : Text)
  deriving DecidableEq

/-- The config cannot be parsed or the load fails. -/
def Verdict.isBad : Verdict → Bool
  | .throws _ | .nameless | .fails _ => true
  | .ignored | .loads _ => false

/-- The effect on the models that are ready. -/
def Verdict.setReady : Verdict → (Text → Bool) → Text → Bool
  | .fails name, ready => Function.update ready name false
  | .loads name, ready => Function.update ready name true
  | .ignored, ready | .throws _, ready | .nameless, ready => ready

variable (load : Loader) (repoRoot : Text)

/-- The entry is taken for a model directory. -/
def isModelDir (dir : DirEntry) : Bool :=
  dir.isDirectory && !isHidden dir && (dir.configIni.isSome || hasVersion dir)

def configVerdict (cfg : ModelConfig) : Verdict :=
  if cfg.name = [] then .nameless
  else if makeBackend cfg.backend && load cfg.name cfg.modelFilePath cfg.device then .loads cfg.name
  else .fails cfg.name

def verdict (dir : DirEntry) : Verdict :=
  if isModelDir dir then
    match fromDir (modelDir repoRoot dir) dir with
    | .error e => .throws e
    | .ok cfg => configVerdict load cfg
  else .ignored

variable {load repoRoot}

theorem isReady_update (reg : ModelRegistry) (name : Text) (data : ModelMetadata) :
    ModelRegistry.isReady (Function.update reg name (some data)) =
      Function.update reg.isReady name (data.state = .ready) := by
  funext n
  unfold ModelRegistry.isReady ModelRegistry.lookup
  by_cases h : n = name
  · subst h
    simp
  · simp [h]

/-- What `load_model` leaves in the registry. -/
def loadedEntry (load : Loader) (cfg : ModelConfig) : ModelMetadata :=
  if makeBackend cfg.backend && load cfg.name cfg.modelFilePath cfg.device then ⟨cfg, .ready, true⟩
  else ⟨cfg, .failed, false⟩

/-- Hot reload or not, the entry under the name of the config is replaced. -/
theorem loadConfig_eq (load : Loader) {cfg : ModelConfig} (hname : cfg.name ≠ []) (reg : ModelRegistry) :
    loadConfig load cfg reg =
      (makeBackend cfg.backend && load cfg.name cfg.modelFilePath cfg.device,
        Function.update reg cfg.name (some (loadedEntry load cfg))) := by
  have hfree : (if (reg.lookup cfg.name).isSome then reg.unregister cfg.name else reg) cfg.name =
      none := by
    split
    · simp [ModelRegistry.unregister]
    · next h => simpa [ModelRegistry.lookup] using h
  have hupdate : ∀ data : ModelMetadata,
      Function.update (if (reg.lookup cfg.name).isSome then reg.unregister cfg.name else reg)
        cfg.name (some data) = Function.update reg cfg.name (some data) := by
    intro data
    split
    · simp [ModelRegistry.unregister]
    · rfl
  unfold loadConfig loadedEntry
  rw [if_neg hname]
  simp only [ModelRegistry.registerModel, hfree, hupdate, ModelRegistry.modify]
  cases hb : makeBackend cfg.backend with
  | false => simp
  | true =>
    cases hl : load cfg.name cfg.modelFilePath cfg.device with
    | false => simp
    | true => simp

theorem loadedEntry_state (load : Loader) (cfg : ModelConfig) :
    decide ((loadedEntry load cfg).state = .ready) =
      (makeBackend cfg.backend && load cfg.name cfg.modelFilePath cfg.device) := by
  unfold loadedEntry
  split
  · next h => simp [h]
  · next h => simp [h]

theorem loadConfig_spec (load : Loader) (cfg : ModelConfig) (reg : ModelRegistry) :
    (loadConfig load cfg reg).1 = !(configVerdict load cfg).isBad ∧
      (loadConfig load cfg reg).2.isReady = (configVerdict load cfg).setReady reg.isReady := by
  unfold configVerdict
  by_cases hname : cfg.name = []
  · simp [loadConfig, hname, Verdict.isBad, Verdict.setReady]
  · rw [if_neg hname, loadConfig_eq load hname]
    simp only [isReady_update, loadedEntry_state]
    split
    · next h => simp [h, Verdict.isBad, Verdict.setReady]
    · next h => simp [h, Verdict.isBad, Verdict.setReady]

/-- The result after a model directory, by what `load_model` returned. -/
def LoadResult.count (result : LoadResult) (dir : DirEntry) : Bool → LoadResult
  | true => { result with loaded := result.loaded + 1 }
  | false => { result with
      failed := result.failed + 1
      failedNames := result.failedNames ++ [dir.name] }

theorem scanEntry_modelDir {dir : DirEntry} (hdir : isModelDir dir = true) (result : LoadResult)
    (reg : ModelRegistry) :
    scanEntry load repoRoot dir result reg =
      (fromDir (modelDir repoRoot dir) dir).map fun cfg =>
        (LoadResult.count result dir (loadConfig load cfg reg).1, (loadConfig load cfg reg).2) := by
  simp only [isModelDir, Bool.and_eq_true, Bool.not_eq_true'] at hdir
  obtain ⟨⟨hd, hh⟩, hm⟩ := hdir
  have hskip : ¬ (dir.configIni.isNone = true ∧ hasVersion dir = false) := by
    rintro ⟨hc, hv⟩
    rw [Option.isNone_iff_eq_none] at hc
    simp [hc, hv] at hm
  unfold scanEntry loadModel
  rw [if_neg (by simp [hd]), if_neg (by simp [hh]), if_neg hskip]
  cases fromDir (modelDir repoRoot dir) dir with
  | error e => rfl
  | ok cfg =>
    cases hr : loadConfig load cfg reg with
    | mk ok reg' => cases ok <;> simp [Except.map, bind, Except.bind, hr, LoadResult.count, pure, Except.pure]

theorem scanEntry_ignored {dir : DirEntry} (hdir : isModelDir dir = false) (result : LoadResult)
    (reg : ModelRegistry) :
    scanEntry load repoRoot dir result reg =
      .ok ({ result with skipped := result.skipped + dir.isDirectory.toNat }, reg) := by
  unfold scanEntry
  by_cases hd : dir.isDirectory = false
  · rw [if_pos hd, hd]
    rfl
  rw [if_neg hd, (Bool.not_eq_false _).mp hd]
  by_cases hh : isHidden dir = true
  · rw [if_pos hh]
    rfl
  rw [if_neg hh]
  have hskip : dir.configIni.isNone = true ∧ hasVersion dir = false := by
    simpa [isModelDir, hd, hh] using hdir
  rw [if_pos hskip]
  rfl

/-- One turn of the loop, by the verdict on its entry. -/
theorem scanEntry_spec {dir : DirEntry} (hthrow : ∀ e, verdict load repoRoot dir ≠ .throws e)
    (result : LoadResult) (reg : ModelRegistry) :
    ∃ result' reg', scanEntry load repoRoot dir result reg = .ok (result', reg') ∧
      reg'.isReady = (verdict load repoRoot dir).setReady reg.isReady ∧
      result'.failed = result.failed + ((verdict load repoRoot dir).isBad).toNat ∧
      result'.failedNames =
        result.failedNames ++ if (verdict load repoRoot dir).isBad then [dir.name] else [] := by
  cases hdir : isModelDir dir with
  | false =>
    have hv : verdict load repoRoot dir = .ignored := by simp [verdict, hdir]
    rw [hv]
    exact ⟨_, _, scanEntry_ignored hdir result reg, rfl, rfl, (List.append_nil _).symm⟩
  | true =>
    cases hcfg : fromDir (modelDir repoRoot dir) dir with
    | error e => exact absurd (by simp [verdict, hdir, hcfg]) (hthrow e)
    | ok cfg =>
      have hv : verdict load repoRoot dir = configVerdict load cfg := by
        simp [verdict, hdir, hcfg]
      obtain ⟨hok, hready⟩ := loadConfig_spec load cfg reg
      rw [hv, scanEntry_modelDir hdir, hcfg]
      refine ⟨_, _, rfl, hready, ?_, ?_⟩
      · rw [hok]
        cases (configVerdict load cfg).isBad <;> rfl
      · rw [hok]
        cases (configVerdict load cfg).isBad with
        | false => exact (List.append_nil _).symm
        | true => rfl

theorem scanEntry_throws {dir : DirEntry} {e : ConversionError}
    (h : verdict load repoRoot dir = .throws e) (result : LoadResult) (reg : ModelRegistry) :
    scanEntry load repoRoot dir result reg = .error e := by
  cases hdir : isModelDir dir with
  | false => simp [verdict, hdir] at h
  | true =>
    rw [scanEntry_modelDir hdir]
    simp only [verdict, hdir, if_true] at h
    cases hcfg : fromDir (modelDir repoRoot dir) dir with
    | error e' =>
      rw [hcfg] at h
      cases h
      rfl
    | ok cfg =>
      rw [hcfg] at h
      simp only [configVerdict] at h
      split at h
      · cases h
      · split at h <;> cases h

/-- The models that are ready after entries with these verdicts. -/
def readyAfter (vs : List Verdict) (ready : Text → Bool) : Text → Bool :=
  vs.foldl (fun ready v => v.setReady ready) ready

theorem readyAfter_concat (vs : List Verdict) (v : Verdict) (ready : Text → Bool) :
    readyAfter (vs ++ [v]) ready = v.setReady (readyAfter vs ready) := by
  simp [readyAfter]

theorem setReady_self {v : Verdict} {n : Text} (hl : v ≠ .loads n) (hf : v ≠ .fails n)
    (ready : Text → Bool) : v.setReady ready n = ready n := by
  cases v with
  | loads m =>
    have : n ≠ m := by
      rintro rfl
      exact hl rfl
    exact Function.update_of_ne this _ _
  | fails m =>
    have : n ≠ m := by
      rintro rfl
      exact hf rfl
    exact Function.update_of_ne this _ _
  | ignored | throws | nameless => rfl

theorem readyAfter_good (vs : List Verdict) (ready : Text → Bool) (n : Text) :
    readyAfter (vs.filter fun v => !v.isBad) ready n = true ↔
      ready n = true ∨ Verdict.loads n ∈ vs := by
  induction vs using List.reverseRecOn with
  | nil => simp [readyAfter]
  | append_singleton vs v ih =>
    rw [List.filter_append, List.mem_append, List.mem_singleton]
    by_cases hl : v = .loads n
    · subst hl
      have hgood : [Verdict.loads n].filter (fun v => !v.isBad) = [.loads n] := rfl
      rw [hgood, readyAfter_concat]
      simp [Verdict.setReady]
    · have hne : ¬ Verdict.loads n = v := fun h => hl h.symm
      cases hb : v.isBad with
      | true =>
        have : [v].filter (fun v => !v.isBad) = [] := by simp [hb]
        rw [this, List.append_nil, ih]
        simp [hne]
      | false =>
        have : [v].filter (fun v => !v.isBad) = [v] := by simp [hb]
        have hf : v ≠ .fails n := by
          rintro rfl
          cases hb
        rw [this, readyAfter_concat, setReady_self hl hf, ih]
        simp [hne]

/-- Every failure of the model `n` takes nothing away: a later entry loads it, or none before did
and it was not ready at the start. -/
def Replaced (vs : List Verdict) (ready : Text → Bool) (n : Text) : Prop :=
  ∀ before after, vs = before ++ Verdict.fails n :: after →
    Verdict.loads n ∈ after ∨ Verdict.loads n ∉ before ∧ ready n = false

theorem replaced_loads (vs : List Verdict) (ready : Text → Bool) (n : Text) :
    Replaced (vs ++ [.loads n]) ready n := by
  intro before after heq
  cases after using List.reverseRecOn with
  | nil =>
    have := List.append_inj_right' heq rfl
    cases this
  | append_singleton after v =>
    rw [← List.cons_append, ← List.append_assoc] at heq
    have := List.append_inj_right' heq rfl
    cases this
    exact .inl (by simp)

theorem replaced_fails (vs : List Verdict) (ready : Text → Bool) (n : Text) :
    Replaced (vs ++ [.fails n]) ready n ↔ .loads n ∉ vs ∧ ready n = false := by
  constructor
  · intro h
    simpa using h vs [] rfl
  · intro ⟨hvs, hready⟩ before after heq
    refine .inr ⟨?_, hready⟩
    intro hmem
    have : Verdict.loads n ∈ vs ++ [.fails n] := by
      rw [heq]
      exact List.mem_append_left _ hmem
    simp [hvs] at this

theorem replaced_other {v : Verdict} {n : Text} (hl : v ≠ .loads n) (hf : v ≠ .fails n)
    (vs : List Verdict) (ready : Text → Bool) :
    Replaced (vs ++ [v]) ready n ↔ Replaced vs ready n := by
  have hne : ¬ Verdict.loads n = v := fun h => hl h.symm
  constructor
  · intro h before after heq
    have := h before (after ++ [v]) (by simp [heq])
    simpa [hne] using this
  · intro h before after heq
    cases after using List.reverseRecOn with
    | nil => exact absurd (List.singleton_inj.mp (List.append_inj_right' heq rfl)) hf
    | append_singleton after w =>
      rw [← List.cons_append, ← List.append_assoc] at heq
      rcases h before after (List.append_inj_left' heq rfl) with h | h
      · exact .inl (List.mem_append_left _ h)
      · exact .inr h

theorem readyAfter_eq_iff (vs : List Verdict) (ready : Text → Bool) (n : Text) :
    readyAfter vs ready n = readyAfter (vs.filter fun v => !v.isBad) ready n ↔
      Replaced vs ready n := by
  induction vs using List.reverseRecOn with
  | nil => simp [readyAfter, Replaced]
  | append_singleton vs v ih =>
    have hgood := readyAfter_good (vs ++ [v]) ready n
    rw [readyAfter_concat]
    by_cases hl : v = .loads n
    · subst hl
      rw [hgood.mpr (.inr (by simp))]
      simp [Verdict.setReady, replaced_loads]
    by_cases hf : v = .fails n
    · subst hf
      have hfalse : Verdict.setReady (.fails n) (readyAfter vs ready) n = false := by
        simp [Verdict.setReady]
      rw [hfalse, replaced_fails, eq_comm, ← Bool.not_eq_true, hgood]
      simp [and_comm]
    · have hne : ¬ Verdict.loads n = v := fun h => hl h.symm
      have hsame : readyAfter ((vs ++ [v]).filter fun v => !v.isBad) ready n =
          readyAfter (vs.filter fun v => !v.isBad) ready n := by
        rw [Bool.eq_iff_iff, hgood, readyAfter_good]
        simp [hne]
      rw [hsame, setReady_self hl hf, ih, replaced_other hl hf]

section Loop

variable (load repoRoot)

/-- The entries left when those that cannot be parsed or loaded are absent. -/
def goodDirs (dirs : List DirEntry) : List DirEntry :=
  dirs.filter fun dir => !(verdict load repoRoot dir).isBad

def badDirs (dirs : List DirEntry) : List DirEntry :=
  dirs.filter fun dir => (verdict load repoRoot dir).isBad

end Loop

theorem scanLoop_spec {dirs : List DirEntry}
    (hthrow : ∀ dir ∈ dirs, ∀ e, verdict load repoRoot dir ≠ .throws e) (result : LoadResult)
    (reg : ModelRegistry) :
    ∃ result' reg', scanLoop load repoRoot dirs result reg = .ok (result', reg') ∧
      reg'.isReady = readyAfter (dirs.map (verdict load repoRoot)) reg.isReady ∧
      result'.failed = result.failed + (badDirs load repoRoot dirs).length ∧
      result'.failedNames = result.failedNames ++ (badDirs load repoRoot dirs).map (·.name) := by
  induction dirs generalizing result reg with
  | nil => exact ⟨result, reg, rfl, rfl, rfl, (List.append_nil _).symm⟩
  | cons dir dirs ih =>
    obtain ⟨result₁, reg₁, hentry, hready₁, hfailed₁, hnames₁⟩ :=
      scanEntry_spec (hthrow dir List.mem_cons_self) result reg
    obtain ⟨result₂, reg₂, hloop, hready₂, hfailed₂, hnames₂⟩ :=
      ih (fun d hd => hthrow d (List.mem_cons_of_mem _ hd)) result₁ reg₁
    refine ⟨result₂, reg₂, ?_, ?_, ?_, ?_⟩
    · rw [scanLoop, hentry]
      exact hloop
    · rw [hready₂, hready₁]
      rfl
    · rw [hfailed₂, hfailed₁]
      cases hb : (verdict load repoRoot dir).isBad <;> simp [badDirs, hb]
      omega
    · rw [hnames₂, hnames₁]
      cases hb : (verdict load repoRoot dir).isBad <;> simp [badDirs, hb]

theorem scanLoop_throws {dirs : List DirEntry}
    (hthrow : ∃ dir ∈ dirs, ∃ e, verdict load repoRoot dir = .throws e) (result : LoadResult)
    (reg : ModelRegistry) : ∃ e, scanLoop load repoRoot dirs result reg = .error e := by
  induction dirs generalizing result reg with
  | nil => simp at hthrow
  | cons dir dirs ih =>
    rw [scanLoop]
    cases hentry : scanEntry load repoRoot dir result reg with
    | error e => exact ⟨(e, reg), rfl⟩
    | ok r =>
      apply ih
      obtain ⟨d, hd, e, he⟩ := hthrow
      rcases List.mem_cons.mp hd with rfl | hd
      · rw [scanEntry_throws he] at hentry
        cases hentry
      · exact ⟨d, hd, e, he⟩

section Contained

variable (load repoRoot)

/-- The scan returns, with the models ready that are ready when the bad directories are absent,
and each bad directory is counted and named. -/
def Contained (root : Option (List DirEntry)) (reg : ModelRegistry) : Prop :=
  ∃ result after, scanAndLoad load repoRoot root reg = .ok (result, after) ∧
    (∃ result' after',
      scanAndLoad load repoRoot (root.map (goodDirs load repoRoot)) reg = .ok (result', after') ∧
      ∀ n, after.isReady n = after'.isReady n) ∧
    result.failed = (badDirs load repoRoot (root.getD [])).length ∧
    result.failedNames = (badDirs load repoRoot (root.getD [])).map (·.name)

/-- No config makes a conversion throw, and no directory that fails to load has the name of a model
that is ready at the time, unless a later directory loads that model again. -/
def Harmless (dirs : List DirEntry) (reg : ModelRegistry) : Prop :=
  (∀ dir ∈ dirs, ∀ e, verdict load repoRoot dir ≠ .throws e) ∧
    ∀ before dir after n, dirs = before ++ dir :: after → verdict load repoRoot dir = .fails n →
      (∃ d ∈ after, verdict load repoRoot d = .loads n) ∨
        (∀ d ∈ before, verdict load repoRoot d ≠ .loads n) ∧ reg.isReady n = false

end Contained

theorem replaced_map_iff (dirs : List DirEntry) (ready : Text → Bool) :
    (∀ n, Replaced (dirs.map (verdict load repoRoot)) ready n) ↔
      ∀ before dir after n, dirs = before ++ dir :: after → verdict load repoRoot dir = .fails n →
        (∃ d ∈ after, verdict load repoRoot d = .loads n) ∨
          (∀ d ∈ before, verdict load repoRoot d ≠ .loads n) ∧ ready n = false := by
  constructor
  · intro h before dir after n hdirs hv
    have := h n (before.map (verdict load repoRoot)) (after.map (verdict load repoRoot))
      (by simp [hdirs, hv])
    simpa using this
  · intro h n before after heq
    obtain ⟨before', rest, hdirs, rfl, hrest⟩ := List.map_eq_append_iff.mp heq
    obtain ⟨dir, after', rfl, hv, rfl⟩ := List.map_eq_cons_iff.mp hrest
    have := h before' dir after' n hdirs hv
    simpa using this

theorem contained_iff_harmless (load : Loader) (repoRoot : Text) (root : Option (List DirEntry))
    (reg : ModelRegistry) :
    Contained load repoRoot root reg ↔ Harmless load repoRoot (root.getD []) reg := by
  cases root with
  | none =>
    constructor
    · intro _
      exact ⟨by simp, by simp⟩
    · intro _
      exact ⟨_, _, rfl, ⟨_, _, rfl, fun _ => rfl⟩, rfl, rfl⟩
  | some dirs =>
    have hgoodThrow : ∀ dir ∈ goodDirs load repoRoot dirs, ∀ e,
        verdict load repoRoot dir ≠ .throws e := by
      intro dir hdir e he
      have := (List.mem_filter.mp hdir).2
      simp [he, Verdict.isBad] at this
    have hgoodMap : (goodDirs load repoRoot dirs).map (verdict load repoRoot) =
        (dirs.map (verdict load repoRoot)).filter fun v => !v.isBad := by
      rw [List.filter_map]
      rfl
    obtain ⟨result', after', hscan', hready', -, -⟩ := scanLoop_spec hgoodThrow {} reg
    rw [hgoodMap] at hready'
    constructor
    · intro ⟨result, after, hscan, ⟨result'', after'', hscan'', hsame⟩, _, _⟩
      simp only [scanAndLoad, Option.map_some] at hscan hscan''
      have hnothrow : ∀ dir ∈ dirs, ∀ e, verdict load repoRoot dir ≠ .throws e := by
        intro dir hdir e he
        obtain ⟨e', herr⟩ := scanLoop_throws ⟨dir, hdir, e, he⟩ {} reg
        rw [hscan] at herr
        cases herr
      obtain ⟨result₁, after₁, hscan₁, hready, -, -⟩ := scanLoop_spec hnothrow {} reg
      rw [hscan] at hscan₁
      cases hscan₁
      rw [hscan'] at hscan''
      cases hscan''
      refine ⟨hnothrow, (replaced_map_iff dirs reg.isReady).mp ?_⟩
      intro n
      rw [← readyAfter_eq_iff, ← hready, ← hready']
      exact hsame n
    · intro ⟨hnothrow, hreplaced⟩
      rw [Option.getD_some] at hnothrow hreplaced
      obtain ⟨result, after, hscan, hready, hfailed, hnames⟩ := scanLoop_spec hnothrow {} reg
      refine ⟨result, after, hscan, ⟨result', after', hscan', ?_⟩, ?_, ?_⟩
      · intro n
        rw [hready, hready', readyAfter_eq_iff]
        exact (replaced_map_iff dirs reg.isReady).mpr hreplaced n
      · simpa using hfailed
      · simpa using hnames

/-- A version that is no number in the first directory: the exception leaves `scan_and_load`, and
the second directory is never looked at. -/
theorem version_text_aborts_scan :
    ¬ Contained (fun _ _ _ => true) "models".toList
      (some [⟨"bert".toList, true, some "version=latest".toList, []⟩,
        ⟨"resnet".toList, true, some "version=1".toList, [⟨"1".toList, true, ["model.pt".toList]⟩]⟩])
      (fun _ => none) := by
  intro ⟨result, after, hscan, _⟩
  have hthrow : (scanAndLoad (fun _ _ _ => true) "models".toList
      (some [⟨"bert".toList, true, some "version=latest".toList, []⟩,
        ⟨"resnet".toList, true, some "version=1".toList, [⟨"1".toList, true, ["model.pt".toList]⟩]⟩])
      (fun _ => none)).isOk = false := by decide +kernel
  rw [hscan] at hthrow
  cases hthrow

end ModelRepository

end Jellybean.Model
