import Mathlib.Data.List.TakeWhile
import Jellybean.Framework.RunningMax
import Jellybean.Model.ModelConfig

namespace Jellybean.Model

open RunningMax

variable {modelDir : Text} {dir : DirEntry} {cfg : ModelConfig} {sub sub' : SubEntry} {v : Int}
  {entries order : List SubEntry}

/-- The whole name is a decimal number. -/
def isDecimal (name : Text) : Bool := name ≠ [] && name.all isDigit

/-- A sub-directory with a candidate model file. -/
def hasFile (sub : SubEntry) : Bool := sub.isDirectory && candidates.any sub.files.contains

def subFile (modelDir : Text) (sub : SubEntry) : Text :=
  findModelFile (modelDir ++ '/' :: sub.name) sub

/-- The number under which the search for the highest version takes a sub-directory. -/
def accepted (sub : SubEntry) : Option Int :=
  if hasFile sub then (stoi sub.name).toOption.filter (0 ≤ ·) else none

/-- What the lines of `config.ini` give. -/
def parseIni (dir : DirEntry) : Except ConversionError ModelConfig :=
  (getlines '\n' (dir.configIni.getD [])).foldlM parseLine { name := dir.name }

def IsVersion (sub : SubEntry) : Prop := hasFile sub = true ∧ isDecimal sub.name = true

/-- The greatest of the versions with its file, or the config as it is where there is none. -/
def HighestVersion (modelDir : Text) (cfg : ModelConfig) (entries : List SubEntry)
    (result : ModelConfig) : Prop :=
  (∃ sub ∈ entries, IsVersion sub ∧
    (∀ s ∈ entries, IsVersion s → decimal s.name ≤ decimal sub.name) ∧
    result = { cfg with version := decimal sub.name, modelFilePath := subFile modelDir sub }) ∨
  (∀ sub ∈ entries, ¬IsVersion sub) ∧ result = { cfg with modelFilePath := [] }

/-- The configured version directory is missing or holds no model file. -/
def NoConfiguredFile (dir : DirEntry) (cfg : ModelConfig) : Prop :=
  ∀ sub ∈ dir.entries, sub.name = (toString cfg.version).toList → hasFile sub = false

/-- In every order of the entries `from_dir` gives the same, with the highest version. -/
def FallsBackRight (modelDir : Text) (dir : DirEntry) (cfg : ModelConfig) : Prop :=
  ∃ result, (∀ order : List SubEntry, order.Perm dir.entries →
    fromDir modelDir { dir with entries := order } = .ok result) ∧
    HighestVersion modelDir cfg dir.entries result

/-- Every version fits an `int`, and of the sub-directories that the search accepts only one has
the greatest number, and it is a version. -/
def Unambiguous (entries : List SubEntry) : Prop :=
  (∀ sub ∈ entries, IsVersion sub → decimal sub.name < 2^31) ∧
  ∀ v sub, Greatest accepted entries v sub → isDecimal sub.name = true ∧
    ∀ sub', Greatest accepted entries v sub' → sub' = sub

theorem isDigit_not_space {c : Char} (h : isDigit c = true) : isSpace c = false := by
  by_contra hs
  rw [Bool.not_eq_false, isSpace, decide_eq_true_iff] at hs
  have hnone : [' ', '\t', '\n', '\x0b', '\x0c', '\r'].all (fun c => !isDigit c) = true := by decide
  have hc := List.all_eq_true.mp hnone c hs
  rw [h] at hc
  cases hc

theorem readNumber_decimal {name : Text} (h : isDecimal name = true) :
    readNumber name = .ok (false, decimal name) := by
  cases name with
  | nil => cases h
  | cons c cs =>
    simp only [isDecimal, ne_eq, reduceCtorEq, not_false_iff, decide_true, Bool.true_and] at h
    have hall := List.all_eq_true.mp h
    have hc : isDigit c = true := hall c List.mem_cons_self
    have hminus : c ≠ '-' := by
      intro he
      subst he
      cases hc
    have hplus : c ≠ '+' := by
      intro he
      subst he
      cases hc
    have hdrop : (c :: cs).dropWhile isSpace = c :: cs := by
      rw [List.dropWhile_cons, if_neg (by rw [isDigit_not_space hc]; simp)]
    have htake : (c :: cs).takeWhile isDigit = c :: cs := List.takeWhile_eq_self_iff.mpr hall
    unfold readNumber
    simp only [hdrop, List.head?_cons, Option.some.injEq, hminus, hplus, or_self, if_false, htake,
      reduceCtorEq, decide_false]

theorem stoi_decimal {name : Text} (h : isDecimal name = true) (hlt : decimal name < 2^31) :
    stoi name = .ok (decimal name) := by
  have hno : ¬((decimal name : Int) < -2^(32 - 1) ∨ (2 : Int)^(32 - 1) ≤ decimal name) := by
    omega
  unfold stoi stoSigned
  rw [readNumber_decimal h]
  exact if_neg hno

theorem stoi_lt {name : Text} (h : stoi name = .ok v) : v < 2^31 := by
  unfold stoi stoSigned at h
  cases hr : readNumber name with
  | error e =>
    rw [hr] at h
    cases h
  | ok r =>
    rw [hr] at h
    obtain ⟨negative, magnitude⟩ := r
    change (if _ then _ else _) = _ at h
    split_ifs at h with hout
    cases h
    omega

theorem accepted_eq_some : accepted sub = some v ↔
    hasFile sub = true ∧ stoi sub.name = .ok v ∧ 0 ≤ v := by
  unfold accepted
  cases hasFile sub with
  | false => simp
  | true =>
    cases stoi sub.name with
    | error e => simp [Except.toOption]
    | ok w =>
      simp only [if_true, Except.toOption, Option.filter_some, Option.ite_none_right_eq_some,
        decide_eq_true_iff, Option.some.injEq, true_and, Except.ok.injEq]
      constructor
      · intro h
        exact ⟨h.2, h.2 ▸ h.1⟩
      · intro h
        exact ⟨h.1 ▸ h.2, h.1⟩

theorem IsVersion.accepted (h : IsVersion sub) (hlt : decimal sub.name < 2^31) :
    accepted sub = some (decimal sub.name : Int) :=
  accepted_eq_some.mpr ⟨h.1, stoi_decimal h.2 hlt, Int.natCast_nonneg _⟩

theorem accepted_decimal (h : accepted sub = some v) (hd : isDecimal sub.name = true) :
    IsVersion sub ∧ v = decimal sub.name := by
  obtain ⟨hfile, hstoi, _⟩ := accepted_eq_some.mp h
  refine ⟨⟨hfile, hd⟩, ?_⟩
  have hlt := stoi_lt hstoi
  unfold stoi stoSigned at hstoi
  rw [readNumber_decimal hd] at hstoi
  change (if _ then _ else _) = _ at hstoi
  split_ifs at hstoi
  exact (Except.ok.inj hstoi).symm

/-- The path of the candidate that the search finds. -/
theorem subFile_cases (modelDir : Text) (sub : SubEntry) (hd : sub.isDirectory = true) :
    (hasFile sub = false ∧ subFile modelDir sub = []) ∨
      (hasFile sub = true ∧ ∃ name ∈ candidates,
        subFile modelDir sub = modelDir ++ '/' :: sub.name ++ '/' :: name) := by
  unfold hasFile subFile findModelFile
  rw [hd, Bool.true_and]
  cases hf : candidates.find? (· ∈ sub.files) with
  | none =>
    left
    refine ⟨?_, rfl⟩
    rw [List.find?_eq_none] at hf
    rw [Bool.eq_false_iff]
    intro hany
    obtain ⟨name, hname, hin⟩ := List.any_eq_true.mp hany
    exact hf name hname (decide_eq_true (List.contains_iff_mem.mp hin))
  | some name =>
    right
    have hname := List.mem_of_find?_eq_some hf
    have hmem := List.find?_some hf
    have hin := List.contains_iff_mem.mpr (of_decide_eq_true hmem)
    exact ⟨List.any_eq_true.mpr ⟨name, hname, hin⟩, name, hname, rfl⟩

theorem subFile_of_hasFile (modelDir : Text) (h : hasFile sub = true) : ∃ name ∈ candidates,
    subFile modelDir sub = modelDir ++ '/' :: sub.name ++ '/' :: name := by
  have hd : sub.isDirectory = true := by
    unfold hasFile at h
    rw [Bool.and_eq_true] at h
    exact h.1
  rcases subFile_cases modelDir sub hd with hs | hs
  · rw [hs.1] at h
    cases h
  · exact hs.2

theorem subFile_ne_nil (modelDir : Text) (h : hasFile sub = true) : subFile modelDir sub ≠ [] := by
  obtain ⟨name, _, heq⟩ := subFile_of_hasFile modelDir h
  rw [heq]
  simp

/-- A separator that is in neither rest splits a text in one way. -/
theorem eq_of_append_cons {α : Type*} {a b f g : List α} {c : α} (h : a ++ c :: f = b ++ c :: g)
    (hf : c ∉ f) (hg : c ∉ g) : a = b := by
  rcases List.append_eq_append_iff.mp h with hcase | hcase
  · obtain ⟨as, hb, hrest⟩ := hcase
    cases as with
    | nil => rw [hb, List.append_nil]
    | cons d ds =>
      rw [List.cons_append, List.cons.injEq] at hrest
      exact absurd (hrest.2 ▸ by simp) hf
  · obtain ⟨as, ha, hrest⟩ := hcase
    cases as with
    | nil => rw [ha, List.append_nil]
    | cons d ds =>
      rw [List.cons_append, List.cons.injEq] at hrest
      exact absurd (hrest.2 ▸ by simp) hg

theorem slash_notMem_candidates : ∀ name ∈ candidates, '/' ∉ name := by decide

theorem name_eq_of_subFile (h : hasFile sub = true) (h' : hasFile sub' = true)
    (heq : subFile modelDir sub = subFile modelDir sub') : sub.name = sub'.name := by
  obtain ⟨name, hname, hpath⟩ := subFile_of_hasFile modelDir h
  obtain ⟨name', hname', hpath'⟩ := subFile_of_hasFile modelDir h'
  rw [hpath, hpath'] at heq
  have hall := eq_of_append_cons heq (slash_notMem_candidates name hname)
    (slash_notMem_candidates name' hname')
  exact List.cons.inj (List.append_cancel_left hall) |>.2

/-- The config after the search, by what it found. -/
def chosen (modelDir : Text) (cfg : ModelConfig) : Option (Int × SubEntry) → ModelConfig
  | none => cfg
  | some (v, sub) => { cfg with version := v, modelFilePath := subFile modelDir sub }

/-- `best_ver` and `cfg` of the search. -/
def searchState (modelDir : Text) (cfg : ModelConfig) (best : Option (Int × SubEntry)) :
    Int × ModelConfig :=
  ((best.map Prod.fst).getD (-1), chosen modelDir cfg best)

theorem bestVersion_accepted (h : accepted sub = some v) (best : Int × ModelConfig) :
    bestVersion modelDir best sub = if v > best.1 then
      (v, { best.2 with version := v, modelFilePath := subFile modelDir sub }) else best := by
  obtain ⟨hfile, hstoi, _⟩ := accepted_eq_some.mp h
  have hd : sub.isDirectory = true := by
    unfold hasFile at hfile
    rw [Bool.and_eq_true] at hfile
    exact hfile.1
  unfold bestVersion
  rw [if_pos hd, hstoi]
  have hpath : findModelFile (modelDir ++ '/' :: sub.name) sub ≠ [] := subFile_ne_nil modelDir hfile
  simp only [hpath, ne_eq, not_false_iff, if_true]
  rfl

theorem bestVersion_skipped (h : accepted sub = none) {best : Int × ModelConfig}
    (hb : -1 ≤ best.1) : bestVersion modelDir best sub = best := by
  unfold bestVersion
  split_ifs with hd
  · cases hstoi : stoi sub.name with
    | error e => rfl
    | ok v =>
      dsimp only
      split_ifs with hgt hpath
      · rcases subFile_cases modelDir sub hd with hs | hs
        · exact absurd hs.2 hpath
        · have hsome := accepted_eq_some.mpr ⟨hs.1, hstoi, (by omega : 0 ≤ v)⟩
          rw [h] at hsome
          cases hsome
      · rfl
      · rfl
  · rfl

/-- One entry of the search keeps the greatest number. -/
theorem bestVersion_keep {best : Option (Int × SubEntry)} (hb : ∀ b, best = some b → 0 ≤ b.1) :
    bestVersion modelDir (searchState modelDir cfg best) sub =
      searchState modelDir cfg (keep accepted best sub) := by
  have hlow : -1 ≤ (searchState modelDir cfg best).1 := by
    cases best with
    | none => exact le_refl _
    | some b =>
      have hnonneg := hb b rfl
      change -1 ≤ b.1
      omega
  cases hacc : accepted sub with
  | none =>
    rw [bestVersion_skipped hacc hlow]
    simp [keep, hacc]
  | some v =>
    obtain ⟨_, _, hv⟩ := accepted_eq_some.mp hacc
    rw [bestVersion_accepted hacc]
    cases best with
    | none =>
      have hgt : v > (searchState modelDir cfg none).1 := by
        change v > -1
        omega
      rw [if_pos hgt]
      simp [keep, hacc, searchState, chosen]
    | some b =>
      by_cases hgt : b.1 < v
      · have hgt' : v > (searchState modelDir cfg (some b)).1 := hgt
        rw [if_pos hgt']
        simp [keep, hacc, hgt, searchState, chosen]
      · have hgt' : ¬v > (searchState modelDir cfg (some b)).1 := hgt
        rw [if_neg hgt']
        simp [keep, hacc, hgt]

theorem foldl_bestVersion (modelDir : Text) (cfg : ModelConfig) (entries : List SubEntry) :
    entries.foldl (bestVersion modelDir) (-1, cfg) =
      searchState modelDir cfg (firstMax accepted entries) := by
  induction entries using List.reverseRecOn with
  | nil => rfl
  | append_singleton entries sub ih =>
    rw [List.foldl_append, ih, firstMax_concat]
    apply bestVersion_keep
    intro b hb
    rcases firstMax_spec accepted entries with hs | hs
    · rw [hs.1] at hb
      cases hb
    · obtain ⟨v, x, hx, hg⟩ := hs
      rw [hx] at hb
      cases hb
      exact (accepted_eq_some.mp hg.key_eq).2.2

/-- Without a file for the configured version `from_dir` is the search. -/
theorem fromDir_eq (hcfg : parseIni dir = .ok cfg) (hmissing : NoConfiguredFile dir cfg)
    (hp : order.Perm dir.entries) : fromDir modelDir { dir with entries := order } =
      .ok (chosen modelDir { cfg with modelFilePath := [] } (firstMax accepted order)) := by
  have hnone : versionedFile modelDir { dir with entries := order } cfg.version = [] := by
    unfold versionedFile
    cases hf : order.find?
        (fun sub => sub.isDirectory && sub.name == (toString cfg.version).toList) with
    | none => rfl
    | some sub =>
      have hsub := List.find?_some hf
      rw [Bool.and_eq_true, beq_iff_eq] at hsub
      have hno := hmissing sub (hp.mem_iff.mp (List.mem_of_find?_eq_some hf)) hsub.2
      rcases subFile_cases modelDir sub hsub.1 with hs | hs
      · exact hs.2
      · rw [hno] at hs
        exact absurd hs.1 (by simp)
  unfold fromDir
  change parseIni dir >>= _ = _
  rw [hcfg]
  change (if versionedFile modelDir { dir with entries := order } cfg.version = [] then _
    else _) = _
  rw [if_pos hnone, hnone, foldl_bestVersion]
  rfl

theorem fallsBackRight_of (modelDir : Text) (hcfg : parseIni dir = .ok cfg)
    (hmissing : NoConfiguredFile dir cfg) (h : Unambiguous dir.entries) :
    FallsBackRight modelDir dir cfg := by
  obtain ⟨hfits, hone⟩ := h
  rcases firstMax_spec accepted dir.entries with hs | hs
  · obtain ⟨_, hnone⟩ := hs
    refine ⟨{ cfg with modelFilePath := [] }, ?_, .inr ⟨?_, rfl⟩⟩
    · intro order hp
      rw [fromDir_eq hcfg hmissing hp]
      rcases firstMax_spec accepted order with ho | ho
      · rw [ho.1]
        rfl
      · obtain ⟨v, x, _, hg⟩ := ho
        have hx := hnone x (hp.mem_iff.mp hg.mem)
        rw [hg.key_eq] at hx
        cases hx
    · intro sub hsub hv
      have hacc := hv.accepted (hfits sub hsub hv)
      rw [hnone sub hsub] at hacc
      cases hacc
  · obtain ⟨v, x, _, hg⟩ := hs
    obtain ⟨hd, huniq⟩ := hone v x hg
    obtain ⟨hver, rfl⟩ := accepted_decimal hg.key_eq hd
    refine ⟨{ cfg with version := decimal x.name, modelFilePath := subFile modelDir x }, ?_,
      .inl ⟨x, hg.mem, hver, ?_, rfl⟩⟩
    · intro order hp
      rw [fromDir_eq hcfg hmissing hp, hg.firstMax_eq huniq hp]
      rfl
    · intro s hs hsv
      have hle := hg.le s hs _ (hsv.accepted (hfits s hs hsv))
      exact Int.ofNat_le.mp hle

theorem unambiguous_of (hcfg : parseIni dir = .ok cfg) (hmissing : NoConfiguredFile dir cfg)
    (hnames : (dir.entries.map (·.name)).Nodup) (h : FallsBackRight modelDir dir cfg) :
    Unambiguous dir.entries := by
  obtain ⟨result, hall, hhigh⟩ := h
  have hfound : ∀ v x, Greatest accepted dir.entries v x →
      result = { cfg with version := v, modelFilePath := subFile modelDir x } := by
    intro v x hg
    obtain ⟨order, hp, hfirst⟩ := hg.exists_order
    have hres := hall order hp
    rw [fromDir_eq hcfg hmissing hp, hfirst] at hres
    exact (Except.ok.inj hres).symm
  have hsame : ∀ v x y, Greatest accepted dir.entries v x → y ∈ dir.entries → hasFile y = true →
      result.modelFilePath = subFile modelDir y → y = x := by
    intro v x y hg hy hfile hpath
    rw [hfound v x hg] at hpath
    have hname := name_eq_of_subFile hfile (accepted_eq_some.mp hg.key_eq).1 hpath.symm
    exact List.inj_on_of_nodup_map hnames hy hg.mem hname
  constructor
  · intro sub hsub hver
    rcases hhigh with hh | hh
    · obtain ⟨x, hx, hxv, hmax, hres⟩ := hh
      have hle := hmax sub hsub hver
      rcases firstMax_spec accepted dir.entries with hs | hs
      · have hres' := hall dir.entries (List.Perm.refl _)
        rw [fromDir_eq hcfg hmissing (List.Perm.refl _), hs.1] at hres'
        rw [← Except.ok.inj hres'] at hres
        have hpath := congrArg ModelConfig.modelFilePath hres
        exact absurd hpath.symm (subFile_ne_nil modelDir hxv.1)
      · obtain ⟨v, y, _, hg⟩ := hs
        have hversion := congrArg ModelConfig.version (hres.symm.trans (hfound v y hg))
        have hlt := stoi_lt (accepted_eq_some.mp hg.key_eq).2.1
        dsimp only at hversion
        omega
    · exact absurd hver (hh.1 sub hsub)
  · intro v x hg
    constructor
    · rcases hhigh with hh | hh
      · obtain ⟨y, hy, hyv, _, hres⟩ := hh
        have hyx := hsame v x y hg hy hyv.1 (by rw [hres])
        exact hyx ▸ hyv.2
      · have hpath := congrArg ModelConfig.modelFilePath (hh.2.symm.trans (hfound v x hg))
        exact absurd hpath.symm (subFile_ne_nil modelDir (accepted_eq_some.mp hg.key_eq).1)
    · intro y hg'
      exact hsame v x y hg hg'.mem (accepted_eq_some.mp hg'.key_eq).1
        (congrArg ModelConfig.modelFilePath (hfound v y hg'))

/-- The fallback finds the highest version in every order exactly where no name leads the search
astray. -/
theorem fallsBackRight_iff (modelDir : Text) (dir : DirEntry) (cfg : ModelConfig)
    (hcfg : parseIni dir = .ok cfg) (hmissing : NoConfiguredFile dir cfg)
    (hnames : (dir.entries.map (·.name)).Nodup) :
    FallsBackRight modelDir dir cfg ↔ Unambiguous dir.entries :=
  ⟨unambiguous_of hcfg hmissing hnames, fallsBackRight_of modelDir hcfg hmissing⟩

theorem greatest_of (hmem : sub ∈ entries) (hkey : accepted sub = some v)
    (hle : entries.all (fun s => (accepted s).all (· ≤ v)) = true) :
    Greatest accepted entries v sub := by
  refine ⟨hmem, hkey, ?_⟩
  intro s hs w hw
  have hall := List.all_eq_true.mp hle s hs
  rw [hw] at hall
  exact of_decide_eq_true hall

/-- A directory of versions that each hold a model file, with a config for version 9. -/
def withVersions (names : List String) : DirEntry :=
  ⟨"m".toList, true, some "version=9".toList,
    names.map fun name => ⟨name.toList, true, ["model.pt".toList]⟩⟩

theorem parseIni_withVersions (names : List String) :
    parseIni (withVersions names) = .ok { name := "m".toList, version := 9 } := by
  have hempty : parseIni (withVersions []) = .ok { name := "m".toList, version := 9 } := by
    decide +kernel
  exact hempty

theorem fallsBackRight_two :
    FallsBackRight "m".toList (withVersions ["2"]) { name := "m".toList, version := 9 } := by
  apply (fallsBackRight_iff _ _ _ (parseIni_withVersions ["2"]) _ (by decide +kernel)).mpr
  · constructor
    · intro sub hsub _
      rw [List.mem_singleton.mp hsub]
      decide +kernel
    · intro v sub hg
      rw [List.mem_singleton.mp hg.mem]
      refine ⟨by decide +kernel, ?_⟩
      intro sub' hg'
      exact List.mem_singleton.mp hg'.mem
  · intro sub hsub hname
    rw [List.mem_singleton.mp hsub] at hname
    exact absurd hname (by decide +kernel)

/-- `3-old` is taken for version 3 and wins over version 2; of `1` and `01` the one that is listed
first wins. -/
theorem stray_and_equal_versions :
    ¬FallsBackRight "m".toList (withVersions ["2", "3-old"]) { name := "m".toList, version := 9 } ∧
    ¬FallsBackRight "m".toList (withVersions ["1", "01"]) { name := "m".toList, version := 9 } := by
  have hmissing : ∀ names : List String, (∀ name ∈ names, name.toList ≠ "9".toList) →
      NoConfiguredFile (withVersions names) { name := "m".toList, version := 9 } := by
    intro names hne sub hsub hname
    obtain ⟨name, hin, rfl⟩ := List.mem_map.mp hsub
    exact absurd hname (hne name hin)
  constructor
  · intro hall
    have h := unambiguous_of (parseIni_withVersions _) (hmissing _ (by decide)) (by decide +kernel) hall
    have hg : Greatest accepted (withVersions ["2", "3-old"]).entries 3
        ⟨"3-old".toList, true, ["model.pt".toList]⟩ :=
      greatest_of (by decide +kernel) (by decide +kernel) (by decide +kernel)
    exact absurd (h.2 _ _ hg).1 (by decide +kernel)
  · intro hall
    have h := unambiguous_of (parseIni_withVersions _) (hmissing _ (by decide)) (by decide +kernel) hall
    have hg : Greatest accepted (withVersions ["1", "01"]).entries 1
        ⟨"1".toList, true, ["model.pt".toList]⟩ :=
      greatest_of (by decide +kernel) (by decide +kernel) (by decide +kernel)
    have hg' : Greatest accepted (withVersions ["1", "01"]).entries 1
        ⟨"01".toList, true, ["model.pt".toList]⟩ :=
      greatest_of (by decide +kernel) (by decide +kernel) (by decide +kernel)
    exact absurd ((h.2 _ _ hg).2 _ hg') (by decide +kernel)

end Jellybean.Model
