import Mathlib.Data.Set.Finite.Lemmas
import Mathlib.Data.Set.Finite.List
import Jellybean.Framework.JsonRules
import Jellybean.Telemetry.LatencyHistogram

namespace Jellybean.Telemetry

open Json

structure PlainMetrics where
  requestsReceived : UInt64 := 0
  requestsCompleted : UInt64 := 0
  requestsRejected : UInt64 := 0
  queueTimeouts : UInt64 := 0

structure ModelExecutorMetrics where
  modelId : List Char
  metrics : PlainMetrics := {}
  p50Ns : UInt64 := 0
  p95Ns : UInt64 := 0
  p99Ns : UInt64 := 0

/-- `metrics()` and `latency_hist()` of an executor. -/
structure ExecutorTelemetry where
  metrics : PlainMetrics := {}
  latencyHist : LatencyHistogram := .empty

/-- `get_all_metrics`, of the entries of `executors_` in the order in which they are iterated. -/
def getAllMetrics (executors : List (List Char × ExecutorTelemetry)) : List ModelExecutorMetrics :=
  executors.map fun e => {
    modelId := e.1
    metrics := e.2.metrics
    p50Ns := e.2.latencyHist.p50
    p95Ns := e.2.latencyHist.p95
    p99Ns := e.2.latencyHist.p99 }

/-- `ss << n`. -/
def decimalText (n : UInt64) : List Char := Nat.toDigits 10 n.toNat

/-- `ss << "    \"name\": " << n`. -/
def writeField (name : String) (n : UInt64) : List Char :=
  "    \"".toList ++ name.toList ++ "\": ".toList ++ decimalText n

/-- What the loop writes of one model, up to its brace. -/
def serializeModel (m : ModelExecutorMetrics) : List Char :=
  "  \"".toList ++ m.modelId ++ "\": \x7b\n".toList ++
  writeField "requests_received" m.metrics.requestsReceived ++ ",\n".toList ++
  writeField "requests_completed" m.metrics.requestsCompleted ++ ",\n".toList ++
  writeField "requests_rejected" m.metrics.requestsRejected ++ ",\n".toList ++
  writeField "queue_timeouts" m.metrics.queueTimeouts ++ ",\n".toList ++
  writeField "latency_p50_ns" m.p50Ns ++ ",\n".toList ++
  writeField "latency_p95_ns" m.p95Ns ++ ",\n".toList ++
  writeField "latency_p99_ns" m.p99Ns ++ "\n".toList ++
  "  \x7d".toList

/-- The loop from index `i` on. -/
def serializeFrom (size : Nat) : Nat → List ModelExecutorMetrics → List Char
  | _, [] => []
  | i, m :: all =>
    serializeModel m ++ (if i + 1 < size then ",".toList else []) ++ "\n".toList ++
      serializeFrom size (i + 1) all

/-- `serialize_metrics_json`, from the call of `get_all_metrics` on. -/
def serializeAll (all : List ModelExecutorMetrics) : List Char :=
  "\x7b\n".toList ++ serializeFrom all.length 0 all ++ "\x7d\n".toList

def serializeMetricsJson (executors : List (List Char × ExecutorTelemetry)) : List Char :=
  serializeAll (getAllMetrics executors)

/-- The seven numbers of a model under their names. -/
def fields (m : ModelExecutorMetrics) : List (String × UInt64) :=
  [("requests_received", m.metrics.requestsReceived),
    ("requests_completed", m.metrics.requestsCompleted),
    ("requests_rejected", m.metrics.requestsRejected),
    ("queue_timeouts", m.metrics.queueTimeouts),
    ("latency_p50_ns", m.p50Ns), ("latency_p95_ns", m.p95Ns), ("latency_p99_ns", m.p99Ns)]

/-- An object with a member for each model, under its id, that holds the seven numbers and nothing
else. -/
def DecodesTo (v : Value) (all : List ModelExecutorMetrics) : Prop :=
  ∃ ms, v = .object ms ∧ (∀ id, (∃ x, (id, x) ∈ ms) ↔ ∃ m ∈ all, m.modelId = id) ∧
    ∀ m ∈ all, ∃ fs, get ms m.modelId = some (.object fs) ∧
      (∀ f ∈ fields m, get fs f.1.toList = some (.number f.2.toNat)) ∧
      ∀ x ∈ fs, ∃ f ∈ fields m, f.1.toList = x.1

def ExportsRight (executors : List (List Char × ExecutorTelemetry)) : Prop :=
  ∃ v, parse (serializeMetricsJson executors) = some v ∧ DecodesTo v (getAllMetrics executors)

variable {m : ModelExecutorMetrics} {all : List ModelExecutorMetrics} {n size i : Nat}
  {w a b r raw : List Char} {c : Char}

/-- The lines of the numbers, with a comma behind each but the last. -/
def fieldLines : List (String × UInt64) → List Char
  | [] => []
  | [f] => writeField f.1 f.2 ++ "\n".toList
  | f :: fs => writeField f.1 f.2 ++ ",\n".toList ++ fieldLines fs

theorem serializeModel_eq (m : ModelExecutorMetrics) :
    serializeModel m = "  \"".toList ++ m.modelId ++ "\": \x7b".toList ++
      '\n' :: (fieldLines (fields m) ++ "  \x7d".toList) := by
  have hopen : "\": \x7b\n".toList = "\": \x7b".toList ++ ['\n'] := rfl
  unfold serializeModel
  simp only [hopen, fields]
  simp only [fieldLines]
  simp only [List.append_assoc, List.cons_append, List.nil_append]

theorem serializeFrom_cons (size i : Nat) (m : ModelExecutorMetrics)
    (all : List ModelExecutorMetrics) :
    serializeFrom size i (m :: all) = "  \"".toList ++ m.modelId ++ "\": \x7b".toList ++ '\n' ::
      (fieldLines (fields m) ++ "  \x7d".toList ++ (if i + 1 < size then ",".toList else []) ++
        '\n' :: serializeFrom size (i + 1) all) := by
  have hbreak : "\n".toList = ['\n'] := rfl
  simp only [serializeFrom, serializeModel_eq, hbreak, List.append_assoc, List.cons_append,
    List.nil_append]

section Lines

theorem prefix_before (h : w <+: a ++ c :: b) (hc : c ∉ w) : w <+: a := by
  induction a generalizing w with
  | nil =>
    cases w with
    | nil => exact List.nil_prefix
    | cons d w =>
      rw [List.nil_append, List.cons_prefix_cons] at h
      exact absurd (h.1 ▸ List.mem_cons_self) hc
  | cons d a ih =>
    cases w with
    | nil => exact List.nil_prefix
    | cons e w =>
      rw [List.cons_append, List.cons_prefix_cons] at h
      rw [List.cons_prefix_cons]
      exact ⟨h.1, ih h.2 fun hw => hc (List.mem_cons_of_mem e hw)⟩

/-- What has no line break lies on one side of it. -/
theorem infix_split (h : w <:+: a ++ c :: b) (hc : c ∉ w) : w <:+: a ∨ w <:+: b := by
  induction a with
  | nil =>
    rw [List.nil_append, List.infix_cons_iff] at h
    rcases h with h | h
    · have hnil := prefix_before (a := []) h hc
      rw [List.prefix_nil.mp hnil]
      exact .inl List.nil_infix
    · exact .inr h
  | cons d a ih =>
    rw [List.cons_append, List.infix_cons_iff] at h
    rcases h with h | h
    · exact .inl (prefix_before (a := d :: a) h hc).isInfix
    · rcases ih h with h | h
      · exact .inl (List.infix_cons h)
      · exact .inr h

theorem infix_of_cons (h : '"' :: w <:+: c :: b) (hc : c ≠ '"') : '"' :: w <:+: b := by
  rw [List.infix_cons_iff] at h
  rcases h with h | h
  · rw [List.cons_prefix_cons] at h
    exact absurd h.1.symm hc
  · exact h

theorem infix_of_concat (h : w ++ ['"'] <:+: b ++ [c]) (hc : c ≠ '"') : w ++ ['"'] <:+: b := by
  rw [List.infix_concat_iff] at h
  rcases h with h | h
  · obtain ⟨s, hs⟩ := h
    rw [← List.append_assoc] at hs
    have hlast := List.append_inj_right' hs rfl
    cases hlast
    exact absurd rfl hc
  · exact h

/-- Between two quotes of the line of an id there is no more room than for the id. -/
theorem length_of_header {id : List Char}
    (h : '"' :: raw ++ ['"'] <:+: "  \"".toList ++ id ++ "\": \x7b".toList) :
    raw.length ≤ id.length := by
  have htext : "  \"".toList ++ id ++ "\": \x7b".toList =
      ' ' :: ' ' :: ('"' :: id ++ ['"'] ++ [':'] ++ [' '] ++ ['{']) := by simp
  rw [htext] at h
  have h₁ : '"' :: raw ++ ['"'] <:+: '"' :: id ++ ['"'] ++ [':'] ++ [' '] ++ ['{'] :=
    infix_of_cons (infix_of_cons h (by decide)) (by decide)
  have h₂ : '"' :: raw ++ ['"'] <:+: '"' :: id ++ ['"'] :=
    infix_of_concat (infix_of_concat (infix_of_concat h₁ (by decide)) (by decide)) (by decide)
  have hlen := h₂.length_le
  simp only [List.length_append, List.length_cons, List.length_nil] at hlen
  omega

theorem slash_notMem_decimalText (n : UInt64) : '\\' ∉ decimalText n := by
  intro h
  have hdigit := toDigits_isDigit n.toNat '\\' h
  cases hdigit

theorem slash_notMem_writeField {name : String} (hname : '\\' ∉ name.toList) (n : UInt64) :
    '\\' ∉ writeField name n := by
  have hn := slash_notMem_decimalText n
  unfold writeField
  simp [hname, hn]

theorem slash_notMem_fieldLines {fs : List (String × UInt64)}
    (hfs : ∀ f ∈ fs, '\\' ∉ f.1.toList) : '\\' ∉ fieldLines fs := by
  induction fs with
  | nil => simp [fieldLines]
  | cons f fs ih =>
    have hf := slash_notMem_writeField (hfs f List.mem_cons_self) f.2
    have hrest := ih fun g hg => hfs g (List.mem_cons_of_mem f hg)
    cases fs with
    | nil => simp [fieldLines, hf]
    | cons g fs => simp [fieldLines, hf, hrest]

theorem fields_names (m : ModelExecutorMetrics) : (fields m).map Prod.fst =
    ["requests_received", "requests_completed", "requests_rejected", "queue_timeouts",
      "latency_p50_ns", "latency_p95_ns", "latency_p99_ns"] := rfl

theorem slash_notMem_fields (m : ModelExecutorMetrics) : '\\' ∉ fieldLines (fields m) := by
  apply slash_notMem_fieldLines
  intro f hf
  have hname : f.1 ∈ (fields m).map Prod.fst := List.mem_map_of_mem hf
  rw [fields_names] at hname
  have hall : ∀ name ∈ ["requests_received", "requests_completed", "requests_rejected",
      "queue_timeouts", "latency_p50_ns", "latency_p95_ns", "latency_p99_ns"],
      '\\' ∉ name.toList := by decide
  exact hall f.1 hname

/-- A quoted text with an escape fits into an id that has a backslash. -/
theorem quoted_of_serializeFrom {rest : List Char} (hraw : '\\' ∈ raw) (hbreak : '\n' ∉ raw)
    (hrest : '\\' ∉ rest) (h : '"' :: raw ++ ['"'] <:+: serializeFrom size i all ++ rest) :
    ∃ m ∈ all, '\\' ∈ m.modelId ∧ raw.length ≤ m.modelId.length := by
  have hline : '\n' ∉ '"' :: raw ++ ['"'] := by simp [hbreak]
  have hin : '\\' ∈ '"' :: raw ++ ['"'] := by simp [hraw]
  induction all generalizing i with
  | nil => exact absurd (h.subset hin) hrest
  | cons m all ih =>
    have htext : serializeFrom size i (m :: all) ++ rest =
        "  \"".toList ++ m.modelId ++ "\": \x7b".toList ++ '\n' ::
          (fieldLines (fields m) ++ "  \x7d".toList ++ (if i + 1 < size then ",".toList else []) ++
            '\n' :: (serializeFrom size (i + 1) all ++ rest)) := by
      rw [serializeFrom_cons]
      simp only [List.append_assoc, List.cons_append]
    rw [htext] at h
    rcases infix_split h hline with hhead | htail
    · have hmem := hhead.subset hin
      refine ⟨m, List.mem_cons_self, ?_, length_of_header hhead⟩
      simpa using hmem
    · rcases infix_split htail hline with hbody | htail
      · have hmem := hbody.subset hin
        have hno := slash_notMem_fields m
        split_ifs at hmem <;> simp [hno] at hmem
      · obtain ⟨m', hm', hlong⟩ := ih htail
        exact ⟨m', List.mem_cons_of_mem m hm', hlong⟩

theorem quoted_of_serialize (hraw : '\\' ∈ raw) (hbreak : '\n' ∉ raw)
    (h : '"' :: raw ++ ['"'] <:+: serializeAll all) :
    ∃ m ∈ all, '\\' ∈ m.modelId ∧ raw.length ≤ m.modelId.length := by
  have hopen : "\x7b\n".toList = ['{', '\n'] := rfl
  have htext : serializeAll all =
      ['{'] ++ '\n' :: (serializeFrom all.length 0 all ++ "\x7d\n".toList) := by
    unfold serializeAll
    simp only [hopen]
    rw [List.append_assoc]
    rfl
  rw [htext] at h
  rcases infix_split h (by simp [hbreak]) with hhead | htail
  · have hmem := hhead.subset (by simp [hraw] : '\\' ∈ '"' :: raw ++ ['"'])
    simp at hmem
  · exact quoted_of_serializeFrom hraw hbreak (by decide) htail

end Lines

/-- Of the ids that are not plain the longest cannot be read back. -/
theorem plain_of_decodes {v : Value} (hv : parse (serializeAll all) = some v)
    (hdecodes : DecodesTo v all) : ∀ m ∈ all, Plain m.modelId := by
  by_contra hno
  push Not at hno
  obtain ⟨m₀, hm₀, hbad₀⟩ := hno
  obtain ⟨ms, rfl, hids, _⟩ := hdecodes
  have hfinite : {m | m ∈ all ∧ ¬Plain m.modelId}.Finite :=
    (List.finite_toSet all).subset fun m hm => hm.1
  obtain ⟨m, hm, hmax⟩ := Set.exists_max_image _ (fun m => m.modelId.length) hfinite
    ⟨m₀, hm₀, hbad₀⟩
  obtain ⟨x, hx⟩ := (hids m.modelId).mpr ⟨m, hm.1, rfl⟩
  obtain ⟨raw, hquoted, hin⟩ : ∃ raw, Quoted raw m.modelId ∧
      '"' :: raw ++ ['"'] <:+: serializeAll all := parse_quoted hv _ hx
  rcases hquoted.2 with hcase | hcase
  · exact hm.2 hcase.2
  · obtain ⟨hslash, hlong⟩ := hcase
    have hbreak : '\n' ∉ raw := by
      intro hmem
      exact absurd (hquoted.1 _ hmem) (by decide)
    obtain ⟨m', hm', hslash', hfits⟩ := quoted_of_serialize hslash hbreak hin
    have hbad : ¬Plain m'.modelId := by
      intro hplain
      exact absurd (hplain _ hslash') (by decide)
    have hle := hmax m' ⟨hm', hbad⟩
    omega

section Reading

theorem skipWs_decimalText (n : UInt64) (r : List Char) :
    skipWs (' ' :: (decimalText n ++ r)) = Nat.toDigits 10 n.toNat ++ r := by
  unfold decimalText
  cases hds : Nat.toDigits 10 n.toNat with
  | nil => exact absurd hds Nat.toDigits_ne_nil
  | cons d ds =>
    have hd := toDigits_isDigit n.toNat d (hds ▸ List.mem_cons_self)
    have hws : isWs d = false := by
      unfold isWs
      simp only [Bool.or_eq_false_iff, decide_eq_false_iff_not]
      refine ⟨⟨⟨?_, ?_⟩, ?_⟩, ?_⟩ <;>
      · intro he
        rw [he] at hd
        cases hd
    unfold skipWs
    rw [List.cons_append, List.dropWhile_cons, if_pos (by decide), List.dropWhile_cons, hws]
    rfl

/-- The object of the fields `fs`. -/
def fieldMembers (fs : List (String × UInt64)) : List (List Char × Value) :=
  fs.map fun f => (f.1.toList, .number f.2.toNat)

theorem skipWs_writeField (name : String) (k : UInt64) (r : List Char) :
    skipWs (writeField name k ++ r) =
      '"' :: (name.toList ++ '"' :: ':' :: ' ' :: (decimalText k ++ r)) := by
  have hindent : "    \"".toList = [' ', ' ', ' ', ' ', '"'] := rfl
  have hcolon : "\": ".toList = ['"', ':', ' '] := rfl
  unfold writeField
  simp only [hindent, hcolon, List.append_assoc, List.cons_append, List.nil_append]
  rfl

theorem parseMembers_fieldLines {fs : List (String × UInt64)} (hne : fs ≠ [])
    (hplain : ∀ f ∈ fs, Plain f.1.toList) (hn : fs.length < n) :
    parseMembers n (fieldLines fs ++ ("  \x7d".toList ++ r)) = some (fieldMembers fs, r) := by
  induction fs generalizing n with
  | nil => exact absurd rfl hne
  | cons f fs ih =>
    obtain ⟨k, rfl⟩ : ∃ k, n = k + 2 := ⟨n - 2, by simp at hn; omega⟩
    have hf := hplain f List.mem_cons_self
    cases fs with
    | nil =>
      have htext : fieldLines [f] ++ ("  \x7d".toList ++ r) =
          writeField f.1 f.2 ++ '\n' :: ' ' :: ' ' :: '}' :: r := by
        have hbreak : "\n".toList = ['\n'] := rfl
        have hclose : "  \x7d".toList = [' ', ' ', '}'] := rfl
        simp only [fieldLines, hbreak, hclose, List.append_assoc, List.cons_append, List.nil_append]
      have hvalue : parseValue (k + 1) (' ' :: (decimalText f.2 ++ '\n' :: ' ' :: ' ' :: '}' :: r)) =
          some (.number f.2.toNat, '\n' :: ' ' :: ' ' :: '}' :: r) :=
        parseValue_number (skipWs_decimalText f.2 _) ⟨'\n', rfl, by decide⟩
      rw [htext]
      exact parseMembers_close (skipWs_writeField f.1 f.2 _) hf hvalue rfl
    | cons g fs =>
      have htext : fieldLines (f :: g :: fs) ++ ("  \x7d".toList ++ r) =
          writeField f.1 f.2 ++ ',' :: '\n' :: (fieldLines (g :: fs) ++ ("  \x7d".toList ++ r)) := by
        have hcomma : ",\n".toList = [',', '\n'] := rfl
        simp only [fieldLines, hcomma, List.append_assoc, List.cons_append, List.nil_append]
      have hrest : parseMembers (k + 1) ('\n' :: (fieldLines (g :: fs) ++ ("  \x7d".toList ++ r))) =
          some (fieldMembers (g :: fs), r) := by
        rw [parseMembers_skip (by decide)]
        apply ih (by simp)
        · intro f' hf'
          exact hplain f' (List.mem_cons_of_mem f hf')
        · simp only [List.length_cons] at hn ⊢
          omega
      rw [htext, parseMembers_comma (skipWs_writeField f.1 f.2 _) hf
        (parseValue_number (skipWs_decimalText f.2 _) ⟨',', rfl, by decide⟩) rfl, hrest]
      rfl

theorem skipWs_fieldLines (m : ModelExecutorMetrics) (r : List Char) :
    ∃ rest, skipWs (fieldLines (fields m) ++ r) = '"' :: rest := by
  have htext : fieldLines (fields m) =
      writeField "requests_received" m.metrics.requestsReceived ++ ",\n".toList ++
        fieldLines (fields m).tail := rfl
  rw [htext, List.append_assoc, List.append_assoc, skipWs_writeField]
  exact ⟨_, rfl⟩

theorem plain_fields (m : ModelExecutorMetrics) : ∀ f ∈ fields m, Plain f.1.toList := by
  intro f hf
  have hname : f.1 ∈ (fields m).map Prod.fst := List.mem_map_of_mem hf
  rw [fields_names] at hname
  have hall : ["requests_received", "requests_completed", "requests_rejected", "queue_timeouts",
      "latency_p50_ns", "latency_p95_ns", "latency_p99_ns"].all
      (fun name => name.toList.all plainChar) = true := by decide
  exact List.all_eq_true.mp (List.all_eq_true.mp hall f.1 hname)

/-- The object of a model, from behind the colon of its id. -/
theorem parseValue_model (m : ModelExecutorMetrics) (hn : 8 < n) :
    parseValue n (' ' :: '{' :: '\n' :: (fieldLines (fields m) ++ ("  \x7d".toList ++ r))) =
      some (.object (fieldMembers (fields m)), r) := by
  obtain ⟨k, rfl⟩ : ∃ k, n = k + 1 := ⟨n - 1, by omega⟩
  obtain ⟨rest, hrest⟩ := skipWs_fieldLines m ("  \x7d".toList ++ r)
  have hlen : (fields m).length < k := by
    change 7 < k
    omega
  have hmembers : parseMembers k ('\n' :: (fieldLines (fields m) ++ ("  \x7d".toList ++ r))) =
      some (fieldMembers (fields m), r) := by
    rw [parseMembers_skip (by decide)]
    exact parseMembers_fieldLines (by simp [fields]) (plain_fields m) hlen
  rw [parseValue_object rfl ((skipWs_cons (by decide) _).trans hrest), hmembers]
  rfl

def modelMember (m : ModelExecutorMetrics) : List Char × Value :=
  (m.modelId, .object (fieldMembers (fields m)))

theorem skipWs_header (id r : List Char) :
    skipWs ("  \"".toList ++ id ++ "\": \x7b".toList ++ r) =
      '"' :: (id ++ '"' :: ':' :: ' ' :: '{' :: r) := by
  have hindent : "  \"".toList = [' ', ' ', '"'] := rfl
  have hcolon : "\": \x7b".toList = ['"', ':', ' ', '{'] := rfl
  simp only [hindent, hcolon, List.append_assoc, List.cons_append, List.nil_append]
  rfl

theorem parseMembers_serializeFrom (hne : all ≠ []) (hplain : ∀ m ∈ all, Plain m.modelId)
    (hn : all.length + 9 ≤ n) :
    parseMembers n (serializeFrom (i + all.length) i all ++ '}' :: r) =
      some (all.map modelMember, r) := by
  induction all generalizing n i with
  | nil => exact absurd rfl hne
  | cons m all ih =>
    simp only [List.length_cons] at hn
    obtain ⟨k, rfl⟩ : ∃ k, n = k + 1 := ⟨n - 1, by omega⟩
    have hm := hplain m List.mem_cons_self
    have htext : ∀ sep, (if i + 1 < i + (m :: all).length then ",".toList else []) = sep →
        serializeFrom (i + (m :: all).length) i (m :: all) ++ '}' :: r =
          "  \"".toList ++ m.modelId ++ "\": \x7b".toList ++ ('\n' ::
            (fieldLines (fields m) ++ ("  \x7d".toList ++ (sep ++
              '\n' :: (serializeFrom (i + 1 + all.length) (i + 1) all ++ '}' :: r))))) := by
      intro sep hsep
      have hindex : i + (m :: all).length = i + 1 + all.length := by
        rw [List.length_cons]
        omega
      rw [serializeFrom_cons, hsep, hindex]
      simp only [List.append_assoc, List.cons_append]
    cases all with
    | nil =>
      rw [htext [] (by simp)]
      exact parseMembers_close (skipWs_header m.modelId _) hm (parseValue_model m (by omega)) rfl
    | cons m' all =>
      rw [htext [','] (by simp)]
      have hrest := ih (i := i + 1) (n := k) (by simp)
        (fun m'' hm'' => hplain m'' (List.mem_cons_of_mem m hm'')) (by omega)
      have hskip := (parseMembers_skip (n := k) (c := '\n') (by decide) _).trans hrest
      rw [parseMembers_comma (skipWs_header m.modelId _) hm (parseValue_model m (by omega)) rfl]
      exact congrArg _ hskip

theorem length_serializeFrom (size i : Nat) (all : List ModelExecutorMetrics) :
    10 * all.length ≤ (serializeFrom size i all).length := by
  induction all generalizing i with
  | nil => exact Nat.zero_le _
  | cons m all ih =>
    have hrest := ih (i + 1)
    have hclose : "  \x7d".toList.length = 3 := rfl
    have hopen : "  \"".toList.length = 3 := rfl
    have hbrace : "\": \x7b".toList.length = 4 := rfl
    rw [serializeFrom_cons]
    simp only [List.length_append, List.length_cons, hclose, hopen, hbrace]
    omega

theorem parse_serialize (hplain : ∀ m ∈ all, Plain m.modelId) :
    parse (serializeAll all) = some (.object (all.map modelMember)) := by
  cases hall : all with
  | nil => rfl
  | cons m₀ rest =>
    rw [← hall]
    have hne : all ≠ [] := by
      rw [hall]
      simp
    have hopen : "\x7b\n".toList = ['{', '\n'] := rfl
    have hclose : "\x7d\n".toList = ['}', '\n'] := rfl
    have htext : serializeAll all =
        '{' :: '\n' :: (serializeFrom (0 + all.length) 0 all ++ '}' :: ['\n']) := by
      unfold serializeAll
      simp only [hopen, hclose, Nat.zero_add, List.cons_append, List.nil_append]
    have hlen : all.length + 9 ≤ (serializeAll all).length := by
      have hlong := length_serializeFrom (0 + all.length) 0 all
      have hpos : 0 < all.length := List.length_pos_of_ne_nil hne
      rw [htext]
      simp only [List.length_cons, List.length_append]
      omega
    have hmembers : parseMembers (serializeAll all).length
        ('\n' :: (serializeFrom (0 + all.length) 0 all ++ '}' :: ['\n'])) =
          some (all.map modelMember, ['\n']) := by
      rw [parseMembers_skip (by decide)]
      exact parseMembers_serializeFrom hne hplain hlen
    have hquote : ∃ t, skipWs ('\n' :: (serializeFrom (0 + all.length) 0 all ++ '}' :: ['\n'])) =
        '"' :: t := by
      rw [skipWs_cons (by decide), hall, serializeFrom_cons, List.append_assoc]
      exact ⟨_, skipWs_header _ _⟩
    obtain ⟨t, ht⟩ := hquote
    have hstart : skipWs (serializeAll all) =
        '{' :: ('\n' :: (serializeFrom (0 + all.length) 0 all ++ '}' :: ['\n'])) := by
      rw [htext]
      rfl
    unfold parse
    rw [parseValue_object hstart ht, hmembers]
    rfl

end Reading

theorem decodes_modelMembers (hids : (all.map (·.modelId)).Nodup) :
    DecodesTo (.object (all.map modelMember)) all := by
  refine ⟨all.map modelMember, rfl, ?_, ?_⟩
  · intro id
    constructor
    · intro hx
      obtain ⟨x, hx⟩ := hx
      obtain ⟨m, hm, heq⟩ := List.mem_map.mp hx
      exact ⟨m, hm, congrArg Prod.fst heq⟩
    · intro hm
      obtain ⟨m, hm, rfl⟩ := hm
      exact ⟨_, List.mem_map_of_mem hm⟩
  · intro m hm
    have hnames : ((all.map modelMember).map Prod.fst).Nodup := by
      rw [List.map_map]
      exact hids
    have hfields : ((fieldMembers (fields m)).map Prod.fst).Nodup := by
      have hmap : (fieldMembers (fields m)).map Prod.fst =
          ((fields m).map Prod.fst).map String.toList := by
        rw [fieldMembers, List.map_map, List.map_map]
        rfl
      rw [hmap, fields_names]
      decide
    refine ⟨_, get_of_nodup hnames (List.mem_map_of_mem hm), ?_, ?_⟩
    · intro f hf
      exact get_of_nodup hfields (List.mem_map_of_mem hf)
    · intro x hx
      obtain ⟨f, hf, heq⟩ := List.mem_map.mp hx
      exact ⟨f, hf, congrArg Prod.fst heq⟩

theorem plain_of_exports {executors : List (List Char × ExecutorTelemetry)}
    (h : ExportsRight executors) : ∀ e ∈ executors, Plain e.1 := by
  obtain ⟨v, hv, hdecodes⟩ := h
  intro e he
  exact plain_of_decodes hv hdecodes _ (List.mem_map_of_mem he)

/-- The text is an object with the numbers of each model under its id exactly where no id has a
quote, a backslash or a control character. -/
theorem exportsRight_iff (executors : List (List Char × ExecutorTelemetry))
    (hids : (executors.map Prod.fst).Nodup) :
    ExportsRight executors ↔ ∀ e ∈ executors, Plain e.1 := by
  constructor
  · exact plain_of_exports
  · intro hplain
    refine ⟨_, parse_serialize ?_, decodes_modelMembers ?_⟩
    · intro m hm
      obtain ⟨e, he, rfl⟩ := List.mem_map.mp hm
      exact hplain e he
    · rw [getAllMetrics, List.map_map]
      exact hids

theorem exportsRight_two : ExportsRight
    [("bert".toList, {}),
      ("rés net/2".toList, { metrics := { requestsReceived := 18446744073709551615 } })] := by
  apply (exportsRight_iff _ (by decide)).mpr
  intro e he
  rcases List.mem_cons.mp he with rfl | he
  · exact List.all_eq_true.mp (show "bert".toList.all plainChar = true by decide)
  · rw [List.mem_singleton.mp he]
    exact List.all_eq_true.mp (show "rés net/2".toList.all plainChar = true by decide)

/-- An id with a quote in it. -/
theorem quote_not_exported : ¬ExportsRight [("a\"b".toList, {})] := by
  intro h
  have hplain := plain_of_exports h _ List.mem_cons_self
  exact absurd (hplain '"' (by decide)) (by decide)

end Jellybean.Telemetry
