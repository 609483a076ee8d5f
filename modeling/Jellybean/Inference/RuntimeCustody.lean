import Jellybean.Framework.Custody
import Jellybean.Inference.Runtime

namespace Jellybean.Inference.InferenceRuntime

open Model

variable {α : Type*} {s u : State α} {workerThreads : Nat}

/-- The executor inside which a thread is. -/
def Pc.entered : Pc α → Option Nat
  | .starting _ e | .discarding e | .unregistering e | .inferring e | .stopping _ e _ => some e
  | _ => none

/-- The executor whose `stop` the thread is inside. -/
def Pc.ending : Pc α → Option Nat
  | .discarding e | .unregistering e | .stopping _ e _ => some e
  | _ => none

/-- The executor that the thread has made and that the map does not know. -/
def Pc.unpublished : Pc α → Option Nat
  | .starting _ e | .discarding e => some e
  | _ => none

/-- The executors that the thread has taken out of the map and not yet stopped. -/
def Pc.toStop : Pc α → List Nat
  | .unregistering e => [e]
  | .stopping _ e rest => e :: rest
  | _ => []

/-- The executors that nobody but the thread can start or stop. -/
def Pc.owned : Pc α → List Nat
  | .starting _ e | .discarding e => [e]
  | pc => pc.toStop

def Pc.before : Pc α → List Nat
  | .lockShutdown before | .stopping before _ _ | .returning before => before
  | _ => []

/-- Who has an executor: a thread, or the map (`none`). -/
def Held (s : State α) : Option Nat → Nat → Prop
  | some i, e => e ∈ (s.threads i).owned
  | none, e => e ∈ values s

theorem Pc.entered_of_ending {pc : Pc α} {e : Nat} (h : pc.ending = some e) :
    pc.entered = some e := by
  cases pc <;> first | exact h | cases h

theorem Pc.mem_owned_of_ending {pc : Pc α} {e : Nat} (h : pc.ending = some e) : e ∈ pc.owned := by
  cases pc <;> cases h <;> simp [Pc.owned, Pc.toStop]

theorem Pc.mem_owned_of_unpublished {pc : Pc α} {e : Nat} (h : pc.unpublished = some e) :
    e ∈ pc.owned := by
  cases pc <;> cases h <;> simp [Pc.owned]

theorem Pc.mem_owned {pc : Pc α} {e : Nat} (h : e ∈ pc.owned) :
    pc.unpublished = some e ∨ e ∈ pc.toStop := by
  cases pc <;> simp_all [Pc.owned, Pc.toStop, Pc.unpublished]

theorem mem_values_of_lookup {modelId : String} {e : Nat}
    (h : s.executors.lookup modelId = some e) : e ∈ values s :=
  List.mem_map.mpr ⟨⟨modelId, e⟩, AList.mem_lookup_iff.mp h, rfl⟩

theorem values_insert {modelId : String} {e : Nat} (hn : modelId ∉ s.executors)
    (hu : u.executors = s.executors.insert modelId e) : values u = e :: values s := by
  unfold values
  rw [hu, AList.entries_insert_of_notMem hn]
  rfl

theorem values_erase {modelId : String} {e : Nat} (h : s.executors.lookup modelId = some e)
    (hu : u.executors = s.executors.erase modelId) : (values s).Perm (e :: values u) := by
  have hk : modelId ∈ s.executors.entries.keys := AList.lookup_isSome.mp (by simp [h])
  obtain ⟨b, l, r, -, he, hr⟩ := List.exists_of_kerase hk
  have hb : s.executors.lookup modelId = some b := AList.mem_lookup_iff.mpr (by simp [he])
  obtain rfl : e = b := by simpa [h] using hb
  unfold values
  rw [hu, he]
  change List.Perm _ (e :: (List.kerase modelId s.executors.entries).map Sigma.snd)
  rw [hr, List.map_append, List.map_append, List.map_cons]
  exact List.perm_middle

theorem values_empty (hu : u.executors = ∅) : values u = [] := by
  unfold values
  rw [hu]
  rfl

/-- Executors change hands: what a holder has in `u` it had in `s`, or it is `d` and got an
executor that is new or that another holder gave away. -/
structure Passes (s u : State α) (d : Option Nat) : Prop where
  le : s.created ≤ u.created
  held : ∀ l e, Held u l e → Held s l e ∨
    l = d ∧ (e = s.created ∧ e < u.created ∨ ∃ k, Held s k e ∧ ¬ Held u k e)

theorem held_update {i : Nat} {pc : Pc α} (ht : u.threads = Function.update s.threads i pc)
    (hv : values u ⊆ values s) {l : Option Nat} {e : Nat} (h : Held u l e) :
    Held s l e ∨ l = some i ∧ e ∈ pc.owned := by
  cases l with
  | none => exact .inl (hv h)
  | some j =>
    rcases eq_or_ne j i with rfl | hj
    · simp only [Held, ht, Function.update_self] at h
      exact .inr ⟨rfl, h⟩
    · simp only [Held, ht, Function.update_of_ne hj] at h
      exact .inl h

namespace Passes

theorem of_subset {i : Nat} {pc : Pc α} (hc : u.created = s.created)
    (ht : u.threads = Function.update s.threads i pc) (hv : values u ⊆ values s)
    (ho : pc.owned ⊆ (s.threads i).owned) : Passes s u none := by
  refine ⟨hc.ge, ?_⟩
  intro l e h
  rcases held_update ht hv h with h | ⟨rfl, he⟩
  · exact .inl h
  · exact .inl (ho he)

/-- Thread `i` takes executors out of the map. -/
theorem of_taken {i : Nat} {pc : Pc α} (hc : u.created = s.created)
    (ht : u.threads = Function.update s.threads i pc) (hv : values u ⊆ values s)
    (ho : ∀ e ∈ pc.owned, e ∈ values s ∧ e ∉ values u) : Passes s u (some i) := by
  refine ⟨hc.ge, ?_⟩
  intro l e h
  rcases held_update ht hv h with h | ⟨rfl, he⟩
  · exact .inl h
  · exact .inr ⟨rfl, .inr ⟨none, ho e he⟩⟩

theorem of_made {i : Nat} {pc : Pc α} (hc : u.created = s.created + 1)
    (ht : u.threads = Function.update s.threads i pc) (hv : values u ⊆ values s)
    (ho : pc.owned = [s.created]) : Passes s u (some i) := by
  refine ⟨by omega, ?_⟩
  intro l e h
  rcases held_update ht hv h with h | ⟨rfl, he⟩
  · exact .inl h
  · obtain rfl : e = s.created := by simpa [ho] using he
    exact .inr ⟨rfl, .inl ⟨rfl, by omega⟩⟩

/-- Thread `i` puts executor `e` into the map. -/
theorem of_given {i e : Nat} {pc : Pc α} (hc : u.created = s.created)
    (ht : u.threads = Function.update s.threads i pc) (hv : values u = e :: values s)
    (he : e ∈ (s.threads i).owned) (ho : pc.owned = []) : Passes s u none := by
  have hi : u.threads i = pc := by rw [ht, Function.update_self]
  refine ⟨hc.ge, ?_⟩
  intro l f h
  cases l with
  | none =>
    have hf : f ∈ e :: values s := hv ▸ h
    rcases List.mem_cons.mp hf with rfl | hf
    · refine .inr ⟨rfl, .inr ⟨some i, he, ?_⟩⟩
      simp [Held, hi, ho]
    · exact .inl hf
  | some j =>
    rcases eq_or_ne j i with rfl | hj
    · simp [Held, hi, ho] at h
    · simp only [Held, ht, Function.update_of_ne hj] at h
      exact .inl h

theorem of_moves (hn : (values s).Nodup) {a : Action α} (hm : Moves workerThreads s a u) :
    ∃ d, Passes s u d := by
  cases hm with
  | exec | rejected => exact ⟨none, le_rfl, fun _ _ h => .inl h⟩
  | register hi => exact ⟨_, of_made rfl rfl (List.Subset.refl _) rfl⟩
  | emplaced hi hb hx =>
    refine ⟨_, of_given rfl rfl (values_insert hx rfl) ?_ rfl⟩
    rw [hi]
    exact List.mem_singleton_self _
  | found hi hl hb =>
    have hp := values_erase hl (u := { s with executors := s.executors.erase _ }) rfl
    have hnd := List.nodup_cons.mp (hp.nodup_iff.mp hn)
    refine ⟨_, of_taken rfl rfl ?_ ?_⟩
    · exact fun f hf => hp.mem_iff.mpr (List.mem_cons_of_mem _ hf)
    · intro f hf
      obtain rfl : f = _ := by simpa [Pc.owned, Pc.toStop] using hf
      exact ⟨mem_values_of_lookup hl, hnd.1⟩
  | stopFirst hi hv hb =>
    refine ⟨_, of_taken rfl rfl ?_ ?_⟩
    · exact List.nil_subset _
    · exact fun f hf => ⟨hv.mem_iff.mp hf, List.not_mem_nil⟩
  | nothingToStop hi hv =>
    exact ⟨none, of_subset rfl rfl (List.nil_subset _) (List.nil_subset _)⟩
  | refused hi hb | stopNext hi hb hf =>
    refine ⟨none, of_subset rfl rfl (List.Subset.refl _) ?_⟩
    rw [hi]
    simp [Pc.owned, Pc.toStop]
  | callUnregister hi | callInfer hi | callShutdown hi | discarded hi hb | notFound hi
  | unregistered hi hb | replied hi | routed hi _ _ | forwarded hi _ | inferred hi hb
  | alreadyStopped hi _ | stoppedAll hi hb | returned hi =>
    exact ⟨none, of_subset rfl rfl (List.Subset.refl _) (List.nil_subset _)⟩

/-- Nobody gets hold of an executor that nobody has. -/
theorem unheld {d : Option Nat} (h : Passes s u d) {e : Nat} (he : e < s.created)
    (hn : ∀ l, ¬ Held s l e) (l : Option Nat) : ¬ Held u l e := by
  intro hl
  rcases h.held l e hl with h | ⟨-, h | ⟨k, hk, -⟩⟩
  · exact hn l h
  · omega
  · exact hn k hk

end Passes

/-- Every executor has at most one holder, and has it once. -/
structure Custody (s : State α) : Prop where
  apart : Apart (Held s)
  owned : ∀ i, (s.threads i).owned.Nodup
  values : (values s).Nodup
  created : ∀ l e, Held s l e → e < s.created

namespace Custody

theorem initial : Custody (InferenceRuntime.initial : State α) where
  apart := fun l k e _ hl => by cases l <;> cases hl
  owned := fun _ => List.nodup_nil
  values := List.nodup_nil
  created := fun l e hl => by cases l <;> cases hl

theorem unique (h : Custody s) {l k : Option Nat} {e : Nat} (hl : Held s l e) (hk : Held s k e) :
    l = k := by
  by_contra hne
  exact h.apart l k e hne hl hk

theorem apart_passes (h : Custody s) {d : Option Nat} (hp : Passes s u d) : Apart (Held u) := by
  -- An old holder of an executor that changes hands would be the one that gave it away.
  have hcross (l : Option Nat) (e : Nat) (hl : Held u l e) (hls : Held s l e)
      (hk : e = s.created ∧ e < u.created ∨ ∃ k, Held s k e ∧ ¬ Held u k e) : False := by
    rcases hk with ⟨rfl, -⟩ | ⟨k, hk, hn⟩
    · exact absurd (h.created l _ hls) (lt_irrefl _)
    · rw [h.unique hls hk] at hl
      exact hn hl
  intro l k e hne hl hk
  rcases hp.held l e hl with hls | ⟨rfl, hld⟩
  · rcases hp.held k e hk with hks | ⟨rfl, hkd⟩
    · exact h.apart l k e hne hls hks
    · exact hcross l e hl hls hkd
  · rcases hp.held k e hk with hks | ⟨rfl, -⟩
    · exact hcross k e hk hks hld
    · exact hne rfl

theorem created_passes (h : Custody s) {d : Option Nat} (hp : Passes s u d) (l : Option Nat)
    (e : Nat) (hl : Held u l e) : e < u.created := by
  rcases hp.held l e hl with h' | ⟨-, ⟨-, h'⟩ | ⟨k, hk, -⟩⟩
  · exact (h.created l e h').trans_le hp.le
  · exact h'
  · exact (h.created k e hk).trans_le hp.le

theorem values_moves (h : Custody s) {a : Action α} (hm : Moves workerThreads s a u) :
    (InferenceRuntime.values u).Nodup := by
  cases hm with
  | @emplaced i modelId e _ _ hi hb hx =>
    rw [values_insert hx rfl]
    refine List.nodup_cons.mpr ⟨fun hv => ?_, h.values⟩
    have : Held s (some i) e := by simp [Held, hi, Pc.owned]
    exact h.apart (some i) none e (by simp) this hv
  | found hi hl hb =>
    have hp := values_erase hl (u := { s with executors := s.executors.erase _ }) rfl
    exact (List.nodup_cons.mp (hp.nodup_iff.mp h.values)).2
  | nothingToStop | stopFirst => exact List.nodup_nil
  | _ => exact h.values

theorem owned_update {i : Nat} {pc : Pc α} (h : Custody s) (hp : pc.owned.Nodup) (j : Nat) :
    (Function.update s.threads i pc j).owned.Nodup := by
  rcases eq_or_ne j i with rfl | hj
  · rwa [Function.update_self]
  · rw [Function.update_of_ne hj]
    exact h.owned j

theorem owned_moves (h : Custody s) {a : Action α} (hm : Moves workerThreads s a u) :
    ∀ i, (u.threads i).owned.Nodup := by
  cases hm with
  | exec | rejected => exact h.owned
  | register | refused | found => exact h.owned_update (List.nodup_singleton _)
  | stopFirst hi hv hb => exact h.owned_update (hv.nodup_iff.mpr h.values)
  | @stopNext i before e f rest _ _ hi hb hf =>
    have hn := h.owned i
    rw [hi] at hn
    exact h.owned_update (List.nodup_cons.mp hn).2
  | _ => exact h.owned_update List.nodup_nil

theorem moves (h : Custody s) {a : Action α} (hm : Moves workerThreads s a u) : Custody u := by
  obtain ⟨d, hp⟩ := Passes.of_moves h.values hm
  exact ⟨h.apart_passes hp, h.owned_moves hm, h.values_moves hm, h.created_passes hp⟩

end Custody

/-- A thread drops an executor only when its call of `stop` has returned. -/
def Dropped (s : State α) (e : Nat) : Prop :=
  ∃ i, (s.threads i).ending = some e ∧ (s.execs e).callers i = .idle

/-- Thread `i` goes on; what happens to the executors of the map and to its own is said apart. -/
theorem kept_of_update {i : Nat} {pc : Pc α} {l : Option Nat} {f : Nat} (hl : Held s l f)
    (ht : u.threads = Function.update s.threads i pc)
    (hv : f ∈ values s → (∃ k, Held u k f) ∨ Dropped s f)
    (ho : f ∈ (s.threads i).owned → (∃ k, Held u k f) ∨ Dropped s f) :
    (∃ k, Held u k f) ∨ Dropped s f := by
  cases l with
  | none => exact hv hl
  | some j =>
    rcases eq_or_ne j i with rfl | hj
    · exact ho hl
    · refine .inl ⟨some j, ?_⟩
      simp only [Held, ht, Function.update_of_ne hj]
      exact hl

theorem held_or_dropped {a : Action α} (hm : Moves workerThreads s a u) {l : Option Nat} {f : Nat}
    (hl : Held s l f) : (∃ k, Held u k f) ∨ Dropped s f := by
  cases hm with
  | exec | rejected => exact .inl ⟨l, hl⟩
  | @emplaced i modelId e _ _ hi hb hx =>
    refine kept_of_update hl rfl (fun hf => .inl ⟨none, ?_⟩) fun hf => .inl ⟨none, ?_⟩
    · change f ∈ values _
      rw [values_insert hx rfl]
      exact List.mem_cons_of_mem e hf
    · change f ∈ values _
      rw [values_insert hx rfl]
      exact List.mem_cons.mpr (.inl (by simpa [hi, Pc.owned] using hf))
  | @found i modelId e _ _ hi hf hb =>
    refine kept_of_update hl rfl (fun hv => ?_) fun ho => ?_
    · have hp := values_erase hf (u := { s with executors := s.executors.erase modelId }) rfl
      rcases List.mem_cons.mp (hp.mem_iff.mp hv) with rfl | h
      · exact .inl ⟨some i, by simp [Held, enter, Pc.owned, Pc.toStop]⟩
      · exact .inl ⟨none, h⟩
    · simp [hi, Pc.owned, Pc.toStop] at ho
  | @stopFirst i before e rest _ _ hi hv hb =>
    refine kept_of_update hl rfl (fun hf => .inl ⟨some i, ?_⟩) fun ho => ?_
    · simpa [Held, enter, Pc.owned, Pc.toStop] using hv.mem_iff.mpr hf
    · simp [hi, Pc.owned, Pc.toStop] at ho
  | nothingToStop hi hv =>
    refine kept_of_update hl rfl (fun hf => ?_) fun ho => ?_
    · simp [hv] at hf
    · simp [hi, Pc.owned, Pc.toStop] at ho
  | @refused i modelId e _ _ hi hb =>
    refine kept_of_update hl rfl (fun hf => .inl ⟨none, hf⟩) fun ho => .inl ⟨some i, ?_⟩
    simpa [hi, Held, enter, Pc.owned] using ho
  | @stopNext i before e g rest _ _ hi hb hg =>
    refine kept_of_update hl rfl (fun hf => .inl ⟨none, hf⟩) fun ho => ?_
    rw [hi] at ho
    rcases List.mem_cons.mp ho with rfl | ho
    · exact .inr ⟨i, by rw [hi]; rfl, hb⟩
    · refine .inl ⟨some i, ?_⟩
      simpa [Held, enter, Pc.owned, Pc.toStop] using ho
  | @discarded i e _ _ hi hb | @unregistered i e _ _ hi hb | @stoppedAll i before e _ _ hi hb =>
    refine kept_of_update hl rfl (fun hf => .inl ⟨none, hf⟩) fun ho => .inr ⟨i, ?_⟩
    obtain rfl : f = e := by simpa [hi, Pc.owned, Pc.toStop] using ho
    exact ⟨by rw [hi]; rfl, hb⟩
  | register hi | callUnregister hi | callInfer hi | callShutdown hi | notFound hi | replied hi
  | routed hi _ _ | forwarded hi _ | inferred hi _ | alreadyStopped hi _ | returned hi =>
    refine kept_of_update hl rfl (fun hf => .inl ⟨none, hf⟩) fun ho => ?_
    simp [hi, Pc.owned, Pc.toStop] at ho

end Jellybean.Inference.InferenceRuntime
