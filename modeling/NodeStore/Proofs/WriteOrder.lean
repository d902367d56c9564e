import Mathlib.Data.List.Perm.Basic
import NodeStore.Proofs.PointwiseUpdates
import NodeStore.Proofs.WriteHistory

namespace NodeStore

namespace WriteCall

variable {c c' : WriteCall} {ws ws' : List WriteCall} {s : Store}

theorem get?_changes_update {k : Key} {ch : Change} (h : c.update.changes.get? k = some ch) :
    ∃ v, ch = .insertEntry v := by
  simp only [update_eq, entries, List.foldl_cons, List.foldl_nil, Update.insertEntry, Update.withChange,
    SortedMap.get?_insert] at h
  split at h
  · exact ⟨_, (Option.some.inj h).symm⟩
  · split at h
    · exact ⟨_, (Option.some.inj h).symm⟩
    · cases h

theorem onlyRaises_update (c : WriteCall) : c.update.OnlyRaises := fun _ _ h ↦ by
  obtain ⟨_, hinsert⟩ := get?_changes_update h
  cases hinsert

theorem update_comm (h : c.revision ≠ c'.revision) (d : Document) :
    (d.apply c.update).apply c'.update = (d.apply c'.update).apply c.update := by
  refine Document.apply_comm_of_onlyRaises (fun name r ↦ ?_) c.onlyRaises_update c'.onlyRaises_update
  cases hc : c.update.change? name (some r) with
  | none => exact .inl rfl
  | some ch =>
    cases hc' : c'.update.change? name (some r) with
    | none => exact .inr rfl
    | some ch' => exact absurd ((change?_update_iff.1 hc).1.symm.trans (change?_update_iff.1 hc').1) h

theorem path_eq_of_documentId (h : c.documentId = c'.documentId) : c.path = c'.path :=
  Path.id_injective (by rw [id_path, id_path, h])

@[simp]
theorem available_written (c : WriteCall) (s : Store) : (c.written s).available = s.available := rfl

theorem written_comm (h : c.revision ≠ c'.revision) (s : Store) :
    c'.written (c.written s) = c.written (c'.written s) := by
  refine Store.ext_get? (by simp) fun id ↦ ?_
  simp only [get?_written]
  by_cases hid : c.documentId = c'.documentId
  · -- Both make the document blank at the same path if there is none.
    simp only [hid, path_eq_of_documentId hid, if_true, Option.getD_some, update_comm h]
    split <;> rfl
  · simp only [if_neg hid, if_neg (Ne.symm hid)]
    split
    next heq => rw [if_neg (heq ▸ Ne.symm hid)]
    next => rfl

theorem applyAll_of_available (ws : List WriteCall) (h : s.available = true) :
    applyAll ws s = (.ok (), ws.foldl (fun s c ↦ c.written s) s) := by
  induction ws generalizing s with
  | nil => rfl
  | cons c ws ih =>
    rw [applyAll, c.apply_of_available h]
    exact ih (by rw [available_written, h])

theorem apply_of_unavailable (c : WriteCall) (h : s.available = false) :
    c.apply s = (.error (.store Store.offline), s) := by
  rw [apply, Write.apply, Store.upsert, h]
  rfl

theorem foldl_written_of_perm (once : (ws.map fun c ↦ (c.clusterId, c.timestamp)).Nodup) (h : ws.Perm ws')
    (s : Store) : ws.foldl (fun s c ↦ c.written s) s = ws'.foldl (fun s c ↦ c.written s) s := by
  refine h.foldl_eq' (fun c hc c' hc' s ↦ ?_) s
  by_cases hr : c.revision = c'.revision
  · rw [eq_of_once once hc hc' hr]
  · exact written_comm hr s

/-- The order of calls with distinct members and times does not matter: from any store every order leaves the same
store, and while the store is available all calls succeed. -/
theorem applyAll_of_perm (once : (ws.map fun c ↦ (c.clusterId, c.timestamp)).Nodup) (h : ws.Perm ws') (s : Store) :
    applyAll ws' s = applyAll ws s ∧ (s.available = true → (applyAll ws s).1 = .ok ()) := by
  cases ha : s.available with
  | true =>
    rw [applyAll_of_available ws ha, applyAll_of_available ws' ha, foldl_written_of_perm once h]
    exact ⟨rfl, fun _ ↦ rfl⟩
  | false =>
    refine ⟨?_, fun hx ↦ by cases hx⟩
    cases ws with
    | nil => rw [h.nil_eq]
    | cons c ws =>
      cases ws' with
      | nil => cases h.eq_nil
      | cons c' ws' => rw [applyAll, applyAll, c.apply_of_unavailable ha, c'.apply_of_unavailable ha]

theorem applyAll_of_perm_reverse :
    let ws : List WriteCall := [⟨1, 12, 0, .uncommitted⟩, ⟨1, 14, 0, .failedCreation⟩, ⟨2, 14, 0, .mergedBranch⟩]
    let s := (applyAll [⟨2, 12, 0, .trunk⟩] Recovery.initialStore).2
    (ws.map fun c ↦ (c.clusterId, c.timestamp)).Nodup ∧ ws.Perm ws.reverse ∧
      applyAll ws.reverse s = applyAll ws s ∧ (s.available = true → (applyAll ws s).1 = .ok ()) := by
  intro ws s
  have once : (ws.map fun c ↦ (c.clusterId, c.timestamp)).Nodup := by decide
  exact ⟨once, ws.reverse_perm.symm, applyAll_of_perm once ws.reverse_perm.symm s⟩

end WriteCall

namespace Recovery

open WriteCall

variable {members : List (UInt32 × List Step)} {clusterId : UInt32} {steps : List Step} {ts : UInt64} {s : Store}

def calls (clusterId : UInt32) : List Step → UInt64 → List WriteCall
  | [], _ => []
  | (number, w) :: rest, ts => ⟨clusterId, ts + 2, number, w⟩ :: calls clusterId rest (ts + 2)

theorem writeAll_of_available (clusterId : UInt32) (steps : List Step) (ts : UInt64) (h : s.available = true) :
    ∃ last, writeAll clusterId steps ts s =
      (.ok last, (calls clusterId steps ts).foldl (fun s c ↦ c.written s) s) := by
  induction steps generalizing ts s with
  | nil => exact ⟨ts, rfl⟩
  | cons step rest ih =>
    obtain ⟨number, w⟩ := step
    have hfirst := apply_of_available ⟨clusterId, ts + 2, number, w⟩ h
    obtain ⟨last, hrest⟩ := ih (ts + 2) ((available_written ⟨clusterId, ts + 2, number, w⟩ s).trans h)
    refine ⟨last, ?_⟩
    rw [WriteCall.apply] at hfirst
    rw [writeAll, hfirst]
    exact hrest

theorem available_foldl_written (ws : List WriteCall) (s : Store) :
    (ws.foldl (fun s c ↦ c.written s) s).available = s.available := by
  induction ws generalizing s with
  | nil => rfl
  | cons c ws ih => rw [List.foldl_cons, ih, available_written]

theorem writeMembers_of_available (members : List (UInt32 × List Step)) (h : s.available = true) :
    ∃ heads, writeMembers members s =
      (.ok heads, (members.flatMap fun m ↦ calls m.1 m.2 startTime).foldl (fun s c ↦ c.written s) s) := by
  induction members generalizing s with
  | nil => exact ⟨[], rfl⟩
  | cons m members ih =>
    obtain ⟨clusterId, steps⟩ := m
    obtain ⟨last, hfirst⟩ := writeAll_of_available clusterId steps startTime h
    obtain ⟨heads, hrest⟩ := ih ((available_foldl_written (calls clusterId steps startTime) s).trans h)
    refine ⟨(clusterId, last) :: heads, ?_⟩
    rw [writeMembers, hfirst]
    simp only [hrest]
    rw [List.flatMap_cons, List.foldl_append]
    rfl

theorem clusterId_of_mem_calls {c : WriteCall} (h : c ∈ calls clusterId steps ts) : c.clusterId = clusterId := by
  induction steps generalizing ts with
  | nil => cases h
  | cons step rest ih =>
    rcases List.mem_cons.1 h with rfl | h
    · rfl
    · exact ih h

theorem toNat_add_two (hts : ts.toNat + 2 < UInt64.size) : (ts + 2).toNat = ts.toNat + 2 := by
  rw [UInt64.toNat_add]
  exact Nat.mod_eq_of_lt hts

theorem timestamp_of_mem_calls (hts : ts.toNat + 2 * steps.length < UInt64.size) {c : WriteCall}
    (h : c ∈ calls clusterId steps ts) : ts.toNat < c.timestamp.toNat := by
  induction steps generalizing ts with
  | nil => cases h
  | cons step rest ih =>
    rw [List.length_cons] at hts
    have hnext : (ts + 2).toNat = ts.toNat + 2 := toNat_add_two (by omega)
    rcases List.mem_cons.1 h with rfl | h
    · exact hnext ▸ by omega
    · have hlater := @ih (ts + 2) (by omega) h
      omega

theorem nodup_calls (hts : ts.toNat + 2 * steps.length < UInt64.size) :
    ((calls clusterId steps ts).map fun c ↦ (c.clusterId, c.timestamp)).Nodup := by
  induction steps generalizing ts with
  | nil => exact .nil
  | cons step rest ih =>
    rw [List.length_cons] at hts
    have hnext : (ts + 2).toNat = ts.toNat + 2 := toNat_add_two (by omega)
    rw [calls, List.map_cons, List.nodup_cons]
    refine ⟨fun hmem ↦ ?_, ih (by omega)⟩
    obtain ⟨c, hc, heq⟩ := List.mem_map.1 hmem
    have hlater := timestamp_of_mem_calls (by omega) hc
    have hsame : c.timestamp = ts + 2 := congrArg Prod.snd heq
    exact absurd (congrArg UInt64.toNat hsame) (Nat.ne_of_gt hlater)

/-- Members that write one after the other leave the store that every interleaving of their calls leaves. -/
theorem writeMembers_of_perm {ws : List WriteCall} (ids : (members.map Prod.fst).Nodup)
    (short : ∀ m ∈ members, startTime.toNat + 2 * m.2.length < UInt64.size)
    (h : (members.flatMap fun m ↦ calls m.1 m.2 startTime).Perm ws) (hs : s.available = true) :
    ∃ heads t, writeMembers members s = (.ok heads, t) ∧ applyAll ws s = (.ok (), t) := by
  have once : ((members.flatMap fun m ↦ calls m.1 m.2 startTime).map fun c ↦ (c.clusterId, c.timestamp)).Nodup := by
    rw [List.map_flatMap, List.nodup_flatMap]
    refine ⟨fun m hm ↦ nodup_calls (short m hm), (List.pairwise_map.1 ids).imp fun hne ↦ ?_⟩
    refine List.disjoint_left.2 fun key hkey hkey' ↦ ?_
    obtain ⟨c, hc, rfl⟩ := List.mem_map.1 hkey
    obtain ⟨c', hc', heq⟩ := List.mem_map.1 hkey'
    exact hne ((clusterId_of_mem_calls hc).symm.trans
      ((congrArg Prod.fst heq).symm.trans (clusterId_of_mem_calls hc')))
  obtain ⟨heads, hrun⟩ := writeMembers_of_available members hs
  exact ⟨heads, _, hrun, by rw [applyAll_of_available ws hs, foldl_written_of_perm once h]⟩

end Recovery

end NodeStore
