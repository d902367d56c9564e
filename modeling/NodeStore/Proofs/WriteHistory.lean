import Mathlib.Data.List.Nodup
import NodeStore.Proofs.Checkpoints
import NodeStore.Proofs.PathText
import NodeStore.Recovery

namespace NodeStore

structure WriteCall where
  clusterId : UInt32
  timestamp : UInt64
  number : Nat
  write : Write
deriving DecidableEq

namespace Write

def isPending : Write → Bool
  | uncommitted | failedCreation => true
  | trunk | mergedBranch => false

def property : Write → String
  | failedCreation => Property.deleted
  | trunk | uncommitted | mergedBranch => "p"

theorem property_cases (w : Write) : w.property = "p" ∨ w.property = Property.deleted := by
  cases w <;> simp [property]

end Write

namespace WriteCall

variable (c : WriteCall)

def revision : Revision := .onTrunk c.timestamp 0 c.clusterId

def documentId : String := c.write.documentId c.clusterId c.timestamp c.number

def update : Update := c.write.update c.clusterId c.timestamp c.number

def apply (s : Store) : Except SweepError Unit × Store := c.write.apply c.clusterId c.timestamp c.number s

def commit? : Option CommitValue :=
  match c.write with
  | .trunk => some .trunk
  | .mergedBranch => some (.mergedBranch (.onTrunk (c.timestamp + 1) 0 c.clusterId))
  | .uncommitted | .failedCreation => none

def content : String :=
  match c.write with
  | .failedCreation => Property.notDeleted
  | .trunk | .uncommitted | .mergedBranch =>
    "\"" ++ toString c.clusterId.toNat ++ "-" ++ toString c.timestamp.toNat ++ "\""

def marker : String × String :=
  match c.commit? with
  | some v => (Property.revisions, v.text)
  | none => (Property.commitRoot, "0")

def entries : List (String × String) := [(c.write.property, c.content), c.marker]

def segment : String :=
  match c.write with
  | .failedCreation => "c" ++ toString c.clusterId.toNat ++ "-" ++ toString c.timestamp.toNat
  | .trunk | .uncommitted | .mergedBranch => "n" ++ toString c.number

variable {c}

theorem commit?_eq_none_iff : c.commit? = none ↔ c.write.isPending = true := by
  cases h : c.write <;> simp [commit?, Write.isPending, h]

theorem commitRevision_ne_iff {v : CommitValue} (h : c.commit? = some v) :
    v.commitRevision c.revision ≠ c.revision ↔ c.write = .mergedBranch := by
  cases hw : c.write with
  | uncommitted | failedCreation => simp [commit?, hw] at h
  | trunk =>
    obtain rfl : CommitValue.trunk = v := by simpa [commit?, hw] using h
    simp [CommitValue.commitRevision]
  | mergedBranch =>
    obtain rfl : CommitValue.mergedBranch (.onTrunk (c.timestamp + 1) 0 c.clusterId) = v := by
      simpa [commit?, hw] using h
    simp [CommitValue.commitRevision, revision, Revision.onTrunk]

theorem marker_cases (c : WriteCall) : c.marker.1 = Property.revisions ∨ c.marker.1 = Property.commitRoot := by
  unfold marker
  split <;> simp

theorem mem_entries {e : String × String} :
    e ∈ c.entries ↔ e = (c.write.property, c.content) ∨ e = c.marker := by
  simp [entries]

theorem relevant_of_mem {name v : String} (h : (name, v) ∈ c.entries) : PropertyFilter.relevant name = true := by
  rcases mem_entries.1 h with he | he <;> obtain rfl := congrArg Prod.fst he
  · rcases c.write.property_cases with hp | hp <;> simp only [hp] <;> decide
  · rcases c.marker_cases with hm | hm <;> simp only [hm] <;> decide

theorem branchCommits_not_mem {v : String} : (Property.branchCommits, v) ∉ c.entries := fun h ↦
  absurd (relevant_of_mem h) (by decide)

theorem property_ne_marker (c : WriteCall) : c.write.property ≠ c.marker.1 := by
  rcases c.write.property_cases with hp | hp <;> rcases c.marker_cases with hm | hm <;> rw [hp, hm] <;> decide

theorem entries_unique {name v w : String} (hv : (name, v) ∈ c.entries) (hw : (name, w) ∈ c.entries) : v = w := by
  have hne := c.property_ne_marker
  rw [mem_entries, Prod.ext_iff, Prod.ext_iff] at hv hw
  grind

theorem mem_entries_revisions {v : String} : (Property.revisions, v) ∈ c.entries ↔
    ∃ w, c.commit? = some w ∧ v = w.text := by
  have hne : c.write.property ≠ Property.revisions := by
    rcases c.write.property_cases with hp | hp <;> rw [hp] <;> decide
  have hmarkers : Property.revisions ≠ Property.commitRoot := by decide
  rw [mem_entries, marker]
  cases c.commit? with
  | none => simp [hne.symm, hmarkers]
  | some w => simp [hne.symm]

theorem mem_entries_commitRoot {v : String} :
    (Property.commitRoot, v) ∈ c.entries ↔ c.commit? = none ∧ v = "0" := by
  have hne : c.write.property ≠ Property.commitRoot := by
    rcases c.write.property_cases with hp | hp <;> rw [hp] <;> decide
  have hmarkers : Property.commitRoot ≠ Property.revisions := by decide
  rw [mem_entries, marker]
  cases c.commit? with
  | none => simp [hne.symm]
  | some w => simp [hne.symm, hmarkers]

theorem update_eq (c : WriteCall) : c.update =
    c.entries.foldl (fun u e ↦ u.insertEntry e.1 c.revision e.2) (.start c.documentId true) := by
  obtain ⟨_, _, _, w⟩ := c
  cases w <;> rfl

theorem change?_update_iff {name : String} {r : Revision} {ch : Change} :
    c.update.change? name (some r) = some ch ↔
      r = c.revision ∧ ∃ v, (name, v) ∈ c.entries ∧ ch = .insertEntry v := by
  have hne := c.property_ne_marker
  have hstart : (Update.start c.documentId true).change? name (some r) = none := rfl
  simp only [update_eq, entries, List.foldl_cons, List.foldl_nil, Update.change?_insertEntry, hstart, List.mem_cons,
    List.not_mem_nil, or_false, Prod.ext_iff]
  grind

theorem valueAt?_apply_update (c : WriteCall) (d : Document) (name : String) (r : Revision) (v : String) :
    (d.apply c.update).valueAt? name r = some v ↔
      r = c.revision ∧ (name, v) ∈ c.entries ∨
        (∀ w, ¬(r = c.revision ∧ (name, w) ∈ c.entries)) ∧ d.valueAt? name r = some v := by
  rw [Document.valueAt?_apply]
  cases hc : c.update.change? name (some r) with
  | none =>
    have hnone (w : String) : ¬(r = c.revision ∧ (name, w) ∈ c.entries) := fun h ↦ by
      cases hc.symm.trans (change?_update_iff.2 ⟨h.1, w, h.2, rfl⟩)
    simp [hnone]
  | some ch =>
    obtain ⟨hr, w, hw, rfl⟩ := change?_update_iff.1 hc
    simp only [Change.effect, Option.some_inj]
    constructor
    · intro h
      exact .inl ⟨hr, h ▸ hw⟩
    · intro h
      rcases h with ⟨-, hv⟩ | ⟨hnone, -⟩
      · exact entries_unique hw hv
      · exact absurd ⟨hr, hw⟩ (hnone w)

theorem isSegment_segment (c : WriteCall) : IsSegment c.segment := by
  have hdigits (n : Nat) : '/' ∉ Nat.toDigits 10 n :=
    Numeral.not_mem_print (by decide) (by decide) (by decide) n
  constructor
  · intro h
    have hempty := congrArg String.toList h
    unfold segment at hempty
    split at hempty <;> simp at hempty
  · unfold segment
    split <;> simp [hdigits]

def path (c : WriteCall) : Path := ⟨[c.segment], by simpa using c.isSegment_segment⟩

theorem id_path (c : WriteCall) : c.path.id = c.documentId := by
  have hdepth : Numeral.print 10 1 = ['1'] := by decide
  apply String.toList_injective
  obtain ⟨_, _, _, w⟩ := c
  cases w <;> simp [Path.id, Path.chars, Path.isRoot, Path.depth, path, segment, documentId, Write.documentId, hdepth]

theorem ofId_documentId (c : WriteCall) : Document.ofId c.documentId = .ok (.blank c.path) := by
  have hdepth : c.path.depth < UInt64.size := (by decide : 1 < UInt64.size)
  rw [← id_path, Document.ofId, Path.ofId_id hdepth]
  rfl

theorem path_ne_root (c : WriteCall) : c.path ≠ .root := fun h ↦ by
  cases congrArg Path.depth h

theorem documentId_ne_root (c : WriteCall) : c.documentId ≠ Path.root.id := by
  rw [← id_path]
  exact fun h ↦ c.path_ne_root (Path.id_injective h)

theorem ancestorAtText?_path (c : WriteCall) : c.path.ancestorAtText? "0" = some .root := rfl

def written (c : WriteCall) (s : Store) : Store :=
  s.put c.documentId (((s.documents.get? c.documentId).getD (.blank c.path)).apply c.update)

theorem apply_of_available (c : WriteCall) {s : Store} (h : s.available = true) :
    c.apply s = (.ok (), c.written s) := by
  have hid : c.update.id = c.documentId := by
    obtain ⟨_, _, _, w⟩ := c
    cases w <;> rfl
  have hupdate : c.write.update c.clusterId c.timestamp c.number = c.update := rfl
  rw [apply, Write.apply, hupdate, Store.upsert, if_pos h, hid, written]
  cases s.documents.get? c.documentId with
  | some d => rfl
  | none => rw [c.ofId_documentId]; rfl

theorem get?_written (c : WriteCall) (s : Store) (id : String) : (c.written s).documents.get? id =
    if id = c.documentId then some (((s.documents.get? c.documentId).getD (.blank c.path)).apply c.update)
    else s.documents.get? id := by
  rw [written, Store.put, SortedMap.get?_insert]

theorem valueAt?_written (c : WriteCall) (s : Store) (id name : String) (r : Revision) (v : String) :
    (c.written s).valueAt? id name r = some v ↔ id = c.documentId ∧ r = c.revision ∧ (name, v) ∈ c.entries ∨
      (id = c.documentId → ∀ w, ¬(r = c.revision ∧ (name, w) ∈ c.entries)) ∧ s.valueAt? id name r = some v := by
  rw [Store.valueAt?, get?_written]
  split
  next hid =>
    have hold : ((s.documents.get? c.documentId).getD (.blank c.path)).valueAt? name r =
        s.valueAt? c.documentId name r := by
      rw [Store.valueAt?]
      cases s.documents.get? c.documentId <;> rfl
    rw [Option.bind_some, valueAt?_apply_update, hold, hid]
    simp
  next hid => simp [hid, Store.valueAt?]

theorem wellFormed_written (c : WriteCall) {s : Store} (hs : s.WellFormed) : (c.written s).WellFormed := by
  intro id d hd
  rw [get?_written] at hd
  split at hd
  next hid =>
    obtain rfl := Option.some.inj hd
    rw [Document.id_apply, Document.path_apply, hid]
    cases hget : s.documents.get? c.documentId with
    | none => exact ⟨c.id_path, c.id_path⟩
    | some e => exact hs _ e hget
  next => exact hs id d hd

def applyAll : List WriteCall → Store → Except SweepError Unit × Store
  | [], s => (.ok (), s)
  | c :: rest, s =>
    match c.apply s with
    | (.ok (), s) => applyAll rest s
    | (.error e, s) => (.error e, s)

/-- The writes of a cluster whose store began at time 1. No member writes twice at one time. -/
structure IsHistory (ws : List WriteCall) : Prop where
  later : ∀ c ∈ ws, 1 < c.timestamp
  once : (ws.map fun c ↦ (c.clusterId, c.timestamp)).Nodup

/-- The entries there are after the writes `ws` and the recovery of the members `recovered`, except checkpoints. -/
inductive Stands (ws : List WriteCall) (recovered : List UInt32) : String → String → Revision → String → Prop
  | created : Stands ws recovered Path.root.id Property.deleted (.onTrunk 1 0 1) Property.notDeleted
  | committed : Stands ws recovered Path.root.id Property.revisions (.onTrunk 1 0 1) CommitValue.trunk.text
  | written {c : WriteCall} {name v : String} : c ∈ ws → (c.clusterId ∈ recovered → c.commit? ≠ none) →
      (name, v) ∈ c.entries → Stands ws recovered c.documentId name c.revision v
  | marked {c : WriteCall} : c ∈ ws → c.clusterId ∈ recovered → c.write = .mergedBranch →
      Stands ws recovered c.documentId Property.branchCommits c.revision "true"

variable {ws : List WriteCall} {recovered : List UInt32} {id name v : String} {r : Revision}

theorem eq_of_once (once : (ws.map fun c ↦ (c.clusterId, c.timestamp)).Nodup) {c c' : WriteCall} (hc : c ∈ ws)
    (hc' : c' ∈ ws) (hr : c.revision = c'.revision) : c = c' := by
  have hkey : (c.clusterId, c.timestamp) = (c'.clusterId, c'.timestamp) :=
    Prod.ext (congrArg Revision.clusterId hr) (congrArg Revision.timestamp hr)
  exact List.inj_on_of_nodup_map once hc hc' hkey

namespace IsHistory

theorem eq_of_revision (h : IsHistory ws) {c c' : WriteCall} (hc : c ∈ ws) (hc' : c' ∈ ws)
    (hr : c.revision = c'.revision) : c = c' :=
  eq_of_once h.once hc hc' hr

theorem revision_ne (h : IsHistory ws) (hc : c ∈ ws) : c.revision ≠ .onTrunk 1 0 1 := fun hr ↦ by
  have hlater := h.later c hc
  rw [show c.timestamp = 1 from congrArg Revision.timestamp hr] at hlater
  exact absurd hlater (by decide)

theorem nodup (h : IsHistory ws) : ws.Nodup := h.once.of_map _

theorem sublist (h : IsHistory ws) {ws' : List WriteCall} (hsub : ws'.Sublist ws) : IsHistory ws' :=
  ⟨fun c hc ↦ h.later c (hsub.mem hc), h.once.sublist (hsub.map _)⟩

theorem revision_ne_last (h : IsHistory (ws ++ [c])) {c' : WriteCall} (hc' : c' ∈ ws) :
    c'.revision ≠ c.revision := fun hr ↦ by
  have hlast : c ∈ ws ++ [c] := List.mem_append_right _ List.mem_cons_self
  obtain rfl := h.eq_of_revision (List.mem_append_left _ hc') hlast hr
  have honce := h.once
  rw [List.map_append, List.nodup_append] at honce
  exact honce.2.2 _ (List.mem_map_of_mem hc') _ List.mem_cons_self rfl

end IsHistory

theorem stands_iff (h : IsHistory ws) (hc : c ∈ ws) : Stands ws recovered id name c.revision v ↔
    id = c.documentId ∧ ((c.clusterId ∈ recovered → c.commit? ≠ none) ∧ (name, v) ∈ c.entries ∨
      (c.clusterId ∈ recovered ∧ c.write = .mergedBranch) ∧ name = Property.branchCommits ∧ v = "true") := by
  constructor
  · intro hstands
    generalize hr : c.revision = r at hstands
    cases hstands with
    | created | committed => exact absurd hr (h.revision_ne hc)
    | written hc' hkept he =>
      obtain rfl := h.eq_of_revision hc hc' hr
      exact ⟨rfl, .inl ⟨hkept, he⟩⟩
    | marked hc' hrecovered hmerged =>
      obtain rfl := h.eq_of_revision hc hc' hr
      exact ⟨rfl, .inr ⟨⟨hrecovered, hmerged⟩, rfl, rfl⟩⟩
  · intro hx
    obtain ⟨rfl, ⟨hkept, he⟩ | ⟨⟨hrecovered, hmerged⟩, rfl, rfl⟩⟩ := hx
    · exact .written hc hkept he
    · exact .marked hc hrecovered hmerged

theorem stands_concat : Stands (ws ++ [c]) [] id name r v ↔
    id = c.documentId ∧ r = c.revision ∧ (name, v) ∈ c.entries ∨ Stands ws [] id name r v := by
  constructor
  · intro h
    cases h with
    | created => exact .inr .created
    | committed => exact .inr .committed
    | written hc hkept he =>
      rcases List.mem_append.1 hc with hc | hc
      · exact .inr (.written hc hkept he)
      · obtain rfl := List.mem_singleton.1 hc
        exact .inl ⟨rfl, rfl, he⟩
    | marked _ hrecovered => cases hrecovered
  · intro h
    rcases h with ⟨rfl, rfl, he⟩ | h
    · exact .written (List.mem_append_right _ List.mem_cons_self) (fun hrecovered ↦ by cases hrecovered) he
    · cases h with
      | created => exact .created
      | committed => exact .committed
      | written hc hkept he => exact .written (List.mem_append_left _ hc) hkept he
      | marked _ hrecovered => cases hrecovered

theorem Stands.revision_ne (h : IsHistory (ws ++ [c])) (hstands : Stands ws recovered id name r v) :
    r ≠ c.revision := by
  have hlast : c ∈ ws ++ [c] := List.mem_append_right _ List.mem_cons_self
  cases hstands with
  | created | committed => exact (h.revision_ne hlast).symm
  | written hc | marked hc => exact h.revision_ne_last hc

theorem Stands.name_ne (h : Stands ws recovered id name r v) : name ≠ Property.sweepRevision := by
  cases h with
  | created | committed | marked => decide
  | written _ _ he =>
    intro hname
    have hrelevant := relevant_of_mem he
    rw [hname] at hrelevant
    exact absurd hrelevant (by decide)

/-- The store holds exactly the entries that stand, and checkpoints of recovered members. -/
structure Reflects (ws : List WriteCall) (recovered : List UInt32) (s : Store) : Prop where
  available : s.available = true
  wellFormed : s.WellFormed
  entries : ∀ id name r v, name ≠ Property.sweepRevision →
    (s.valueAt? id name r = some v ↔ Stands ws recovered id name r v)
  checkpoints : ∀ v, s.HasCheckpoint v → ∃ x, Revision.parse v = .ok x ∧ x.clusterId ∈ recovered

theorem reflects_initialStore : Reflects [] [] Recovery.initialStore := by
  have hget (id : String) : ∃ d, Recovery.initialStore.documents.get? id =
      (if id = Path.root.id then some d else none) ∧ d.id = Path.root.id ∧ d.path = .root ∧
        ∀ name r, d.valueAt? name r =
          if name = Property.revisions ∧ r = .onTrunk 1 0 1 then some CommitValue.trunk.text
          else if name = Property.deleted ∧ r = .onTrunk 1 0 1 then some Property.notDeleted else none := by
    refine ⟨_, SortedMap.get?_insert .empty Path.root.id id _, rfl, rfl, fun name r ↦ ?_⟩
    rw [Document.valueAt?_insertEntry, Document.valueAt?_insertEntry]
    rfl
  have hvalue (id name : String) (r : Revision) (v : String) :
      Recovery.initialStore.valueAt? id name r = some v ↔ Stands [] [] id name r v := by
    obtain ⟨d, hd, -, -, hentries⟩ := hget id
    rw [Store.valueAt?, hd]
    constructor
    · intro h
      split at h
      next hid =>
        rw [Option.bind_some, hentries] at h
        split at h
        next hk =>
          obtain ⟨rfl, rfl⟩ := hk
          obtain rfl := Option.some.inj h
          exact hid ▸ .committed
        next =>
          split at h
          next hk =>
            obtain ⟨rfl, rfl⟩ := hk
            obtain rfl := Option.some.inj h
            exact hid ▸ .created
          next => cases h
      next => cases h
    · intro h
      cases h with
      | created => rw [if_pos rfl, Option.bind_some, hentries]; rfl
      | committed => rw [if_pos rfl, Option.bind_some, hentries]; rfl
      | written hc | marked hc => cases hc
  refine ⟨rfl, fun id d hd ↦ ?_, fun id name r v _ ↦ hvalue id name r v, fun v hv ↦ ?_⟩
  · obtain ⟨e, he, hid, hpath, -⟩ := hget id
    rw [he] at hd
    split at hd
    next hroot =>
      obtain rfl := Option.some.inj hd
      exact ⟨hid.trans hroot.symm, by rw [hpath, hroot]⟩
    next => cases hd
  · obtain ⟨k, hk⟩ := hv
    exact absurd rfl ((hvalue ..).1 hk).name_ne

namespace Reflects

variable {s : Store}

theorem apply (hs : Reflects ws [] s) (h : IsHistory (ws ++ [c])) :
    ∃ t, c.apply s = (.ok (), t) ∧ Reflects (ws ++ [c]) [] t := by
  refine ⟨_, c.apply_of_available hs.available, hs.available, c.wellFormed_written hs.wellFormed,
    fun id name r v hname ↦ ?_, fun v hv ↦ ?_⟩
  · rw [valueAt?_written, stands_concat, hs.entries id name r v hname]
    refine or_congr_right (and_iff_right_of_imp fun hstands _ w hw ↦ ?_)
    exact hstands.revision_ne h hw.1
  · obtain ⟨k, hk⟩ := hv
    rcases (c.valueAt?_written ..).1 hk with ⟨hid, -⟩ | ⟨-, hold⟩
    · exact absurd hid.symm c.documentId_ne_root
    · exact hs.checkpoints v ⟨k, hold⟩

theorem applyAll {done rest : List WriteCall} (hs : Reflects done [] s) (h : IsHistory (done ++ rest)) :
    ∃ t, applyAll rest s = (.ok (), t) ∧ Reflects (done ++ rest) [] t := by
  induction rest generalizing done s with
  | nil => exact ⟨s, rfl, by rwa [List.append_nil]⟩
  | cons c rest ih =>
    rw [← List.singleton_append, ← List.append_assoc] at h ⊢
    obtain ⟨t, hrun, ht⟩ := hs.apply (h.sublist (List.sublist_append_left _ _))
    obtain ⟨u, hrest, hu⟩ := ih ht h
    refine ⟨u, ?_, hu⟩
    rw [List.singleton_append, WriteCall.applyAll, hrun]
    exact hrest

end Reflects

/-- Every history of writes succeeds, and each write is there afterwards. -/
theorem applyAll_initialStore (h : IsHistory ws) :
    ∃ s, applyAll ws Recovery.initialStore = (.ok (), s) ∧ Reflects ws [] s :=
  reflects_initialStore.applyAll h

end WriteCall

end NodeStore
