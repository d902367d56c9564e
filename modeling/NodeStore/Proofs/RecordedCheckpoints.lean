import NodeStore.Proofs.Checkpoints

namespace NodeStore

namespace RevisionVector

theorem ext_revision? {v w : RevisionVector} (h : ∀ c, v.revision? c = w.revision? c) : v = w := by
  cases v
  cases w
  exact (RevisionVector.mk.injEq ..).mpr (SortedMap.ext_get? h)

theorem revision?_observe (v : RevisionVector) (x : Revision) (c : UInt32) : (v.observe x).revision? c =
    if c = x.clusterId ∧ v.isBehind x = true then some x else v.revision? c := by
  rw [observe]
  split
  next hbehind => simp only [revision?, update, SortedMap.get?_insert, hbehind, and_true]
  next hbehind => simp [hbehind]

theorem revision?_foldl_observe {v : RevisionVector} {xs : List Revision} {c : UInt32} {x : Revision}
    (h : (xs.foldl observe v).revision? c = some x) : x ∈ xs ∨ v.revision? c = some x := by
  induction xs generalizing v with
  | nil => exact .inr h
  | cons y xs ih =>
    rcases ih h with hmem | hold
    · exact .inl (List.mem_cons_of_mem _ hmem)
    · rw [revision?_observe] at hold
      split at hold
      · obtain rfl := Option.some.inj hold
        exact .inl List.mem_cons_self
      · exact .inr hold

theorem revision?_foldl_observe_of_ne {v : RevisionVector} {xs : List Revision} {c : UInt32}
    (h : ∀ x ∈ xs, x.clusterId ≠ c) : (xs.foldl observe v).revision? c = v.revision? c := by
  induction xs generalizing v with
  | nil => rfl
  | cons x xs ih =>
    have hne : ¬(c = x.clusterId ∧ v.isBehind x = true) := fun hx ↦ h x List.mem_cons_self hx.1.symm
    rw [List.foldl_cons, ih fun y hy ↦ h y (List.mem_cons_of_mem _ hy), revision?_observe, if_neg hne]

theorem exists_revision?_of_not_behind {v : RevisionVector} {r : Revision} (h : v.isBehind r = false) :
    ∃ x, v.revision? r.clusterId = some x ∧ r.isAfter x = false := by
  rw [isBehind] at h
  cases hv : v.revision? r.clusterId with
  | none => simp [hv] at h
  | some x => exact ⟨x, rfl, by simpa [hv] using h⟩

theorem revision?_foldl_observe_of_some {v : RevisionVector} (xs : List Revision) {c : UInt32} {old : Revision}
    (h : v.revision? c = some old) :
    ∃ new, (xs.foldl observe v).revision? c = some new ∧ old.isAfter new = false := by
  obtain rfl := v.keyed c old h
  have hself : v.isBehind old = false := by
    rw [isBehind, h]
    exact old.isAfter_self
  refine exists_revision?_of_not_behind ?_
  rw [Bool.eq_false_iff, Ne, isBehind_foldl_observe, hself]
  exact fun hbehind ↦ by cases hbehind.1

theorem ofRevisions_eq {v : RevisionVector} {rs : List Revision}
    (h : ∀ x, x ∈ rs ↔ v.revision? x.clusterId = some x) : ofRevisions rs = v := by
  have hof {c : UInt32} {y : Revision} (hy : (ofRevisions rs).revision? c = some y) : v.revision? c = some y := by
    have hmember := (ofRevisions rs).keyed c y hy
    rcases revision?_foldl_observe hy with hmem | hnone
    · rw [← hmember]
      exact (h y).1 hmem
    · cases hnone
  refine ext_revision? fun c ↦ ?_
  cases hv : v.revision? c with
  | none =>
    rw [Option.eq_none_iff_forall_ne_some]
    intro y hy
    cases hv.symm.trans (hof hy)
  | some x =>
    obtain rfl := v.keyed c x hv
    have hnot : (ofRevisions rs).isBehind x = false := by
      rw [Bool.eq_false_iff, Ne, isBehind_ofRevisions]
      intro hall
      have hself := hall x ((h x).2 hv) rfl
      rw [Revision.isAfter_self] at hself
      cases hself
    obtain ⟨y, hy, -⟩ := exists_revision?_of_not_behind hnot
    rw [hy, ← hof hy, hv]

end RevisionVector

namespace Store

variable {s t : Store}

def checkpointAt? (s : Store) (k : Revision) : Option String := s.valueAt? Path.root.id Property.sweepRevision k

/-- The checkpoints of the store are the components of `v`. -/
structure Records (s : Store) (v : RevisionVector) : Prop where
  components : ∀ c, s.checkpointAt? (.onTrunk 0 0 c) = (v.revision? c).map Revision.text
  others : ∀ k, k ≠ .onTrunk 0 0 k.clusterId → s.checkpointAt? k = none

namespace Records

variable {v : RevisionVector}

theorem start (h : ∀ d, s.documents.get? Path.root.id = some d → d.map? Property.sweepRevision = none) :
    s.Records .empty := by
  have hnone (k : Revision) : s.checkpointAt? k = none := by
    rw [checkpointAt?, valueAt?]
    cases hd : s.documents.get? Path.root.id with
    | none => rfl
    | some d => rw [Option.bind_some, Document.valueAt?, h d hd, Option.bind_none]
  exact ⟨fun c ↦ hnone _, fun k _ ↦ hnone k⟩

theorem congr (hs : s.Records v) (h : ∀ k, t.checkpointAt? k = s.checkpointAt? k) : t.Records v where
  components c := (h _).trans (hs.components c)
  others k hk := (h k).trans (hs.others k hk)

theorem advance {x : Revision} (hs : s.Records v) (h : s.Advances x t) : t.Records (v.observe x) := by
  have hafter (k : Revision) : t.checkpointAt? k = if k = .onTrunk 0 0 x.clusterId
      then (Change.raiseEntry x).effect (s.checkpointAt? k) else s.checkpointAt? k := h.checkpoints k
  constructor
  · intro c
    rw [hafter, hs.components, RevisionVector.revision?_observe]
    by_cases hc : c = x.clusterId
    · rw [hc, if_pos rfl]
      cases hv : v.revision? x.clusterId with
      | none => simp [Change.effect, RevisionVector.isBehind, hv]
      | some y =>
        have hbehind : v.isBehind x = x.isAfter y := by rw [RevisionVector.isBehind, hv]
        simp only [Change.effect, Option.map_some, Option.bind_some, Revision.parse?_text, true_and, hbehind]
        split <;> rfl
    · rw [if_neg fun hk ↦ hc (congrArg Revision.clusterId hk), if_neg fun hx ↦ hc hx.1]
  · intro k hk
    have hne : k ≠ .onTrunk 0 0 x.clusterId := fun hx ↦ hk (by rw [hx]; rfl)
    rw [hafter, if_neg hne, hs.others k hk]

theorem hasCheckpoint_iff (hs : s.Records v) (text : String) :
    s.HasCheckpoint text ↔ ∃ x, v.revision? x.clusterId = some x ∧ x.text = text := by
  constructor
  · intro hx
    obtain ⟨k, hk⟩ := hx
    by_cases hself : k = .onTrunk 0 0 k.clusterId
    · have hvalue := hs.components k.clusterId
      rw [← hself, checkpointAt?, hk] at hvalue
      obtain ⟨x, hx, htext⟩ := Option.map_eq_some_iff.1 hvalue.symm
      exact ⟨x, by rwa [v.keyed _ x hx], htext⟩
    · cases hk.symm.trans (hs.others k hself)
  · intro hx
    obtain ⟨x, hx, rfl⟩ := hx
    exact ⟨_, (hs.components x.clusterId).trans (by rw [hx]; rfl)⟩

theorem checkpoints (hs : s.Records v) (ha : s.available = true) :
    s.checkpoints = .ok v := by
  have hparse (text : String) (h : s.HasCheckpoint text) : ∃ x, Revision.parse text = .ok x := by
    obtain ⟨x, -, rfl⟩ := (hs.hasCheckpoint_iff text).1 h
    exact ⟨x, Revision.parse_text x⟩
  obtain ⟨w, hw⟩ := exists_checkpoints ha hparse
  obtain ⟨rs, rfl, -, hmem⟩ := exists_revisions_of_checkpoints ha hw
  rw [hw]
  congr 1
  refine RevisionVector.ofRevisions_eq fun x ↦ ?_
  rw [hmem]
  constructor
  · intro hx
    obtain ⟨text, hvalue, htext⟩ := hx
    obtain ⟨y, hy, rfl⟩ := (hs.hasCheckpoint_iff text).1 hvalue
    obtain rfl := Except.ok.inj ((Revision.parse_text y).symm.trans htext)
    exact hy
  · intro hx
    exact ⟨x.text, (hs.hasCheckpoint_iff _).2 ⟨x, hx, rfl⟩, Revision.parse_text x⟩

end Records

end Store

end NodeStore
