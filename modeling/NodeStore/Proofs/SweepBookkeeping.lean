import NodeStore.Proofs.BatchSize
import NodeStore.Proofs.PointwiseUpdates

namespace NodeStore

theorem Store.encard_ids {s : Store} {ds : List Document} (stored : ∀ d ∈ ds, s.documents.get? d.id = some d)
    (once : ds.Nodup) : {id | ∃ d ∈ ds, d.id = id}.encard = ds.length := by
  have hnodup : (ds.map Document.id).Nodup := by
    refine once.map_on fun d hd e he hid ↦ ?_
    have hstored := stored d hd
    rw [hid, stored e he] at hstored
    exact (Option.some.inj hstored).symm
  have hset : {id | ∃ d ∈ ds, d.id = id} = {id | id ∈ ds.map Document.id} := by
    ext id
    exact List.mem_map.symm
  rw [hset, encard_of_nodup hnodup, List.length_map]

namespace Sweep

variable {sw : Sweep} {head : Revision} {s t : Store} {d : Document} {ds : List Document}
  {commit : Revision → Option String}

theorem TableChange.visits_erased (hroots : sw.filter Property.commitRoot = true)
    (hrecords : sw.filter Property.revisions = true) {name : String} {r : Revision}
    (h : sw.TableChange head d commit (.entry name r) .eraseEntry) (hv : (d.valueAt? name r).isSome) :
    sw.Visits d name r ∧ sw.IsLeftover head d commit r := by
  generalize hk : Key.entry name r = k at h
  generalize hc : Change.eraseEntry = c at h
  have hname := congrArg Key.name hk
  have hrevision := congrArg Key.revision hk
  cases h with
  | @entry name' r' hvisit hleft =>
    obtain rfl : r = r' := Option.some.inj hrevision
    obtain rfl : name = name' := hname
    exact ⟨hvisit, hleft⟩
  | @marker _ r' _ hleft =>
    obtain rfl : r = r' := Option.some.inj (hrevision.trans (d.markerKey_revision r'))
    refine ⟨⟨?_, hv, hleft.1⟩, hleft⟩
    rcases d.markerKey_eq r with hmarker | hmarker <;> rw [hmarker] at hname
    · obtain rfl : name = Property.commitRoot := hname
      exact hroots
    · obtain rfl : name = Property.revisions := hname
      exact hrecords
  | mark | flag => cases hc

/-- Several entries of one revision remove its marker together; it is counted once, as the entry that it is. -/
theorem removed_iff (hroots : sw.filter Property.commitRoot = true)
    (hrecords : sw.filter Property.revisions = true) (name : String) (r : Revision) :
    (d.valueAt? name r).isSome ∧ (sw.corrected head d commit).valueAt? name r = none ↔
      sw.Visits d name r ∧ sw.IsLeftover head d commit r := by
  constructor
  · intro hx
    obtain ⟨hv, hnone⟩ := hx
    by_cases hchange : ∃ c, sw.TableChange head d commit (.entry name r) c
    · obtain ⟨c, hc⟩ := hchange
      rcases hc.at_entry with ⟨rfl, -⟩ | ⟨rfl, -⟩
      · exact hc.visits_erased hroots hrecords hv
      · cases (valueAt?_corrected_of_change hc).symm.trans hnone
    · have hkept : (sw.corrected head d commit).valueAt? name r = d.valueAt? name r :=
        valueAt?_apply_of_no_change d fun c hc ↦ hchange ⟨c, hc⟩
      rw [← hkept, hnone] at hv
      cases hv
  · intro hx
    obtain ⟨hvisit, hleft⟩ := hx
    exact ⟨hvisit.2.1, valueAt?_corrected_of_change (.entry hvisit hleft)⟩

theorem marked_iff (r : Revision) :
    d.valueAt? Property.branchCommits r = none ∧
        ((sw.corrected head d commit).valueAt? Property.branchCommits r).isSome ↔
      (∃ name, sw.Visits d name r) ∧ IsUnmarkedMerge d commit r := by
  constructor
  · intro hx
    obtain ⟨hnone, hv⟩ := hx
    rcases sw.valueAt?_corrected_cases head d commit Property.branchCommits r
      with h | ⟨h, -⟩ | ⟨-, -, hmerge, hvisit⟩
    · rw [h, hnone] at hv
      cases hv
    · rw [h] at hv
      cases hv
    · exact ⟨hvisit, hmerge⟩
  · intro hx
    obtain ⟨⟨name, hvisit⟩, hmerge⟩ := hx
    have hchange : sw.TableChange head d commit (.entry Property.branchCommits r) (.insertEntry "true") :=
      .mark hvisit hmerge
    exact ⟨by simpa [isMarked] using hmerge.1, by rw [valueAt?_corrected_of_change hchange]; rfl⟩

theorem countP_accepts_add_isRefused (sw : Sweep) (head : Revision) (s : Store) (ds : List Document) :
    ds.countP (sw.accepts head s) + ds.countP (sw.isRefused head s) = (sw.batchOf head s ds).length := by
  have hsplit := List.countP_eq_countP_filter_add ds (fun d ↦ (sw.correctionIn head s d).update.hasChanges)
    fun d ↦ !s.refuses d.path (sw.correctionIn head s d).update
  rw [length_batchOf, hsplit, List.countP_filter, List.countP_filter]
  simp only [Bool.not_not]
  rfl

namespace Settles

section

variable (h : sw.Settles head s ds t) (stored : ∀ d ∈ ds, s.documents.get? d.id = some d)

include h stored

theorem modCount_of_accepts (hd : d ∈ ds) (haccepts : sw.accepts head s d = true) : ∃ e,
    t.documents.get? d.id = some e ∧ e.modCount = d.modCount + 1 := by
  refine ⟨sw.settled head s d, ?_, ?_⟩
  · rw [h.documents, stored d hd, Option.map_some, if_pos hd]
  · rw [settled, if_pos haccepts, corrected, Document.modCount_apply]

theorem changed_iff (hs : s.WellFormed) (id : String) :
    t.documents.get? id ≠ s.documents.get? id ↔ ∃ d ∈ ds, sw.accepts head s d = true ∧ d.id = id := by
  constructor
  · intro hne
    rw [h.documents] at hne
    cases hd : s.documents.get? id with
    | none => simp [hd] at hne
    | some d =>
      by_cases hmem : d ∈ ds
      · refine ⟨d, hmem, ?_, (hs id d hd).1⟩
        by_contra haccepts
        simp [hd, hmem, settled, haccepts] at hne
      · simp [hd, hmem] at hne
  · intro hx
    obtain ⟨d, hd, haccepts, rfl⟩ := hx
    obtain ⟨e, he, hcount⟩ := h.modCount_of_accepts stored hd haccepts
    intro heq
    rw [he, stored d hd] at heq
    simp [Option.some.inj heq] at hcount

theorem modCount_of_changed (hs : s.WellFormed) {id : String}
    (hne : t.documents.get? id ≠ s.documents.get? id) : ∃ d e, s.documents.get? id = some d ∧
      t.documents.get? id = some e ∧ e.modCount = d.modCount + 1 := by
  obtain ⟨d, hd, haccepts, rfl⟩ := (h.changed_iff stored hs id).1 hne
  obtain ⟨e, he, hcount⟩ := h.modCount_of_accepts stored hd haccepts
  exact ⟨d, e, stored d hd, he, hcount⟩

theorem encard_changed (hs : s.WellFormed) (once : ds.Nodup) :
    {id | t.documents.get? id ≠ s.documents.get? id}.encard = (ds.countP (sw.accepts head s) : Nat) := by
  have hset : {id | t.documents.get? id ≠ s.documents.get? id} =
      {id | ∃ d ∈ ds.filter (sw.accepts head s), d.id = id} := by
    ext id
    simp only [Set.mem_ofPred_eq, h.changed_iff stored hs, List.mem_filter, and_assoc]
  rw [hset, Store.encard_ids (fun d hd ↦ stored d (List.mem_filter.1 hd).1) (once.filter _),
    List.countP_eq_length_filter]

end

end Settles

end Sweep

namespace Member

variable {m : Member} {config : SweepConfig} {s t : Store} {head : Revision} {checkpoint : RevisionVector}
  {outcome : MemberOutcome}

theorem encard_candidates_ids (hs : s.WellFormed) (m : Member) (checkpoint : RevisionVector) :
    {id | ∃ d name r, s.documents.get? id = some d ∧ name ≠ Property.sweepRevision ∧
      (d.valueAt? name r).isSome ∧ r.clusterId = m.clusterId ∧ checkpoint.isBehind r = true}.encard =
        (m.candidates s checkpoint).length := by
  rw [← Store.encard_ids (fun d hd ↦ ((mem_candidates hs).1 hd).1) (candidates_nodup hs checkpoint)]
  congr 1
  ext id
  simp only [Set.mem_ofPred_eq, mem_candidates hs, isCandidate_iff]
  constructor
  · intro hx
    obtain ⟨d, name, r, hd, hold⟩ := hx
    exact ⟨d, ⟨hs.stored hd, name, r, hold⟩, (hs id d hd).1⟩
  · intro hx
    obtain ⟨d, ⟨hd, name, r, hold⟩, rfl⟩ := hx
    exact ⟨d, name, r, hd, hold⟩

namespace Sweeps

variable (h : m.Sweeps config s head checkpoint outcome t)

include h

theorem checkpoint_isSome (id : String) (r : Revision) (hv : (s.valueAt? id Property.sweepRevision r).isSome) :
    (t.valueAt? id Property.sweepRevision r).isSome := by
  obtain ⟨d, hd⟩ := Option.isSome_iff_exists.1 (Option.isSome_of_isSome_bind hv)
  rw [Store.valueAt?_of_stored hd] at hv
  rw [Store.valueAt?, h.get?_stored hd, Option.bind_some]
  split
  · rw [Document.valueAt?_apply_checkpoint]
    split
    · obtain ⟨w, _, hw, -⟩ := Change.effect_raiseEntry head
        ((m.swept config s head checkpoint d).valueAt? Property.sweepRevision r)
      rw [hw]
      rfl
    · rwa [valueAt?_swept_sweepRevision]
  · rwa [valueAt?_swept_sweepRevision]

variable (hs : s.WellFormed) (hzero : outcome.tally.rejected = 0)

include hs hzero

theorem valueAt?_of_none_rejected (id : String) {name : String} (hname : name ≠ Property.sweepRevision)
    (r : Revision) : t.valueAt? id name r = (s.documents.get? id).bind fun d ↦
      if m.isCandidate checkpoint d then ((m.toSweep config).corrected head d (s.commitOf d)).valueAt? name r
      else d.valueAt? name r := by
  rw [h.valueAt?_eq_swept id hname]
  refine Option.bind_congr fun d hd ↦ ?_
  have hmem : d ∈ m.candidates s checkpoint ↔ m.isCandidate checkpoint d = true := by
    rw [mem_candidates hs, and_iff_right (hs.stored hd)]
  rw [swept]
  simp only [hmem]
  split
  next hcandidate =>
    rw [h.tally] at hzero
    have hrefused := List.countP_eq_zero.1 hzero d (hmem.2 hcandidate)
    exact Sweep.valueAt?_settled (Bool.not_eq_true _ ▸ hrefused) name r
  next => rfl

theorem removed_iff (id name : String) (r : Revision) :
    (s.valueAt? id name r).isSome ∧ t.valueAt? id name r = none ↔ ∃ d, s.documents.get? id = some d ∧
      m.isCandidate checkpoint d = true ∧ (m.toSweep config).Visits d name r ∧
        (m.toSweep config).IsLeftover head d (s.commitOf d) r := by
  constructor
  · intro hx
    obtain ⟨hv, hnone⟩ := hx
    have hname : name ≠ Property.sweepRevision := by
      rintro rfl
      have hkept := h.checkpoint_isSome id r hv
      rw [hnone] at hkept
      cases hkept
    obtain ⟨d, hd⟩ := Option.isSome_iff_exists.1 (Option.isSome_of_isSome_bind hv)
    rw [Store.valueAt?_of_stored hd] at hv
    rw [h.valueAt?_of_none_rejected hs hzero id hname, hd, Option.bind_some] at hnone
    split at hnone
    next hcandidate => exact ⟨d, hd, hcandidate, (Sweep.removed_iff rfl rfl name r).1 ⟨hv, hnone⟩⟩
    next =>
      rw [hnone] at hv
      cases hv
  · intro hx
    obtain ⟨d, hd, hcandidate, hleft⟩ := hx
    obtain ⟨hv, hnone⟩ := (Sweep.removed_iff rfl rfl name r).2 hleft
    rw [Store.valueAt?_of_stored hd, h.valueAt?_of_none_rejected hs hzero id (hleft.1.name_ne rfl), hd,
      Option.bind_some, if_pos hcandidate]
    exact ⟨hv, hnone⟩

theorem marked_iff (id : String) (r : Revision) :
    s.valueAt? id Property.branchCommits r = none ∧ (t.valueAt? id Property.branchCommits r).isSome ↔
      ∃ d, s.documents.get? id = some d ∧ m.isCandidate checkpoint d = true ∧
        (∃ name, (m.toSweep config).Visits d name r) ∧ Sweep.IsUnmarkedMerge d (s.commitOf d) r := by
  rw [h.valueAt?_of_none_rejected hs hzero id (by decide)]
  constructor
  · intro hx
    obtain ⟨hnone, hv⟩ := hx
    obtain ⟨d, hd⟩ := Option.isSome_iff_exists.1 (Option.isSome_of_isSome_bind hv)
    rw [Store.valueAt?_of_stored hd] at hnone
    rw [hd, Option.bind_some] at hv
    split at hv
    next hcandidate => exact ⟨d, hd, hcandidate, (Sweep.marked_iff r).1 ⟨hnone, hv⟩⟩
    next =>
      rw [hnone] at hv
      cases hv
  · intro hx
    obtain ⟨d, hd, hcandidate, hmerge⟩ := hx
    rw [Store.valueAt?_of_stored hd, hd, Option.bind_some, if_pos hcandidate]
    exact (Sweep.marked_iff r).2 hmerge

end Sweeps

/-- The report of a sweep of the store `s` to `t`, counted on the stores; `mid` is the store before the checkpoint
is written. -/
structure Bookkeeping (m : Member) (config : SweepConfig) (checkpoint : RevisionVector) (outcome : MemberOutcome)
    (s mid t : Store) : Prop where
  decided : outcome.tally.applied + outcome.tally.rejected = outcome.counts.updated
  scanned : {id | ∃ d name r, s.documents.get? id = some d ∧ name ≠ Property.sweepRevision ∧
    (d.valueAt? name r).isSome ∧ r.clusterId = m.clusterId ∧ checkpoint.isBehind r = true}.encard =
      outcome.counts.scanned
  batches : outcome.counts.batches = (outcome.counts.updated + config.batchSize - 1) / config.batchSize
  applied : {id | mid.documents.get? id ≠ s.documents.get? id}.encard = outcome.tally.applied
  modCount : ∀ id, mid.documents.get? id ≠ s.documents.get? id → ∃ d e, s.documents.get? id = some d ∧
    mid.documents.get? id = some e ∧ e.modCount = d.modCount + 1
  reverted : outcome.tally.rejected = 0 → {e : String × String × Revision |
    (s.valueAt? e.1 e.2.1 e.2.2).isSome ∧ t.valueAt? e.1 e.2.1 e.2.2 = none}.encard = outcome.counts.reverted
  marked : outcome.tally.rejected = 0 → {e : String × Revision |
    s.valueAt? e.1 Property.branchCommits e.2 = none ∧
      (t.valueAt? e.1 Property.branchCommits e.2).isSome}.encard = outcome.counts.marked

theorem Sweeps.bookkeeping (h : m.Sweeps config s head checkpoint outcome t) (hs : s.WellFormed) {mid : Store}
    (hmid : (m.toSweep config).Settles head s (m.candidates s checkpoint) mid) :
    m.Bookkeeping config checkpoint outcome s mid t where
  decided := by rw [h.tally, h.updated, Sweep.countP_accepts_add_isRefused]
  scanned := by rw [h.scanned, encard_candidates_ids hs]
  batches := by
    have hpos : max config.batchSize 1 = config.batchSize := by
      have hvalid := h.valid
      rw [SweepConfig.validate] at hvalid
      split at hvalid
      next => cases hvalid
      next hne => omega
    rw [h.batches, hpos]
  applied := by
    rw [h.tally, hmid.encard_changed (fun d hd ↦ ((mem_candidates hs).1 hd).1) hs (candidates_nodup hs checkpoint)]
  modCount _ hne := hmid.modCount_of_changed (fun d hd ↦ ((mem_candidates hs).1 hd).1) hs hne
  reverted hzero := by
    rw [← h.encard_reverted hs]
    congr 1
    ext e
    exact h.removed_iff hs hzero e.1 e.2.1 e.2.2
  marked hzero := by
    rw [← h.encard_marked hs]
    congr 1
    ext e
    exact h.marked_iff hs hzero e.1 e.2

/-- A successful sweep has counted exactly what it did. -/
theorem sweep_bookkeeping (hs : s.WellFormed) (hh : m.head.revision? m.clusterId = some head) {clock : Nat → Nat}
    (hrun : (m.sweep config clock s).value = (.ok outcome, t)) : ∃ checkpoint mid,
      s.checkpoints = .ok checkpoint ∧
      ((m.toSweep config).run .ofStore clock ((m.candidates s checkpoint).map Document.view)
        ⟨s, .zero⟩).value.world.store = mid ∧
      mid.persistCheckpoint head = (.ok (), t) ∧ m.Bookkeeping config checkpoint outcome s mid t := by
  rcases sweep_cases hs m config clock with ⟨_, h⟩ | ⟨hnone, -⟩ | ⟨head', checkpoint, outcome', t', h, hsweeps⟩
  · cases h.symm.trans hrun
  · cases hnone.symm.trans hh
  · obtain ⟨heq, rfl⟩ := Prod.mk.inj (h.symm.trans hrun)
    obtain rfl := Except.ok.inj heq
    obtain rfl := Option.some.inj (hsweeps.component.symm.trans hh)
    obtain ⟨mid, hmid, rfl⟩ := hsweeps.settles
    obtain ⟨mid', counts, hvalue, hmid', -⟩ := (m.toSweep config).run_value hs hsweeps.available hh hsweeps.fits
      (m.candidates s checkpoint) (fun d hd ↦ ((mem_candidates hs).1 hd).1) (candidates_nodup hs checkpoint) clock
    obtain rfl := hmid.unique hmid'
    refine ⟨checkpoint, mid, hsweeps.since, by rw [hvalue], ?_, hsweeps.bookkeeping hs hmid⟩
    exact Store.persistCheckpoint_of_available (hmid.available.trans hsweeps.available) _

theorem sweep_bookkeeping_nestedWrites :
    nestedWrites.WellFormed ∧ firstMember.head.revision? 1 = some (.onTrunk 200 0 1) ∧
      (firstMember.sweep .standard (fun _ ↦ 0) nestedWrites).value.1 =
        .ok ⟨some (.onTrunk 200 0 1), ⟨3, 3, 5, 0, 1⟩, ⟨3, 0⟩⟩ ∧
      ∃ checkpoint mid, nestedWrites.checkpoints = .ok checkpoint ∧
        ((firstMember.toSweep .standard).run .ofStore (fun _ ↦ 0)
          ((firstMember.candidates nestedWrites checkpoint).map Document.view)
          ⟨nestedWrites, .zero⟩).value.world.store = mid ∧
        mid.persistCheckpoint (.onTrunk 200 0 1) =
          (.ok (), (firstMember.sweep .standard (fun _ ↦ 0) nestedWrites).value.2) ∧
        firstMember.Bookkeeping .standard checkpoint ⟨some (.onTrunk 200 0 1), ⟨3, 3, 5, 0, 1⟩, ⟨3, 0⟩⟩
          nestedWrites mid (firstMember.sweep .standard (fun _ ↦ 0) nestedWrites).value.2 := by
  have hs : nestedWrites.WellFormed := by decide +kernel
  have hrun : (firstMember.sweep .standard (fun _ ↦ 0) nestedWrites).value.1 =
      .ok ⟨some (.onTrunk 200 0 1), ⟨3, 3, 5, 0, 1⟩, ⟨3, 0⟩⟩ := by decide +kernel
  exact ⟨hs, rfl, hrun, sweep_bookkeeping hs rfl (Prod.ext hrun rfl)⟩

end Member

end NodeStore
