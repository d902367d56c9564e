import NodeStore.Proofs.Checkpoints
import NodeStore.Proofs.Safety

namespace NodeStore

namespace Store

/-- No document has both a commit root and a commit record of one revision of the member `c`. -/
def MarksOnce (s : Store) (c : UInt32) : Prop :=
  ∀ id d r, s.documents.get? id = some d → r.clusterId = c → (d.valueAt? Property.commitRoot r).isSome →
    d.valueAt? Property.revisions r = none

theorem marksOnce_iff (s : Store) (c : UInt32) : s.MarksOnce c ↔
    ∀ e ∈ s.documents.entries, ∀ r ∈ ((e.2.map? Property.commitRoot).map (·.keys)).getD [],
      r.clusterId = c → e.2.valueAt? Property.revisions r = none := by
  simp only [Document.mem_keys_map?_iff]
  constructor
  · exact fun h e he r hr hc ↦ h e.1 e.2 r (SortedMap.mem_entries_iff.1 he) hc hr
  · exact fun h id d r hd hc hr ↦ h (id, d) (SortedMap.mem_entries_iff.2 hd) r hr hc

instance (s : Store) (c : UInt32) : Decidable (s.MarksOnce c) := decidable_of_iff _ (s.marksOnce_iff c).symm

end Store

namespace Sweep

variable {sw : Sweep} {head : Revision} {s : Store} {id : String} {d : Document}

theorem IsLeftover.recordAt? (hs : s.WellFormed) (hd : s.documents.get? id = some d) {r : Revision}
    (h : sw.IsLeftover head d (s.commitOf d) r) (hrecords : d.valueAt? Property.revisions r = none) {root : Path}
    (hroot : (d.valueAt? Property.commitRoot r).bind d.path.ancestorAtText? = some root) :
    s.recordAt? root r = none := by
  have hnone := h.2.1
  simp only [Store.commitOf, hrecords, hroot] at hnone
  split at hnone
  next hself =>
    -- the named commit root is the document itself, which has no record of the revision
    rw [hself, Store.recordAt?, (hs id d hd).2, hd, Option.bind_some, Document.committedValue?, hrecords,
      Option.filter_none]
  next => exact hnone

/-- The receiver agrees with the sweep about the commit roots of reverted revisions. -/
theorem refuses_correctionIn (sw : Sweep) (head : Revision) (hs : s.WellFormed) (once : s.MarksOnce sw.clusterId)
    (hd : s.documents.get? id = some d) : s.refuses d.path (sw.correctionIn head s d).update = false := by
  rw [Store.refuses, List.any_eq_false]
  intro hx hnamed
  obtain ⟨r, root⟩ := hx
  obtain ⟨-, hleft, hroot⟩ := mem_namedRoots_correctionOf.1 hnamed
  obtain ⟨depth, hdepth, -⟩ := Option.bind_eq_some_iff.1 hroot
  have hrecords := once id d r hd hleft.1 (by rw [hdepth]; rfl)
  simp [hleft.recordAt? hs hd hrecords hroot]

theorem no_change_settled (accepted : s.refuses d.path (sw.correctionIn head s d).update = false) (k : Key)
    (c : Change) : ¬ sw.TableChange head (sw.settled head s d) (s.commitOf d) k c := by
  rw [settled, accepts, accepted]
  cases hc : (sw.correctionIn head s d).update.hasChanges with
  | true => exact no_change_corrected k c
  | false =>
    exact (sw.update?_correctionOf_eq_none_iff head d _).1 (Correction.update?_eq_none_iff.2 hc) k c

theorem no_change_apply_checkpoint {commit : Revision → Option String}
    (hf : sw.filter Property.sweepRevision = false) (h : ∀ k c, ¬ sw.TableChange head d commit k c)
    (x : Revision) : ∀ k c, ¬ sw.TableChange head (d.apply (.checkpoint x)) commit k c := by
  have hmarked (r : Revision) : isMarked (d.apply (.checkpoint x)) r = isMarked d r := by
    rw [isMarked, Document.valueAt?_apply_checkpoint_of_ne d x (by decide), isMarked]
  rw [no_change_iff] at h ⊢
  intro name r hvisit
  have hne := hvisit.name_ne hf
  obtain ⟨hname, hv, hown⟩ := hvisit
  rw [Document.valueAt?_apply_checkpoint_of_ne d x hne] at hv
  have hold := h name r ⟨hname, hv, hown⟩
  rwa [IsLeftover, IsUnmarkedMerge, hmarked]

end Sweep

namespace Member

variable {m : Member} {config : SweepConfig} {s t : Store} {head : Revision} {checkpoint : RevisionVector}
  {outcome : MemberOutcome} {id : String} {d e : Document}

theorem isCandidate_iff : m.isCandidate checkpoint d = true ↔
    ∃ name r, name ≠ Property.sweepRevision ∧ (d.valueAt? name r).isSome ∧ r.clusterId = m.clusterId ∧
      checkpoint.isBehind r = true := by
  simp only [isCandidate, List.any_eq_true, Document.mem_revisionsBy]
  constructor
  · intro hx
    obtain ⟨r, ⟨hown, name, hname, hv⟩, hr⟩ := hx
    exact ⟨name, r, hname, hv, hown, hr⟩
  · intro hx
    obtain ⟨name, r, hname, hv, hown, hr⟩ := hx
    exact ⟨r, ⟨hown, name, hname, hv⟩, hr⟩

namespace Sweeps

theorem not_refused (h : m.Sweeps config s head checkpoint outcome t) (hs : s.WellFormed)
    (once : s.MarksOnce m.clusterId) : outcome.tally.rejected = 0 := by
  rw [h.tally]
  refine List.countP_eq_zero.2 fun d hd ↦ ?_
  have hrefuses := (m.toSweep config).refuses_correctionIn head hs once ((mem_candidates hs).1 hd).1
  simp [Sweep.isRefused, hrefuses]

theorem no_change_after (h : m.Sweeps config s head checkpoint outcome t) (hs : s.WellFormed)
    (once : s.MarksOnce m.clusterId) (hd : s.documents.get? id = some d)
    (hcandidate : m.isCandidate checkpoint d = true) (he : t.documents.get? id = some e) (k : Key) (c : Change) :
    ¬ (m.toSweep config).TableChange head e (t.commitOf e) k c := by
  have hswept : m.swept config s head checkpoint d = (m.toSweep config).settled head s d :=
    if_pos ((mem_candidates hs).2 ⟨hs.stored hd, hcandidate⟩)
  have hcommits : t.commitOf e = s.commitOf d := funext fun r ↦ h.commitOf_stored hd he r
  have hsettled := Sweep.no_change_settled ((m.toSweep config).refuses_correctionIn head hs once hd)
  rw [h.get?_stored hd, hswept] at he
  obtain rfl := Option.some.inj he
  rw [hcommits]
  split
  · exact Sweep.no_change_apply_checkpoint rfl hsettled head k c
  · exact hsettled k c

theorem valueAt?_after (h : m.Sweeps config s head checkpoint outcome t) (hs : s.WellFormed)
    (once : s.MarksOnce m.clusterId) (hd : s.documents.get? id = some d)
    (reached : (∃ k c, (m.toSweep config).TableChange head d (s.commitOf d) k c) →
      m.isCandidate checkpoint d = true)
    {name : String} (hname : name ≠ Property.sweepRevision) (r : Revision) :
    t.valueAt? id name r = ((m.toSweep config).corrected head d (s.commitOf d)).valueAt? name r := by
  rw [h.valueAt?_eq_swept id hname, hd, Option.bind_some, swept]
  split
  next hmem =>
    have hrefuses := (m.toSweep config).refuses_correctionIn head hs once hd
    exact Sweep.valueAt?_settled (by rw [Sweep.isRefused, hrefuses, Bool.and_false]) name r
  next hmem =>
    have hnone : ∀ c, ¬ (m.toSweep config).TableChange head d (s.commitOf d) (.entry name r) c := fun c hc ↦
      hmem ((mem_candidates hs).2 ⟨hs.stored hd, reached ⟨_, c, hc⟩⟩)
    exact (Sweep.valueAt?_apply_of_no_change d hnone).symm

theorem candidate_before (h : m.Sweeps config s head checkpoint outcome t) {next : RevisionVector}
    (hnext : ∀ r, r.clusterId = m.clusterId → next.isBehind r = true → checkpoint.isBehind r = true)
    (he : t.documents.get? id = some e) (hcandidate : m.isCandidate next e = true) :
    ∃ d, s.documents.get? id = some d ∧ m.isCandidate checkpoint d = true := by
  obtain ⟨name, r, hname, hv, hown, hbehind⟩ := isCandidate_iff.1 hcandidate
  obtain ⟨v, hv⟩ := Option.isSome_iff_exists.1 hv
  have hfate := h.fate id name r
  rw [Store.valueAt?_of_stored he, hv] at hfate
  generalize hafter : some v = after at hfate
  cases hfate with
  | kept hkept =>
    obtain ⟨d, hd, hold⟩ := Option.bind_eq_some_iff.1 (hkept.trans hafter.symm)
    exact ⟨d, hd, isCandidate_iff.2 ⟨name, r, hname, by rw [hold]; rfl, hown, hnext r hown hbehind⟩⟩
  | reverted => cases hafter
  | @marked d name' hd _ _ hvisit =>
    have hname' : name' ≠ Property.sweepRevision := hvisit.name_ne rfl
    exact ⟨d, hd, isCandidate_iff.2 ⟨name', r, hname', hvisit.2.1, hown, hnext r hown hbehind⟩⟩
  | raised _ hsweep => exact absurd hsweep hname

theorem idle (h : m.Sweeps config s head checkpoint outcome t)
    (idle : ∀ d ∈ m.candidates s checkpoint,
      ((m.toSweep config).correctionIn head s d).update.hasChanges = false) :
    t = s.withCheckpoint head ∧ outcome.counts.updated = 0 ∧ outcome.tally = .zero := by
  have haccepts := fun d hd ↦ Sweep.accepts_of_idle (idle d hd)
  have hrefused := fun d hd ↦ Sweep.isRefused_of_idle (idle d hd)
  obtain ⟨mid, hmid, rfl⟩ := h.settles
  refine ⟨by rw [hmid.idle haccepts], by rw [h.updated, Sweep.batchOf_eq_nil idle]; rfl, ?_⟩
  rw [h.tally, List.countP_eq_zero.2 (by simpa using haccepts), List.countP_eq_zero.2 (by simpa using hrefused)]
  rfl

end Sweeps

structure CompleteSweep (m : Member) (config : SweepConfig) (head : Revision) (s : Store)
    (outcome : MemberOutcome) (t : Store) : Prop where
  rejected : outcome.tally.rejected = 0
  /-- A document with an own revision newer than the old checkpoint needs no correction any more. -/
  corrected : ∃ checkpoint, s.checkpoints = .ok checkpoint ∧
    ∀ id d name r, s.documents.get? id = some d → name ≠ Property.sweepRevision →
      (d.valueAt? name r).isSome → r.clusterId = m.clusterId →
      (∀ old, checkpoint.revision? m.clusterId = some old → r.isAfter old = true) →
      ∃ e, t.documents.get? id = some e ∧
        let again := ((m.toSweep config).correct (Surroundings.ofStore.lookup ⟨t, .zero⟩) head e.view).value
        again.1.update? = none ∧ again.2 = none
  /-- The same sweep once more only counts as an update of the root document. -/
  repeated : ∀ clock, ∃ again root, t.documents.get? Path.root.id = some root ∧
    (m.sweep config clock t).value =
      (.ok again, t.put Path.root.id { root with modCount := root.modCount + 1 }) ∧
    again.counts.updated = 0 ∧ again.tally.applied = 0 ∧ again.tally.rejected = 0

theorem Sweeps.complete (h : m.Sweeps config s head checkpoint outcome t) (hs : s.WellFormed)
    (once : s.MarksOnce m.clusterId) : m.CompleteSweep config head s outcome t where
  rejected := h.not_refused hs once
  corrected := by
    refine ⟨checkpoint, h.since, fun id d name r hd hname hv hown hnew ↦ ?_⟩
    have hbehind : checkpoint.isBehind r = true := by
      rw [RevisionVector.isBehind, hown]
      split
      next old hold => exact hnew old hold
      next => rfl
    obtain ⟨e, he⟩ : ∃ e, t.documents.get? id = some e := ⟨_, h.get?_stored hd⟩
    have hnone := h.no_change_after hs once hd (isCandidate_iff.2 ⟨name, r, hname, hv, hown, hbehind⟩) he
    have hvalue : ((m.toSweep config).correct (Surroundings.ofStore.lookup ⟨t, .zero⟩) head e.view).value =
        ((m.toSweep config).correctionOf head e (t.commitOf e), none) :=
      (m.toSweep config).correct_value head e (t.commitOf e)
        fun r ↦ Store.commitValue_eq_ok h.available_after e r
    refine ⟨e, he, ?_⟩
    rw [hvalue]
    exact ⟨((m.toSweep config).update?_correctionOf_eq_none_iff head e _).2 hnone, rfl⟩
  repeated clock := by
    obtain ⟨next, hnext, hmonotone⟩ := h.checkpoints_after
    obtain ⟨again, u, hrun, hu⟩ :=
      sweep_value (h.wellFormed hs) h.valid h.fits h.available_after h.component hnext clock
    have hidle : ∀ e ∈ m.candidates t next,
        ((m.toSweep config).correctionIn head t e).update.hasChanges = false := by
      intro e hmem
      obtain ⟨he, hcandidate⟩ := (mem_candidates (h.wellFormed hs)).1 hmem
      obtain ⟨d, hd, hbefore⟩ := h.candidate_before hmonotone he hcandidate
      exact Correction.update?_eq_none_iff.1 (((m.toSweep config).update?_correctionOf_eq_none_iff head e _).2
        (h.no_change_after hs once hd hbefore he))
    obtain ⟨rfl, hupdated, htally⟩ := hu.idle hidle
    obtain ⟨root, hroot, hput⟩ := h.withCheckpoint_again
    refine ⟨again, root, hroot, by rw [hrun, hput], hupdated, ?_⟩
    rw [htally]
    exact ⟨rfl, rfl⟩

/-- A sweep that succeeds is complete, if the head has a component for its member and no revision of the member
is marked twice on one document. -/
theorem sweep_complete (hs : s.WellFormed) (once : s.MarksOnce m.clusterId)
    (hh : m.head.revision? m.clusterId = some head) {clock : Nat → Nat}
    (hrun : (m.sweep config clock s).value = (.ok outcome, t)) : m.CompleteSweep config head s outcome t := by
  rcases sweep_cases hs m config clock with ⟨_, h⟩ | ⟨hnone, -⟩ | ⟨head', checkpoint, outcome', t', h, hsweeps⟩
  · cases h.symm.trans hrun
  · cases hnone.symm.trans hh
  · obtain ⟨heq, rfl⟩ := Prod.mk.inj (h.symm.trans hrun)
    obtain rfl := Except.ok.inj heq
    obtain rfl := Option.some.inj (hsweeps.component.symm.trans hh)
    exact hsweeps.complete hs once

theorem sweep_complete_halfCommitted :
    halfCommitted.WellFormed ∧ halfCommitted.MarksOnce 1 ∧
      firstMember.head.revision? 1 = some (.onTrunk 200 0 1) ∧
      (firstMember.sweep .standard (fun _ ↦ 0) halfCommitted).value.1 =
        .ok ⟨some (.onTrunk 200 0 1), ⟨2, 1, 2, 0, 1⟩, ⟨1, 0⟩⟩ ∧
      firstMember.CompleteSweep .standard (.onTrunk 200 0 1) halfCommitted
        ⟨some (.onTrunk 200 0 1), ⟨2, 1, 2, 0, 1⟩, ⟨1, 0⟩⟩
        (firstMember.sweep .standard (fun _ ↦ 0) halfCommitted).value.2 := by
  have hrun : (firstMember.sweep .standard (fun _ ↦ 0) halfCommitted).value.1 =
      .ok ⟨some (.onTrunk 200 0 1), ⟨2, 1, 2, 0, 1⟩, ⟨1, 0⟩⟩ := by decide +kernel
  exact ⟨by decide, by decide, rfl, hrun, sweep_complete (by decide) (by decide) rfl (Prod.ext hrun rfl)⟩

end Member

end NodeStore
