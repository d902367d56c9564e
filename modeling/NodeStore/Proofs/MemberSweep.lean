import NodeStore.Proofs.Batches
import NodeStore.Proofs.SweepRun
import NodeStore.Sweep.Member

namespace NodeStore

theorem SweepConfig.validate_of_pos {config : SweepConfig} (h : 0 < config.batchSize) : config.validate = .ok () :=
  if_neg (Nat.ne_of_gt h)

namespace Update

theorem change?_insertEntry (u : Update) (name name' : String) (r r' : Revision) (v : String) :
    (u.insertEntry name r v).change? name' (some r') =
      if name' = name ∧ r' = r then some (.insertEntry v) else u.change? name' (some r') := by
  rw [change?, insertEntry, withChange, SortedMap.get?_insert]
  simp [Key.entry, change?]

theorem change?_checkpoint (x : Revision) (name : String) (r : Revision) :
    (Update.checkpoint x).change? name (some r) =
      if name = Property.sweepRevision ∧ r = .onTrunk 0 0 x.clusterId then some (.raiseEntry x) else none := by
  rw [Update.change?, Update.checkpoint, Update.advanceCheckpoint, Update.raiseEntry, Update.withChange,
    SortedMap.get?_insert]
  simp [Key.entry, Update.start]

theorem changes_checkpoint {x : Revision} {k : Key} {c : Change}
    (h : (Update.checkpoint x).changes.get? k = some c) : c = .raiseEntry x := by
  rw [Update.checkpoint, Update.advanceCheckpoint, Update.raiseEntry, Update.withChange,
    SortedMap.get?_insert] at h
  split at h
  · exact (Option.some.inj h).symm
  · cases h

end Update

namespace Document

theorem valueAt?_apply_checkpoint (d : Document) (x : Revision) (name : String) (r : Revision) :
    (d.apply (.checkpoint x)).valueAt? name r =
      if name = Property.sweepRevision ∧ r = .onTrunk 0 0 x.clusterId
      then (Change.raiseEntry x).effect (d.valueAt? name r) else d.valueAt? name r := by
  rw [valueAt?_apply, Update.change?_checkpoint]
  by_cases h : name = Property.sweepRevision ∧ r = .onTrunk 0 0 x.clusterId
  · simp only [if_pos h]
  · simp only [if_neg h]

theorem valueAt?_apply_checkpoint_of_ne (d : Document) (x : Revision) {name : String}
    (h : name ≠ Property.sweepRevision) (r : Revision) :
    (d.apply (.checkpoint x)).valueAt? name r = d.valueAt? name r := by
  rw [valueAt?_apply_checkpoint, if_neg fun hn ↦ h hn.1]

@[simp]
theorem committedValue?_apply_checkpoint (d : Document) (x r : Revision) :
    (d.apply (.checkpoint x)).committedValue? r = d.committedValue? r := by
  rw [committedValue?, valueAt?_apply_checkpoint_of_ne d x (by decide), committedValue?]

end Document

namespace Store

variable {s t : Store} {head : Revision}

/-- The root document, which is empty as long as nothing is stored there. -/
def rootDocument (s : Store) : Document := (s.documents.get? Path.root.id).getD (.blank .root)

def valueAt? (s : Store) (id name : String) (r : Revision) : Option String :=
  (s.documents.get? id).bind (·.valueAt? name r)

theorem valueAt?_of_stored {id : String} {d : Document} (hd : s.documents.get? id = some d) (name : String)
    (r : Revision) : s.valueAt? id name r = d.valueAt? name r := by
  rw [valueAt?, hd, Option.bind_some]

def withCheckpoint (s : Store) (r : Revision) : Store :=
  s.put Path.root.id (s.rootDocument.apply (.checkpoint r))

theorem persistCheckpoint_of_available (h : s.available = true) (r : Revision) :
    s.persistCheckpoint r = (.ok (), s.withCheckpoint r) := by
  have hid : (Update.checkpoint r).id = Path.root.id := rfl
  have hroot : Document.ofId Path.root.id = .ok (.blank .root) := rfl
  rw [persistCheckpoint, upsert, if_pos h, hid, withCheckpoint, rootDocument]
  cases hd : s.documents.get? Path.root.id with
  | some d => rfl
  | none => rw [hroot]; rfl

theorem get?_withCheckpoint (s : Store) (r : Revision) (id : String) :
    (s.withCheckpoint r).documents.get? id =
      if id = Path.root.id then some (s.rootDocument.apply (.checkpoint r)) else s.documents.get? id := by
  rw [withCheckpoint, put, SortedMap.get?_insert]

theorem recordAt?_withCheckpoint (s : Store) (x : Revision) (p : Path) (r : Revision) :
    (s.withCheckpoint x).recordAt? p r = s.recordAt? p r := by
  rw [recordAt?, get?_withCheckpoint, recordAt?]
  split
  next h =>
    rw [h, rootDocument, Option.bind_some, Document.committedValue?_apply_checkpoint]
    cases s.documents.get? Path.root.id <;> rfl
  next => rfl

theorem WellFormed.stored (hs : s.WellFormed) {id : String} {d : Document} (h : s.documents.get? id = some d) :
    s.documents.get? d.id = some d := by
  rw [(hs id d h).1, h]

theorem WellFormed.ids_eq_keys (hs : s.WellFormed) : s.documents.values.map Document.id = s.documents.keys := by
  rw [SortedMap.values, SortedMap.keys, List.map_map, List.map_inj_left]
  exact fun e he ↦ (hs e.1 e.2 (SortedMap.mem_entries_iff.1 he)).1

theorem WellFormed.values_nodup (hs : s.WellFormed) : s.documents.values.Nodup := by
  have nodup := s.documents.keys_nodup
  rw [← hs.ids_eq_keys, List.nodup_iff_pairwise_ne, List.pairwise_map] at nodup
  exact nodup.imp fun h eq ↦ h (congrArg Document.id eq)

end Store

namespace Member

variable {m : Member} {config : SweepConfig} {s : Store}

def candidates (m : Member) (s : Store) (checkpoint : RevisionVector) : List Document :=
  (s.documents.values.filter fun d ↦ !(d.revisionsBy m.clusterId).isEmpty).filter (m.isCandidate checkpoint)

theorem mem_candidates (hs : s.WellFormed) {checkpoint : RevisionVector} {d : Document} :
    d ∈ m.candidates s checkpoint ↔ s.documents.get? d.id = some d ∧ m.isCandidate checkpoint d = true := by
  rw [candidates, List.mem_filter, List.mem_filter, SortedMap.mem_values_iff]
  constructor
  · intro hx
    obtain ⟨⟨⟨id, h⟩, -⟩, hd⟩ := hx
    exact ⟨hs.stored h, hd⟩
  · intro hx
    obtain ⟨h, hd⟩ := hx
    have hne : (d.revisionsBy m.clusterId).isEmpty = false := by
      rw [isCandidate, List.any_eq_true] at hd
      obtain ⟨r, hr, -⟩ := hd
      exact List.isEmpty_eq_false_iff_exists_mem.2 ⟨r, hr⟩
    exact ⟨⟨⟨d.id, h⟩, by rw [hne]; rfl⟩, hd⟩

theorem candidates_nodup (hs : s.WellFormed) (checkpoint : RevisionVector) :
    (m.candidates s checkpoint).Nodup := (hs.values_nodup.filter _).filter _

structure Sweeps (m : Member) (config : SweepConfig) (s : Store) (head : Revision)
    (checkpoint : RevisionVector) (outcome : MemberOutcome) (t : Store) : Prop where
  valid : config.validate = .ok ()
  fits : config.fits = true
  available : s.available = true
  component : m.head.revision? m.clusterId = some head
  since : s.checkpoints = .ok checkpoint
  sweepRevision : outcome.sweepRevision = some head
  scanned : outcome.counts.scanned = (m.candidates s checkpoint).length
  updated : outcome.counts.updated =
    ((m.toSweep config).batchOf head s (m.candidates s checkpoint)).length
  reverted : outcome.counts.reverted =
    ((m.candidates s checkpoint).map fun d ↦ ((m.toSweep config).correctionIn head s d).reverted).sum
  marked : outcome.counts.marked =
    ((m.candidates s checkpoint).map fun d ↦ ((m.toSweep config).correctionIn head s d).marked).sum
  batches : outcome.counts.batches =
    (outcome.counts.updated + max config.batchSize 1 - 1) / max config.batchSize 1
  tally : outcome.tally =
    ⟨(m.candidates s checkpoint).countP ((m.toSweep config).accepts head s),
      (m.candidates s checkpoint).countP ((m.toSweep config).isRefused head s)⟩
  settles : ∃ mid, (m.toSweep config).Settles head s (m.candidates s checkpoint) mid ∧
    t = mid.withCheckpoint head

def swept (m : Member) (config : SweepConfig) (s : Store) (head : Revision) (checkpoint : RevisionVector)
    (d : Document) : Document :=
  if d ∈ m.candidates s checkpoint then (m.toSweep config).settled head s d else d

/-- What can become of the value at an entry. -/
inductive Fate (m : Member) (config : SweepConfig) (s : Store) (head : Revision) (id name : String)
    (r : Revision) : Option String → Prop
  | kept {v : Option String} : s.valueAt? id name r = v → Fate m config s head id name r v
  | reverted {d : Document} : s.documents.get? id = some d →
      (m.toSweep config).IsLeftover head d (s.commitOf d) r → Fate m config s head id name r none
  | marked {d : Document} {name' : String} : s.documents.get? id = some d → name = Property.branchCommits →
      Sweep.IsUnmarkedMerge d (s.commitOf d) r → (m.toSweep config).Visits d name' r →
      Fate m config s head id name r (some "true")
  | raised {v : Option String} : id = Path.root.id → name = Property.sweepRevision →
      r = .onTrunk 0 0 m.clusterId → s.valueAt? id name r = v →
      Fate m config s head id name r ((Change.raiseEntry head).effect v)

theorem sweep_eq_sweepSince (hv : config.validate = .ok ()) (ha : s.available = true) {checkpoint : RevisionVector}
    (hc : s.checkpoints = .ok checkpoint) (clock : Nat → Nat) : m.sweep config clock s =
      m.sweepSince .ofStore config clock checkpoint
        (s.documents.values.filter fun d ↦ !(d.revisionsBy m.clusterId).isEmpty) s := by
  simp only [sweep, sweepAmid, hv, hc, Store.changedBy, if_pos ha]

theorem sweep_value (hs : s.WellFormed) (hv : config.validate = .ok ()) (hfits : config.fits = true)
    (ha : s.available = true) {head : Revision} (hh : m.head.revision? m.clusterId = some head)
    {checkpoint : RevisionVector} (hc : s.checkpoints = .ok checkpoint) (clock : Nat → Nat) : ∃ outcome t,
      (m.sweep config clock s).value = (.ok outcome, t) ∧ m.Sweeps config s head checkpoint outcome t := by
  obtain ⟨mid, counts, hrun, hmid, hscanned, hupdated, hreverted, hmarked⟩ := (m.toSweep config).run_value hs ha hh
    hfits (m.candidates s checkpoint) (fun d hd ↦ ((mem_candidates hs).1 hd).1) (candidates_nodup hs checkpoint) clock
  have hbatches := (m.toSweep config).batches_of_success .ofStore clock
    ((m.candidates s checkpoint).map Document.view) ⟨s, .zero⟩ (congrArg SweepResult.result hrun)
  rw [hrun] at hbatches
  have hpersist := Store.persistCheckpoint_of_available (hmid.available.trans ha) head
  refine ⟨⟨some head, counts, _⟩, mid.withCheckpoint head, ?_,
    hv, hfits, ha, hh, hc, rfl, hscanned, hupdated, hreverted, hmarked, hbatches, rfl, mid, hmid, rfl⟩
  rw [candidates] at hrun
  simp only [sweep_eq_sweepSince hv ha hc, sweepSince, Logged.value_bind, hrun, hpersist, Logged.value_pure]
  rfl

theorem sweep_of_no_head (hv : config.validate = .ok ()) (ha : s.available = true)
    (hh : m.head.revision? m.clusterId = none) {checkpoint : RevisionVector}
    (hc : s.checkpoints = .ok checkpoint) (clock : Nat → Nat) :
    (m.sweep config clock s).value = (.ok ⟨none, .zero, .zero⟩, s) := by
  have hrun := (m.toSweep config).run_value_of_no_head hh .ofStore clock
    ((m.candidates s checkpoint).map Document.view) ⟨s, .zero⟩
  rw [candidates] at hrun
  simp only [sweep_eq_sweepSince hv ha hc, sweepSince, Logged.value_bind, hrun, Logged.value_pure]

theorem sweep_of_oversized (hv : config.validate = .ok ()) (hfits : config.fits = false) (ha : s.available = true)
    {head : Revision} (hh : m.head.revision? m.clusterId = some head) {checkpoint : RevisionVector}
    (hc : s.checkpoints = .ok checkpoint) (clock : Nat → Nat) :
    (m.sweep config clock s).value = (.error .oversized, s) := by
  have hrun := (m.toSweep config).run_of_oversized hh hfits .ofStore clock
    ((m.candidates s checkpoint).map Document.view) ⟨s, .zero⟩
  rw [candidates] at hrun
  simp only [sweep_eq_sweepSince hv ha hc, sweepSince, Logged.value_bind, hrun, Logged.value_pure]

theorem sweep_starts (m : Member) (s : Store) :
    (∃ e, ∀ config clock, config.validate = .ok () → (m.sweep config clock s).value = (.error (.failed e), s)) ∨
      (m.head.revision? m.clusterId = none ∧ ∀ config clock, config.validate = .ok () →
        (m.sweep config clock s).value = (.ok ⟨none, .zero, .zero⟩, s)) ∨
      ∃ head checkpoint, s.available = true ∧ m.head.revision? m.clusterId = some head ∧
        s.checkpoints = .ok checkpoint := by
  cases hc : s.checkpoints with
  | error e => exact .inl ⟨e, fun config clock hv ↦ by simp only [sweep, sweepAmid, hv, hc, Logged.value_pure]⟩
  | ok checkpoint =>
    cases ha : s.available with
    | false =>
      have hchanged : s.changedBy m.clusterId = .error Store.offline := by rw [Store.changedBy, ha]; rfl
      exact .inl ⟨.store Store.offline, fun config clock hv ↦ by
        simp only [sweep, sweepAmid, hv, hc, hchanged, Logged.value_pure]⟩
    | true =>
      cases hh : m.head.revision? m.clusterId with
      | none => exact .inr (.inl ⟨rfl, fun config clock hv ↦ sweep_of_no_head hv ha hh hc clock⟩)
      | some head => exact .inr (.inr ⟨head, checkpoint, rfl, rfl, rfl⟩)

/-- With a valid configuration a sweep fails without an effect, does nothing, or reaches its end. -/
theorem sweep_cases_of_valid (hs : s.WellFormed) (m : Member) :
    (∃ e, ∀ config clock, config.validate = .ok () → (m.sweep config clock s).value = (.error (.failed e), s)) ∨
      (m.head.revision? m.clusterId = none ∧ ∀ config clock, config.validate = .ok () →
        (m.sweep config clock s).value = (.ok ⟨none, .zero, .zero⟩, s)) ∨
      ∃ head checkpoint, ∀ config clock, config.validate = .ok () →
        (config.fits = false ∧ (m.sweep config clock s).value = (.error .oversized, s)) ∨ ∃ outcome t,
          (m.sweep config clock s).value = (.ok outcome, t) ∧ m.Sweeps config s head checkpoint outcome t := by
  rcases m.sweep_starts s with hfails | hnone | ⟨head, checkpoint, ha, hh, hc⟩
  · exact .inl hfails
  · exact .inr (.inl hnone)
  · refine .inr (.inr ⟨head, checkpoint, fun config clock hv ↦ ?_⟩)
    cases hfits : config.fits with
    | false => exact .inl ⟨rfl, sweep_of_oversized hv hfits ha hh hc clock⟩
    | true => exact .inr (sweep_value hs hv hfits ha hh hc clock)

theorem sweep_cases (hs : s.WellFormed) (m : Member) (config : SweepConfig) (clock : Nat → Nat) :
    (∃ e, (m.sweep config clock s).value = (.error e, s)) ∨
      (m.head.revision? m.clusterId = none ∧
        (m.sweep config clock s).value = (.ok ⟨none, .zero, .zero⟩, s)) ∨
      ∃ head checkpoint outcome t, (m.sweep config clock s).value = (.ok outcome, t) ∧
        m.Sweeps config s head checkpoint outcome t := by
  cases hv : config.validate with
  | error e => exact .inl ⟨.failed e, by simp only [sweep, sweepAmid, hv, Logged.value_pure]⟩
  | ok _ =>
    rcases sweep_cases_of_valid hs m with ⟨e, h⟩ | ⟨hh, h⟩ | ⟨head, checkpoint, h⟩
    · exact .inl ⟨.failed e, h config clock hv⟩
    · exact .inr (.inl ⟨hh, h config clock hv⟩)
    · rcases h config clock hv with ⟨-, h⟩ | h
      · exact .inl ⟨.oversized, h⟩
      · exact .inr (.inr ⟨head, checkpoint, h⟩)

section Swept

variable {head : Revision} {checkpoint : RevisionVector} {outcome : MemberOutcome} {t : Store} {d : Document}

theorem swept_induction {P : Document → Prop} (kept : P d)
    (corrected : P ((m.toSweep config).corrected head d (s.commitOf d))) :
    P (m.swept config s head checkpoint d) := by
  unfold swept
  split
  · exact Sweep.settled_induction kept corrected
  · exact kept

@[simp]
theorem id_swept : (m.swept config s head checkpoint d).id = d.id :=
  swept_induction (P := fun e ↦ e.id = d.id) rfl Sweep.id_corrected

@[simp]
theorem path_swept : (m.swept config s head checkpoint d).path = d.path :=
  swept_induction (P := fun e ↦ e.path = d.path) rfl Sweep.path_corrected

theorem deletedOnce_swept (h : d.deletedOnce = true) :
    (m.swept config s head checkpoint d).deletedOnce = true :=
  swept_induction (P := fun e ↦ e.deletedOnce = true) h (Sweep.deletedOnce_corrected h)

theorem commitOf_swept (r : Revision) :
    s.commitOf (m.swept config s head checkpoint d) r = s.commitOf d r :=
  swept_induction (P := fun e ↦ s.commitOf e r = s.commitOf d r) rfl (Store.commitOf_corrected rfl rfl r)

theorem fate_swept {id : String} (hd : s.documents.get? id = some d) (name : String) (r : Revision) :
    m.Fate config s head id name r ((m.swept config s head checkpoint d).valueAt? name r) := by
  have hvalue := Store.valueAt?_of_stored hd name r
  refine swept_induction (P := fun e ↦ m.Fate config s head id name r (e.valueAt? name r)) (.kept hvalue) ?_
  rcases (m.toSweep config).valueAt?_corrected_cases head d (s.commitOf d) name r
    with h | ⟨h, hleft, -⟩ | ⟨h, hname, hmerge, _, hvisit⟩
  · exact .kept (hvalue.trans h.symm)
  · rw [h]
    exact .reverted hd hleft
  · rw [h]
    exact .marked hd hname hmerge hvisit

theorem valueAt?_swept_sweepRevision (r : Revision) :
    (m.swept config s head checkpoint d).valueAt? Property.sweepRevision r =
      d.valueAt? Property.sweepRevision r :=
  swept_induction (P := fun e ↦ e.valueAt? Property.sweepRevision r = d.valueAt? Property.sweepRevision r) rfl
    (Sweep.valueAt?_apply_of_no_change d (Sweep.no_change_of_unselected rfl (by decide) r))

namespace Sweeps

variable (h : m.Sweeps config s head checkpoint outcome t)

include h

theorem clusterId_head : head.clusterId = m.clusterId := m.head.keyed _ _ h.component

theorem available_after : t.available = true := by
  obtain ⟨mid, hmid, rfl⟩ := h.settles
  exact hmid.available.trans h.available

theorem get?_after (id : String) : t.documents.get? id =
    if id = Path.root.id
    then some ((((s.documents.get? id).map (m.swept config s head checkpoint)).getD (.blank .root)).apply
      (.checkpoint head))
    else (s.documents.get? id).map (m.swept config s head checkpoint) := by
  obtain ⟨mid, hmid, rfl⟩ := h.settles
  have hget : mid.documents.get? id = (s.documents.get? id).map (m.swept config s head checkpoint) :=
    hmid.documents id
  rw [Store.get?_withCheckpoint]
  split
  next hid => rw [Store.rootDocument, ← hid, hget]
  next => exact hget

theorem get?_stored {id : String} (hd : s.documents.get? id = some d) : t.documents.get? id =
    some (if id = Path.root.id then (m.swept config s head checkpoint d).apply (.checkpoint head)
      else m.swept config s head checkpoint d) := by
  rw [h.get?_after, hd]
  split <;> rfl

theorem valueAt?_eq_swept (id : String) {name : String} (hname : name ≠ Property.sweepRevision) (r : Revision) :
    t.valueAt? id name r =
      (s.documents.get? id).bind fun d ↦ (m.swept config s head checkpoint d).valueAt? name r := by
  rw [Store.valueAt?, h.get?_after]
  cases s.documents.get? id with
  | none =>
    split
    · exact Document.valueAt?_apply_checkpoint_of_ne _ head hname r
    · rfl
  | some d =>
    split
    · exact Document.valueAt?_apply_checkpoint_of_ne _ head hname r
    · rfl

theorem get?_eq_none {id : String} (hid : id ≠ Path.root.id) (hd : s.documents.get? id = none) :
    t.documents.get? id = none := by
  rw [h.get?_after, hd, if_neg hid]
  rfl

theorem wellFormed (hs : s.WellFormed) : t.WellFormed := by
  intro id d hd
  rw [h.get?_after] at hd
  cases hold : s.documents.get? id with
  | none =>
    rw [hold] at hd
    split at hd
    next hid =>
      obtain rfl := Option.some.inj hd
      rw [hid, Document.id_apply, Document.path_apply]
      exact ⟨rfl, rfl⟩
    next => cases hd
  | some e =>
    have he := hs id e hold
    rw [hold] at hd
    split at hd <;> obtain rfl := Option.some.inj hd <;> simpa using he

theorem commitOf_after : t.commitOf = s.commitOf := by
  obtain ⟨mid, hmid, rfl⟩ := h.settles
  refine Store.commitOf_congr fun p r ↦ ?_
  rw [Store.recordAt?_withCheckpoint, hmid.recordAt?]

theorem fate (id name : String) (r : Revision) :
    m.Fate config s head id name r (t.valueAt? id name r) := by
  rw [Store.valueAt?, h.get?_after]
  cases hd : s.documents.get? id with
  | none =>
    have hnone : s.valueAt? id name r = none := by rw [Store.valueAt?, hd, Option.bind_none]
    split
    next hid =>
      rw [Option.bind_some, Document.valueAt?_apply_checkpoint, h.clusterId_head]
      split
      next hk => exact .raised hid hk.1 hk.2 hnone
      next => exact .kept hnone
    next => exact .kept hnone
  | some d =>
    split
    next hid =>
      rw [Option.bind_some, Document.valueAt?_apply_checkpoint, h.clusterId_head]
      split
      next hk =>
        refine .raised hid hk.1 hk.2 ?_
        obtain ⟨rfl, rfl⟩ := hk
        rw [Store.valueAt?_of_stored hd, Option.map_some, Option.getD_some,
          valueAt?_swept_sweepRevision]
      next => exact fate_swept hd name r
    next => exact fate_swept hd name r

theorem valueAt?_of_ne (id name : String) {r : Revision} (hr : r.clusterId ≠ m.clusterId) :
    t.valueAt? id name r = s.valueAt? id name r := by
  have hfate := h.fate id name r
  generalize t.valueAt? id name r = after at hfate
  cases hfate with
  | kept hkept => exact hkept.symm
  | reverted _ hleft => exact absurd hleft.1 hr
  | marked _ _ _ hvisit => exact absurd hvisit.2.2 hr
  | raised _ _ hkey => exact absurd (congrArg Revision.clusterId hkey) hr

end Sweeps

end Swept

end Member

end NodeStore
