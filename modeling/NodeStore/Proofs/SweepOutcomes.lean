import Mathlib.Data.List.Basic
import NodeStore.Proofs.CheckpointHistory

namespace NodeStore

theorem SortedMap.mapM_values_eq_error_iff {κ ν α ε : Type} [Ord κ] [Std.TransOrd κ] {m : SortedMap κ ν}
    {f : ν → Except ε α} {e : ε} : m.values.mapM f = .error e ↔
      ∃ p ∈ m.entries, f p.2 = .error e ∧ ∀ q ∈ m.entries, compare q.1 p.1 = .lt → ∃ a, f q.2 = .ok a := by
  obtain ⟨l, hl⟩ := m
  rw [values]
  induction l with
  | nil => simp [Pure.pure, Except.pure]
  | cons p l ih =>
    obtain ⟨first, tail⟩ := List.pairwise_cons.1 hl
    rw [List.map_cons, List.mapM_cons, List.exists_mem_cons_iff]
    simp only [List.forall_mem_cons]
    cases hp : f p.2 with
    | error e₀ =>
      have hleft : (Except.error e₀ : Except ε (List α)) = .error e ↔ (Except.error e₀ : Except ε α) = .error e := by
        simp
      refine hleft.trans ⟨fun h ↦ .inl ⟨h, fun hlt ↦ ?_, fun q hq hlt ↦ ?_⟩, fun h ↦ ?_⟩
      · simp at hlt
      · exact absurd (first q hq) (Std.OrientedCmp.not_lt_of_lt hlt)
      · rcases h with h | ⟨q, hq, -, hbefore, -⟩
        · exact h.1
        · obtain ⟨a, ha⟩ := hbefore (first q hq)
          cases ha
    | ok a =>
      have hleft : (Except.ok a >>= fun b ↦ (l.map (·.2)).mapM f >>= fun bs ↦ Except.ok (b :: bs)) = .error e ↔
          (l.map (·.2)).mapM f = .error e := by
        cases (l.map (·.2)).mapM f <;> simp [bind, Except.bind]
      refine hleft.trans ((ih tail).trans ?_)
      simp

namespace Store

variable {s : Store} {config : SweepConfig}

/-- The error of the first checkpoint, in the order of its entries, that cannot be read. -/
def FirstUnreadable (s : Store) (cause : RevisionError) : Prop :=
  ∃ k v, s.checkpointAt? k = some v ∧ Revision.parse v = .error cause ∧
    ∀ k' v', compare k' k = .lt → s.checkpointAt? k' = some v' → ∃ x, Revision.parse v' = .ok x

theorem checkpointsOf_eq_error_iff {d : Document} {cause : RevisionError} : checkpointsOf d = .error cause ↔
    ∃ k v, d.valueAt? Property.sweepRevision k = some v ∧ Revision.parse v = .error cause ∧
      ∀ k' v', compare k' k = .lt → d.valueAt? Property.sweepRevision k' = some v' →
        ∃ x, Revision.parse v' = .ok x := by
  have hmap (read : Except RevisionError (List Revision)) :
      read.map RevisionVector.ofRevisions = .error cause ↔ read = .error cause := by
    cases read <;> simp [Except.map]
  rw [checkpointsOf, hmap]
  unfold Document.valueAt?
  cases d.map? Property.sweepRevision with
  | none => simp [Pure.pure, Except.pure]
  | some checkpoints =>
    rw [Option.map_some, Option.getD_some, SortedMap.mapM_values_eq_error_iff]
    simp only [Prod.exists, Prod.forall, SortedMap.mem_entries_iff, Option.bind_some]
    refine exists_congr fun k ↦ exists_congr fun v ↦ and_congr_right fun _ ↦ and_congr_right fun _ ↦ ?_
    exact forall_congr' fun k' ↦ forall_congr' fun v' ↦ forall_comm

theorem checkpoints_eq_error_iff (h : s.available = true) {e : SweepError} : s.checkpoints = .error e ↔
    ∃ cause, e = .revision cause ∧ s.FirstUnreadable cause := by
  have hroot (cause : RevisionError) : s.FirstUnreadable cause ↔ checkpointsOf s.rootDocument = .error cause := by
    simp only [checkpointsOf_eq_error_iff, valueAt?_rootDocument]
    rfl
  simp only [hroot]
  rw [checkpoints, findAt, find_of_available h, rootDocument]
  cases s.documents.get? Path.root.id with
  | none =>
    have hblank : checkpointsOf (.blank .root) = .ok .empty := rfl
    simp [hblank]
  | some d =>
    cases hd : checkpointsOf d <;> simp [hd, eq_comm]

/-- What keeps a sweep from its start. Each obstacle counts only where none of those before it is met. -/
inductive Obstructs (s : Store) (config : SweepConfig) : SweepError → Prop
  | emptyBatches : config.batchSize = 0 → Obstructs s config .emptyBatches
  | offline : config.batchSize ≠ 0 → s.available = false →
      Obstructs s config (.store (.unavailable "store is offline"))
  | unreadable {cause : RevisionError} : config.batchSize ≠ 0 → s.available = true → s.FirstUnreadable cause →
      Obstructs s config (.revision cause)

theorem checkpoints_of_unavailable (h : s.available = false) : s.checkpoints = .error (.store offline) := by
  rw [checkpoints, findAt, find, h]
  rfl

theorem readable_of_not_obstructs (h : ∀ e, ¬ s.Obstructs config e) :
    config.validate = .ok () ∧ s.available = true ∧ ∃ checkpoint, s.checkpoints = .ok checkpoint := by
  have hsize : config.batchSize ≠ 0 := fun hsize ↦ h _ (.emptyBatches hsize)
  have ha : s.available = true := by
    rw [← Bool.not_eq_false]
    exact fun ha ↦ h _ (.offline hsize ha)
  refine ⟨if_neg hsize, ha, ?_⟩
  cases hc : s.checkpoints with
  | ok checkpoint => exact ⟨checkpoint, rfl⟩
  | error e =>
    obtain ⟨cause, -, hcause⟩ := (checkpoints_eq_error_iff ha).1 hc
    exact absurd (.unreadable hsize ha hcause) (h _)

/-- The checkpoint entries are those that persisting the revisions of `rs`, in their order, writes. -/
def HoldsPersisted (s : Store) (rs : List Revision) : Prop :=
  ∀ k, s.checkpointAt? k = (Store.empty.afterSteps (rs.map .persist)).checkpointAt? k

theorem HoldsPersisted.exists_records {rs : List Revision} (h : s.HoldsPersisted rs) : ∃ v, s.Records v := by
  have hempty : Store.empty.Records .empty := .start fun d hd ↦ by cases hd
  have hall : ∀ x ∈ rs.map Step.persist, x.SparesCheckpoints := fun x hx ↦ by
    obtain ⟨r, -, rfl⟩ := List.mem_map.1 hx
    trivial
  exact ⟨_, (hempty.afterSteps hall).congr h⟩

end Store

namespace Member

variable {m : Member} {config : SweepConfig} {s : Store}

theorem sweep_of_obstructs {e : SweepError} (h : s.Obstructs config e) (clock : Nat → Nat) :
    (m.sweep config clock s).value = (.error (.failed e), s) := by
  have hstops (hc : s.checkpoints = .error e) (hsize : config.batchSize ≠ 0) :
      (m.sweep config clock s).value = (.error (.failed e), s) := by
    have hv : config.validate = .ok () := if_neg hsize
    simp only [sweep, sweepAmid, hv, hc, Logged.value_pure]
  cases h with
  | emptyBatches hsize =>
    have hv : config.validate = .error .emptyBatches := if_pos hsize
    simp only [sweep, sweepAmid, hv, Logged.value_pure]
  | offline hsize ha => exact hstops (Store.checkpoints_of_unavailable ha) hsize
  | unreadable hsize ha hcause => exact hstops ((Store.checkpoints_eq_error_iff ha).2 ⟨_, rfl, hcause⟩) hsize

/-- A sweep gets as far as to reserve the memory for a batch, which is more than there can be. -/
def Exhausts (m : Member) (config : SweepConfig) (s : Store) : Prop :=
  (∀ e, ¬ s.Obstructs config e) ∧ (m.head.revision? m.clusterId).isSome ∧ config.fits = false

inductive Ends (m : Member) (config : SweepConfig) (s : Store) : Except SweepHalt MemberOutcome × Store → Prop
  | obstructed {e : SweepError} : s.Obstructs config e → Ends m config s (.error (.failed e), s)
  | oversized : m.Exhausts config s → Ends m config s (.error .oversized, s)
  | skipped : (∀ e, ¬ s.Obstructs config e) → m.head.revision? m.clusterId = none →
      Ends m config s (.ok ⟨none, .zero, .zero⟩, s)
  | advanced {head : Revision} {outcome : MemberOutcome} {t : Store} : (∀ e, ¬ s.Obstructs config e) →
      config.fits = true → m.head.revision? m.clusterId = some head → outcome.sweepRevision = some head →
      s.Advances head t → Ends m config s (.ok outcome, t)

theorem sweep_ends (m : Member) (config : SweepConfig) (clock : Nat → Nat) (s : Store) :
    m.Ends config s (m.sweep config clock s).value := by
  by_cases hobstacle : ∃ e, s.Obstructs config e
  · obtain ⟨e, he⟩ := hobstacle
    rw [sweep_of_obstructs he]
    exact .obstructed he
  · rw [not_exists] at hobstacle
    obtain ⟨hv, ha, checkpoint, hc⟩ := Store.readable_of_not_obstructs hobstacle
    cases hh : m.head.revision? m.clusterId with
    | none =>
      rw [sweep_of_no_head hv ha hh hc]
      exact .skipped hobstacle hh
    | some head =>
      cases hfits : config.fits with
      | false =>
        rw [sweep_of_oversized hv hfits ha hh hc]
        exact .oversized ⟨hobstacle, by rw [hh]; rfl, hfits⟩
      | true =>
        obtain ⟨outcome, t, h, hhead, hadvances⟩ := m.sweep_advances hv hfits clock ha hh hc
        rw [h]
        exact .advanced hobstacle hfits hh hhead hadvances

/-- A sweep fails exactly for the first obstacle that it meets, and it panics exactly if it meets none and cannot
reserve a batch. If it fails or panics, or if the head has no component for the member and all counts are zero, then
the store is as it was. -/
theorem sweep_error_iff (m : Member) (config : SweepConfig) (clock : Nat → Nat) (s : Store) :
    (∀ e, (m.sweep config clock s).value.1 = .error (.failed e) ↔ s.Obstructs config e) ∧
    ((m.sweep config clock s).value.1 = .error .oversized ↔ m.Exhausts config s) ∧
    ((∃ e, (m.sweep config clock s).value.1 = .error e) ∨ m.head.revision? m.clusterId = none →
      (m.sweep config clock s).value.2 = s) ∧
    ∀ outcome, (m.sweep config clock s).value.1 = .ok outcome →
      (m.head.revision? m.clusterId = none → outcome = ⟨none, .zero, .zero⟩) ∧
        outcome.sweepRevision = m.head.revision? m.clusterId := by
  have hend := m.sweep_ends config clock s
  have hobstructed {e : SweepError} (he : s.Obstructs config e) := sweep_of_obstructs (m := m) he clock
  generalize (m.sweep config clock s).value = result at hend hobstructed ⊢
  cases hend with
  | @obstructed e he =>
    refine ⟨fun e' ↦ ⟨fun h ↦ ?_, fun h ↦ congrArg Prod.fst (hobstructed h)⟩,
      ⟨fun h ↦ (by cases h), fun h ↦ absurd he (h.1 e)⟩, fun _ ↦ rfl, fun _ h ↦ (by cases h)⟩
    obtain rfl := SweepHalt.failed.inj (Except.error.inj h)
    exact he
  | oversized h =>
    exact ⟨fun e ↦ ⟨fun h ↦ (by cases h), fun he ↦ absurd he (h.1 e)⟩, iff_of_true rfl h, fun _ ↦ rfl,
      fun _ h ↦ (by cases h)⟩
  | skipped hnot hnone =>
    refine ⟨fun e ↦ ⟨fun h ↦ (by cases h), fun h ↦ absurd h (hnot e)⟩, ⟨fun h ↦ (by cases h), fun h ↦ ?_⟩,
      fun _ ↦ rfl, fun outcome h ↦ ?_⟩
    · simp [Exhausts, hnone] at h
    · obtain rfl := Except.ok.inj h
      exact ⟨fun _ ↦ rfl, hnone.symm⟩
  | advanced hnot hfits hhead hreported =>
    have hsome : m.head.revision? m.clusterId ≠ none := by simp [hhead]
    refine ⟨fun e ↦ ⟨fun h ↦ (by cases h), fun h ↦ absurd h (hnot e)⟩, ⟨fun h ↦ (by cases h), fun h ↦ ?_⟩,
      fun h ↦ ?_, fun outcome h ↦ ?_⟩
    · simp [Exhausts, hfits] at h
    · rcases h with ⟨e, h⟩ | hnone
      · cases h
      · exact absurd hnone hsome
    · obtain rfl := Except.ok.inj h
      exact ⟨fun hnone ↦ absurd hnone hsome, hreported.trans hhead.symm⟩

def garbled : Store := .ofDocuments [
  { Document.blank .root with maps := .ofList [(Property.sweepRevision,
    .ofList [(.onTrunk 0 0 2, "r1-0"), (.onTrunk 0 0 1, "r64-0-1"), (.onTrunk 0 0 3, "")])] },
  Receiver.pendingWrite]

def headless : Member := ⟨1, .empty⟩

theorem sweep_error_iff_garbled :
    garbled.Obstructs .standard (.revision (.malformed "r1-0")) ∧
      (∃ e, (firstMember.sweep .standard (fun _ ↦ 0) garbled).value.1 = .error e) ∧
      (firstMember.sweep .standard (fun _ ↦ 0) garbled).value.2 = garbled ∧
      headless.head.revision? headless.clusterId = none ∧
      (headless.sweep .standard (fun _ ↦ 0) Receiver.pendingStore).value =
        (.ok ⟨none, .zero, .zero⟩, Receiver.pendingStore) := by
  have hfails : (firstMember.sweep .standard (fun _ ↦ 0) garbled).value.1 =
      .error (.failed (.revision (.malformed "r1-0"))) := by decide +kernel
  have h := firstMember.sweep_error_iff .standard (fun _ ↦ 0) garbled
  have hnone : headless.head.revision? headless.clusterId = none := rfl
  have h' := headless.sweep_error_iff .standard (fun _ ↦ 0) Receiver.pendingStore
  obtain ⟨outcome, hok⟩ : ∃ outcome,
      (headless.sweep .standard (fun _ ↦ 0) Receiver.pendingStore).value.1 = .ok outcome :=
    ⟨⟨none, .zero, .zero⟩, by decide +kernel⟩
  obtain rfl := (h'.2.2.2 outcome hok).1 hnone
  exact ⟨(h.1 _).1 hfails, ⟨_, hfails⟩, h.2.2.1 (.inl ⟨_, hfails⟩), hnone, Prod.ext hok (h'.2.2.1 (.inr hnone))⟩

theorem getLast?_lines_sweepSince {around : Surroundings Receiving} {clock : Nat → Nat}
    {checkpoint : RevisionVector} {documents : List Document} {outcome : MemberOutcome} {r : Revision}
    (h : (m.sweepSince around config clock checkpoint documents s).value.1 = .ok outcome)
    (hr : outcome.sweepRevision = some r) :
    (m.sweepSince around config clock checkpoint documents s).lines.getLast? = some (m.doneLine r) := by
  unfold sweepSince at h ⊢
  simp only [Logged.value_bind, Logged.lines_bind] at h ⊢
  generalize (m.toSweep config).run around clock _ _ = run at h ⊢
  cases hresult : run.value.result with
  | error e =>
    simp only [hresult] at h
    cases h
  | ok reported =>
    cases reported with
    | none =>
      simp only [hresult] at h
      obtain rfl := Except.ok.inj h
      cases hr
    | some head =>
      cases hpersist : run.value.world.store.persistCheckpoint head with
      | mk reply t =>
        simp only [hresult, hpersist] at h ⊢
        cases reply with
        | error e => cases h
        | ok _ =>
          obtain rfl := Except.ok.inj h
          obtain rfl := Option.some.inj hr
          rw [Logged.lines_bind, Logged.lines_pure, List.append_nil, ← List.append_assoc]
          exact List.getLast?_concat

theorem getLast?_lines_sweep {clock : Nat → Nat} {outcome : MemberOutcome} {r : Revision}
    (h : (m.sweep config clock s).value.1 = .ok outcome) (hr : outcome.sweepRevision = some r) :
    (m.sweep config clock s).lines.getLast? = some (m.doneLine r) := by
  have hnot : ∀ e, ¬ s.Obstructs config e := fun e he ↦ by
    rw [sweep_of_obstructs he] at h
    cases h
  obtain ⟨hv, ha, checkpoint, hc⟩ := Store.readable_of_not_obstructs hnot
  rw [sweep_eq_sweepSince hv ha hc] at h ⊢
  exact getLast?_lines_sweepSince h hr

/-- A sweep reports its head. That is the checkpoint of its member from then on exactly if the member had no
checkpoint, one that the head is after, or the head itself; every other checkpoint stays. -/
theorem sweep_reported_iff {clock : Nat → Nat} {t : Store} {outcome : MemberOutcome} {r : Revision}
    {rs : List Revision} (hs : s.HoldsPersisted rs) (h : (m.sweep config clock s).value = (.ok outcome, t))
    (hr : outcome.sweepRevision = some r) :
    (m.sweep config clock s).lines.getLast? = some (m.doneLine r) ∧
    ∃ before after, s.checkpoints = .ok before ∧ t.checkpoints = .ok after ∧
      (after.revision? m.clusterId = some r ↔
        ∀ old, before.revision? m.clusterId = some old → r.isAfter old = true ∨ old = r) ∧
      ∀ old, before.revision? m.clusterId = some old → r.isAfter old = false →
        after.revision? m.clusterId = some old := by
  refine ⟨getLast?_lines_sweep (congrArg Prod.fst h) hr, ?_⟩
  obtain ⟨v, hv⟩ := hs.exists_records
  have hend := m.sweep_ends config clock s
  rw [h] at hend
  cases hend with
  | skipped => cases hr
  | @advanced head _ _ _ _ hhead hreported hadvances =>
    obtain rfl : head = r := Option.some.inj (hreported.symm.trans hr)
    refine ⟨v, v.observe head, hv.checkpoints hadvances.before,
      (hv.advance hadvances).checkpoints hadvances.after, ?_⟩
    rw [← m.head.keyed _ _ hhead, RevisionVector.revision?_observe, RevisionVector.isBehind]
    cases hold : v.revision? head.clusterId with
    | none => simp
    | some old => cases hafter : head.isAfter old <;> simp [hafter]

def sweptAhead : Store := Store.empty.afterSteps [.persist (.onTrunk 500 0 1)]

theorem checkpoints_sweptAhead : sweptAhead.checkpoints = .ok (.ofRevisions [.onTrunk 500 0 1]) := by decide +kernel

theorem sweep_reported_iff_sweptAhead :
    sweptAhead.HoldsPersisted [.onTrunk 500 0 1] ∧
      ∃ outcome t, (firstMember.sweep .standard (fun _ ↦ 0) sweptAhead).value = (.ok outcome, t) ∧
        outcome.sweepRevision = some (.onTrunk 200 0 1) ∧
        ∃ after, t.checkpoints = .ok after ∧ after.revision? 1 = some (.onTrunk 500 0 1) := by
  have hs : sweptAhead.HoldsPersisted [.onTrunk 500 0 1] := fun _ ↦ rfl
  have hv : SweepConfig.standard.validate = .ok () := rfl
  obtain ⟨outcome, t, h, hreported, -⟩ := firstMember.sweep_advances hv rfl (fun _ ↦ 0) rfl rfl checkpoints_sweptAhead
  obtain ⟨-, before, after, hbefore, hafter, -, hkept⟩ := sweep_reported_iff hs h hreported
  obtain rfl := Except.ok.inj (checkpoints_sweptAhead.symm.trans hbefore)
  exact ⟨hs, outcome, t, h, hreported, after, hafter, hkept _ (by decide +kernel) (by decide +kernel)⟩

/-- A head that is not after the checkpoint is reported, but not persisted. -/
theorem exists_unpersisted_report : ¬ ∀ (m : Member) (config : SweepConfig) (clock : Nat → Nat) (s t : Store)
    (outcome : MemberOutcome) (r : Revision) (rs : List Revision), s.HoldsPersisted rs →
      config.validate = .ok () → (m.sweep config clock s).value = (.ok outcome, t) →
      outcome.sweepRevision = some r → ∃ after, t.checkpoints = .ok after ∧ after.revision? m.clusterId = some r := by
  intro claim
  have hs : sweptAhead.HoldsPersisted [.onTrunk 500 0 1] := fun _ ↦ rfl
  have hv : SweepConfig.standard.validate = .ok () := rfl
  obtain ⟨outcome, t, h, hreported, -⟩ := firstMember.sweep_advances hv rfl (fun _ ↦ 0) rfl rfl checkpoints_sweptAhead
  obtain ⟨after, hafter, hsame⟩ := claim _ _ _ _ _ _ _ _ hs hv h hreported
  have hlast : (firstMember.sweep .standard (fun _ ↦ 0) sweptAhead).value.2.checkpoints =
      .ok (.ofRevisions [.onTrunk 500 0 1]) := by decide +kernel
  rw [h] at hlast
  obtain rfl := Except.ok.inj (hafter.symm.trans hlast)
  exact absurd hsame (by decide +kernel)

end Member

end NodeStore
