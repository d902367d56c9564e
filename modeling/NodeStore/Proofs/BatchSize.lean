import NodeStore.Proofs.OwnEntries

namespace NodeStore

namespace Sweep

variable {sw sw' : Sweep} {head : Revision} {s t t' : Store} {ds : List Document}

section Congr

variable (same : sw.correctionOf = sw'.correctionOf)

include same

theorem correctionIn_congr : sw.correctionIn = sw'.correctionIn := by
  funext head s d
  rw [correctionIn, same, correctionIn]

theorem accepts_congr : sw.accepts = sw'.accepts := by
  funext head s d
  rw [accepts, correctionIn_congr same, accepts]

theorem isRefused_congr : sw.isRefused = sw'.isRefused := by
  funext head s d
  rw [isRefused, correctionIn_congr same, isRefused]

theorem Settles.congr (h : sw.Settles head s ds t) : sw'.Settles head s ds t where
  available := h.available
  documents id := by
    have hsettled : sw.settled head s = sw'.settled head s := by
      funext d
      rw [settled, accepts_congr same, corrected, same, settled, corrected]
    rw [h.documents, hsettled]

end Congr

theorem Settles.unique (h : sw.Settles head s ds t) (h' : sw.Settles head s ds t') : t = t' :=
  Store.ext_get? (h.available.trans h'.available.symm) fun id ↦ by rw [h.documents, h'.documents]

end Sweep

def MemberOutcome.withBatches (o : MemberOutcome) (n : Nat) : MemberOutcome :=
  { o with counts := { o.counts with batches := n } }

namespace Member

variable {m : Member} {config config' : SweepConfig} {s t t' : Store} {head : Revision}
  {checkpoint : RevisionVector} {o o' : MemberOutcome}

theorem Sweeps.rebatch (h : m.Sweeps config s head checkpoint o t) (same : config.beyondHead = config'.beyondHead)
    (hv : config'.validate = .ok ()) (hfits : config'.fits = true) :
    m.Sweeps config' s head checkpoint (o.withBatches
      ((o.counts.updated + max config'.batchSize 1 - 1) / max config'.batchSize 1)) t := by
  have hof : (m.toSweep config).correctionOf = (m.toSweep config').correctionOf :=
    Sweep.correctionOf_congr rfl rfl same
  have hin := Sweep.correctionIn_congr hof
  have hupdated := h.updated
  have hreverted := h.reverted
  have hmarked := h.marked
  have htally := h.tally
  rw [Sweep.batchOf, hin] at hupdated
  rw [hin] at hreverted hmarked
  rw [Sweep.accepts_congr hof, Sweep.isRefused_congr hof] at htally
  obtain ⟨mid, hmid, ht⟩ := h.settles
  exact ⟨hv, hfits, h.available, h.component, h.since, h.sweepRevision, h.scanned, hupdated, hreverted, hmarked, rfl,
    htally, mid, hmid.congr hof, ht⟩

theorem Sweeps.unique (h : m.Sweeps config s head checkpoint o t) (h' : m.Sweeps config s head checkpoint o' t')
    (hs : s.WellFormed) : o' = o ∧ t' = t := by
  obtain ⟨mid, hmid, rfl⟩ := h.settles
  obtain ⟨mid', hmid', rfl⟩ := h'.settles
  exact ⟨h.outcome_eq h' hs hs (.refl _ s) fun _ _ ↦ rfl, by rw [hmid.unique hmid']⟩

theorem sweep_clock (hs : s.WellFormed) (m : Member) (config : SweepConfig) (clock clock' : Nat → Nat) :
    (m.sweep config clock s).value = (m.sweep config clock' s).value := by
  cases hv : config.validate with
  | error e => simp only [sweep, sweepAmid, hv]
  | ok _ =>
    rcases sweep_cases_of_valid hs m with ⟨e, h⟩ | ⟨-, h⟩ | ⟨head, checkpoint, h⟩
    · rw [h config clock hv, h config clock' hv]
    · rw [h config clock hv, h config clock' hv]
    · rcases h config clock hv, h config clock' hv with
        ⟨⟨hfits, hrun⟩ | ⟨o, t, hrun, hsweeps⟩, ⟨hfits', hrun'⟩ | ⟨o', t', hrun', hsweeps'⟩⟩
      · rw [hrun, hrun']
      · cases hfits.symm.trans hsweeps'.fits
      · cases hfits'.symm.trans hsweeps.fits
      · obtain ⟨rfl, rfl⟩ := hsweeps.unique hsweeps' hs
        rw [hrun, hrun']

theorem sweep_of_fits (hs : s.WellFormed) (same : config.beyondHead = config'.beyondHead)
    (hv : config.validate = .ok ()) (hv' : config'.validate = .ok ()) (hfits : config.fits = true)
    (hfits' : config'.fits = true) (ha : s.available = true) (hh : m.head.revision? m.clusterId = some head)
    (hc : s.checkpoints = .ok checkpoint) (clock clock' : Nat → Nat) :
    (m.sweep config clock s).value.2 = (m.sweep config' clock' s).value.2 ∧
      (m.sweep config clock s).value.1.map (·.withBatches 0) =
        (m.sweep config' clock' s).value.1.map (·.withBatches 0) := by
  obtain ⟨o, t, hrun, hsweeps⟩ := sweep_value hs hv hfits ha hh hc clock
  obtain ⟨o', t', hrun', hsweeps'⟩ := sweep_value hs hv' hfits' ha hh hc clock'
  obtain ⟨rfl, rfl⟩ := (hsweeps.rebatch same hv' hfits').unique hsweeps' hs
  rw [hrun, hrun']
  exact ⟨rfl, rfl⟩

theorem sweep_ne_of_oversized (hs : s.WellFormed) (hv : config.validate = .ok ()) (hv' : config'.validate = .ok ())
    (hfits : config.fits = true) (hfits' : config'.fits = false) (ha : s.available = true)
    (hh : m.head.revision? m.clusterId = some head) (hc : s.checkpoints = .ok checkpoint) (clock clock' : Nat → Nat) :
    (m.sweep config clock s).value.1.map (·.withBatches 0) ≠
      (m.sweep config' clock' s).value.1.map (·.withBatches 0) := by
  obtain ⟨o, t, hrun, -⟩ := sweep_value hs hv hfits ha hh hc clock
  rw [hrun, sweep_of_oversized hv' hfits' ha hh hc]
  exact nofun

/-- Sweeps that differ in the size of their batches, in the interval of their reports and in their clocks leave the
same store and report the same but for the number of batches, unless only one of them gets as far as to reserve more
memory for a batch than there can be. -/
theorem sweep_batchSize (hs : s.WellFormed) (m : Member) (same : config.beyondHead = config'.beyondHead)
    (hpos : 0 < config.batchSize) (hpos' : 0 < config'.batchSize) (clock clock' : Nat → Nat) :
    let run := (m.sweep config clock s).value
    let run' := (m.sweep config' clock' s).value
    (run.2 = run'.2 ∧ run.1.map (·.withBatches 0) = run'.1.map (·.withBatches 0)) ↔
      (config.fits = config'.fits ∨ m.head.revision? m.clusterId = none ∨ ¬ s.Readable) := by
  intro run run'
  have hv := SweepConfig.validate_of_pos hpos
  have hv' := SweepConfig.validate_of_pos hpos'
  by_cases hreadable : s.Readable
  · obtain ⟨ha, checkpoint, hc⟩ := id hreadable
    cases hh : m.head.revision? m.clusterId with
    | none =>
      simp only [run, run', sweep_of_no_head hv ha hh hc, sweep_of_no_head hv' ha hh hc, and_self, true_or, or_true]
    | some head =>
      simp only [hreadable, not_true_eq_false, or_false, reduceCtorEq]
      cases hfits : config.fits <;> cases hfits' : config'.fits
      · simp only [run, run', sweep_of_oversized hv hfits ha hh hc, sweep_of_oversized hv' hfits' ha hh hc, and_self]
      · exact iff_of_false (fun h ↦ sweep_ne_of_oversized hs hv' hv hfits' hfits ha hh hc clock' clock h.2.symm) nofun
      · exact iff_of_false (fun h ↦ sweep_ne_of_oversized hs hv hv' hfits hfits' ha hh hc clock clock' h.2) nofun
      · exact iff_of_true (sweep_of_fits hs same hv hv' hfits hfits' ha hh hc clock clock') rfl
  · rcases m.sweep_starts s with ⟨e, h⟩ | ⟨-, h⟩ | ⟨head, checkpoint, ha, -, hc⟩
    · simp only [run, run', h config clock hv, h config' clock' hv', and_self, hreadable, not_false_eq_true, or_true]
    · simp only [run, run', h config clock hv, h config' clock' hv', and_self, hreadable, not_false_eq_true, or_true]
    · exact absurd ⟨ha, checkpoint, hc⟩ hreadable

/-- Uncommitted writes of member 1 below each other. With batches of one the commit root of `/x/y` is corrected before
`/x/y` is examined. -/
def nestedWrites : Store := .ofDocuments [
  { Document.blank .root with maps := .ofList [
      (Property.revisions, .ofList [(.onTrunk 100 0 1, "c"), (.onTrunk 102 0 1, "pending")])] },
  { Document.blank ⟨["x"], by decide⟩ with maps := .ofList [
      ("p", .ofList [(.onTrunk 100 0 1, "old"), (.onTrunk 101 0 1, "new")]),
      (Property.commitRoot, .ofList [(.onTrunk 100 0 1, "0")]),
      (Property.revisions, .ofList [(.onTrunk 101 0 1, "pending")])] },
  { Document.blank ⟨["x", "y"], by decide⟩ with maps := .ofList [
      (Property.deleted, .ofList [(.onTrunk 101 0 1, Property.notDeleted)]),
      (Property.commitRoot, .ofList [(.onTrunk 101 0 1, "1")])] }]

def singly : SweepConfig := ⟨false, 1, 0⟩

theorem sweep_batchSize_nestedWrites :
    nestedWrites.WellFormed ∧ SweepConfig.standard.beyondHead = singly.beyondHead ∧
      0 < SweepConfig.standard.batchSize ∧ 0 < singly.batchSize ∧
      (let run := (firstMember.sweep .standard (fun _ ↦ 0) nestedWrites).value
      let run' := (firstMember.sweep singly (fun k ↦ 7 * k) nestedWrites).value
      run.2 = run'.2 ∧ run.1.map (·.withBatches 0) = run'.1.map (·.withBatches 0)) ∧
      (firstMember.sweep .standard (fun _ ↦ 0) nestedWrites).value.1 =
        .ok ⟨some (.onTrunk 200 0 1), ⟨3, 3, 5, 0, 1⟩, ⟨3, 0⟩⟩ ∧
      (firstMember.sweep singly (fun k ↦ 7 * k) nestedWrites).value.1 =
        .ok ⟨some (.onTrunk 200 0 1), ⟨3, 3, 5, 0, 3⟩, ⟨3, 0⟩⟩ := by
  have hs : nestedWrites.WellFormed := by decide +kernel
  have same : SweepConfig.standard.beyondHead = singly.beyondHead := rfl
  have hpos : 0 < SweepConfig.standard.batchSize := by decide
  have hpos' : 0 < singly.batchSize := by decide
  refine ⟨hs, same, hpos, hpos', (sweep_batchSize hs firstMember same hpos hpos' _ _).2 (.inl rfl), ?_, ?_⟩
  · decide +kernel
  · decide +kernel

/-- Batches of any size are valid, but for the largest sizes there is no memory to reserve. -/
theorem exists_batchSize_panics : ¬ ∀ (s : Store) (m : Member) (config config' : SweepConfig)
    (clock clock' : Nat → Nat), s.WellFormed → config.beyondHead = config'.beyondHead →
      0 < config.batchSize → 0 < config'.batchSize →
      let run := (m.sweep config clock s).value
      let run' := (m.sweep config' clock' s).value
      run.2 = run'.2 ∧ run.1.map (·.withBatches 0) = run'.1.map (·.withBatches 0) := by
  intro claim
  have hs : nestedWrites.WellFormed := by decide +kernel
  have hpanics : (firstMember.sweep .vast (fun _ ↦ 0) nestedWrites).value.1 = .error .oversized := by decide +kernel
  have hruns : (firstMember.sweep .standard (fun _ ↦ 0) nestedWrites).value.1 =
      .ok ⟨some (.onTrunk 200 0 1), ⟨3, 3, 5, 0, 1⟩, ⟨3, 0⟩⟩ := by decide +kernel
  obtain ⟨-, hsame⟩ := claim nestedWrites firstMember .vast .standard (fun _ ↦ 0) (fun _ ↦ 0) hs rfl (by decide)
    (by decide)
  rw [hpanics, hruns] at hsame
  cases hsame

end Member

end NodeStore
