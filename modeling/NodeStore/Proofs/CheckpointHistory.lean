import NodeStore.Proofs.RecordedCheckpoints
import NodeStore.Proofs.Safety
import NodeStore.Proofs.UpdateHistory

namespace NodeStore

def Update.SparesCheckpoints (u : Update) : Prop := ∀ r, u.change? Property.sweepRevision (some r) = none

/-- An update that an available store answers, whatever its document, and that addresses no checkpoint. -/
structure Update.IsTame (u : Update) : Prop where
  isNew : u.isNew = false
  spares : u.SparesCheckpoints

namespace Store

variable {s t w : Store}

structure KeepsCheckpoints (s t : Store) : Prop where
  available : t.available = s.available
  same : ∀ k, t.checkpointAt? k = s.checkpointAt? k

theorem KeepsCheckpoints.refl (s : Store) : s.KeepsCheckpoints s := ⟨rfl, fun _ ↦ rfl⟩

theorem KeepsCheckpoints.trans (h : s.KeepsCheckpoints t) (h' : t.KeepsCheckpoints w) : s.KeepsCheckpoints w :=
  ⟨h'.available.trans h.available, fun k ↦ (h'.same k).trans (h.same k)⟩

theorem checkpointAt?_apply_event (s : Store) {e : Event} (kept : e ≠ .edit (.remove Path.root.id))
    (spares : ∀ u, e.made? Path.root.id s = some u → u.SparesCheckpoints) (k : Revision) :
    (e.apply s).checkpointAt? k = s.checkpointAt? k :=
  (s.unfolds_apply kept).valueAt?_eq fun u hu ↦ spares u (by simpa using hu) k

theorem updateIf_tame (ha : s.available = true) {u : Update} (hu : u.IsTame) :
    ∃ answer t, s.updateIf u = (.ok answer, t) ∧ s.KeepsCheckpoints t := by
  have hsame := s.checkpointAt?_apply_event (e := .edit (.updateIf u)) (by simp) fun v hv ↦ by
    obtain ⟨call, hcall, hv, -⟩ := Event.of_made? hv
    obtain rfl := Event.edit.inj hcall
    obtain rfl := Option.some.inj hv
    exact hu.spares
  rcases updateIf_of_available ha hu.isNew with ⟨e, -, -, h⟩ | ⟨-, h⟩
  · refine ⟨some e, _, h, rfl, fun k ↦ ?_⟩
    have hk := hsame k
    rwa [Event.apply, Edit.apply, h] at hk
  · exact ⟨none, s, h, .refl s⟩

end Store

namespace Receiver

theorem receiveOne_tame {u : Update} (hu : u.IsTame) {s : Store} (ha : s.available = true) (path : Path)
    (tally : Tally) :
    ∃ tally' t, ((receiveOne path u tally).run s).value = (.ok tally', t) ∧ s.KeepsCheckpoints t := by
  rw [receiveOne, Client.run_bind, committedSince_run ha]
  cases (namedRoots path u).any fun e ↦ (s.recordAt? e.2 e.1).isSome with
  | true => exact ⟨_, s, rfl, .refl s⟩
  | false =>
    obtain ⟨answer, t, hanswer, ht⟩ := Store.updateIf_tame ha hu
    simp only [Client.run, hanswer, Logged.value_bind]
    cases answer with
    | none => exact ⟨_, t, rfl, ht⟩
    | some d => exact ⟨_, t, rfl, ht⟩

theorem receive_tame {batch : Batch} (hb : ∀ e ∈ batch, e.2.IsTame) {s : Store} (ha : s.available = true)
    (tally : Tally) :
    ∃ tally' t, ((receive batch tally).run s).value = ((none, tally'), t) ∧ s.KeepsCheckpoints t := by
  induction batch generalizing s tally with
  | nil => exact ⟨tally, s, rfl, .refl s⟩
  | cons e batch ih =>
    obtain ⟨path, u⟩ := e
    obtain ⟨tally', t, hrun, ht⟩ := receiveOne_tame (hb _ List.mem_cons_self) ha path tally
    obtain ⟨tally'', w, hrest, hw⟩ := ih (fun e he ↦ hb e (List.mem_cons_of_mem _ he)) (ht.available.trans ha) tally'
    refine ⟨tally'', w, ?_, ht.trans hw⟩
    rw [receive, Client.run_bind, hrun]
    exact hrest

end Receiver

namespace Sweep

variable {sw : Sweep} {s : Store} {run : SweepRun Receiving}

/-- The run has not failed, and neither changed a checkpoint nor is about to. -/
structure Spares (s : Store) (run : SweepRun Receiving) : Prop where
  failure : run.failure = none
  keeps : s.KeepsCheckpoints run.world.store
  pending : ∀ e ∈ run.pending, e.2.IsTame

theorem isTame_correctionIn (hf : sw.filter Property.sweepRevision = false) (head : Revision) (s : Store)
    (d : Document) : (sw.correctionIn head s d).update.IsTame where
  isNew := sw.isNew_correctionOf head d _
  spares r := by
    rw [Option.eq_none_iff_forall_ne_some]
    intro c hc
    exact no_change_of_unselected hf (by decide) r c ((sw.changes_correctionOf head d _ _ _).1 hc)

theorem Spares.deliver (ha : s.available = true) (h : Spares s run) : Spares s (run.deliver .ofStore).value := by
  obtain ⟨tally, t, hrun, ht⟩ :=
    Receiver.receive_tame h.pending (h.keeps.available.trans ha) run.world.tally
  have hdeliver : (Surroundings.ofStore.deliver run.world run.pending).value = (.ok (), ⟨t, tally⟩) := by
    simp [Surroundings.ofStore, hrun]
  rw [run.deliver_value .ofStore hdeliver]
  exact ⟨h.failure, h.keeps.trans ht, fun e he ↦ by cases he⟩

theorem Spares.scan (ha : s.available = true) (hf : sw.filter Property.sweepRevision = false) (head : Revision)
    (clock : Nat → Nat) (d : Document) (h : Spares s run) :
    Spares s (run.scan sw .ofStore head clock d.view).value := by
  have hcorrect : (sw.correct (Surroundings.ofStore.lookup run.world) head d.view).value =
      (sw.correctionIn head run.world.store d, none) :=
    sw.correct_value head d _ fun r ↦ Store.commitValue_eq_ok (h.keeps.available.trans ha) d r
  have hexamined (now : Nat) : Spares s (run.examined d (sw.correctionIn head run.world.store d) now) := by
    refine ⟨rfl, h.keeps, fun e he ↦ ?_⟩
    rcases List.mem_append.1 he with he | he
    · exact h.pending e he
    · rw [SweepRun.found] at he
      split at he
      · obtain rfl := List.mem_singleton.1 he
        exact isTame_correctionIn hf head _ d
      · cases he
  obtain ⟨now, value | value⟩ := run.scan_value sw head clock hcorrect
  · rw [value]
    exact hexamined now
  · rw [value]
    exact (hexamined now).deliver ha

theorem Spares.finish (ha : s.available = true) (h : Spares s run) : Spares s (run.finish .ofStore).value := by
  rcases run.finish_cases .ofStore h.failure with ⟨-, value⟩ | value
  · rw [value]
    exact h
  · rw [value]
    exact h.deliver ha

theorem run_spares (sw : Sweep) (ha : s.available = true) (hf : sw.filter Property.sweepRevision = false)
    {head : Revision} (hh : sw.head.revision? sw.clusterId = some head) (hfits : sw.config.fits = true)
    (clock : Nat → Nat) (ds : List Document) :
    (sw.run .ofStore clock (ds.map Document.view) ⟨s, .zero⟩).value.result = .ok (some head) ∧
      s.KeepsCheckpoints (sw.run .ofStore clock (ds.map Document.view) ⟨s, .zero⟩).value.world.store := by
  have hstart : Spares s (.start sw ⟨s, .zero⟩ (clock 0)) := ⟨rfl, .refl s, fun e he ↦ by cases he⟩
  have hscan := SweepRun.scanAll_induction (I := fun _ run ↦ Spares s run) sw .ofStore head clock
    (fun _ _ ↦ Spares.failure) (fun _ d _ _ h ↦ h.scan ha hf head clock d) ds (List.nil_append ds) hstart
  have hfinish := hscan.finish ha
  unfold Sweep.run
  simp only [hh, hfits, if_true, Logged.value_bind, hfinish.failure, Logged.value_pure, true_and]
  exact hfinish.keeps

end Sweep

namespace Member

theorem sweep_advances (m : Member) {config : SweepConfig} (hv : config.validate = .ok ())
    (hfits : config.fits = true) (clock : Nat → Nat) {s : Store} (ha : s.available = true) {head : Revision}
    (hh : m.head.revision? m.clusterId = some head) {checkpoint : RevisionVector} (hc : s.checkpoints = .ok checkpoint) :
    ∃ outcome t, (m.sweep config clock s).value = (.ok outcome, t) ∧ outcome.sweepRevision = some head ∧
      s.Advances head t := by
  obtain ⟨hresult, hkeeps⟩ := (m.toSweep config).run_spares ha rfl hh hfits clock (m.candidates s checkpoint)
  generalize hrun : ((m.toSweep config).run .ofStore clock ((m.candidates s checkpoint).map Document.view)
    ⟨s, .zero⟩).value = result at hresult hkeeps
  have hmid := hkeeps.available.trans ha
  refine ⟨⟨some head, result.counts, result.world.tally⟩, result.world.store.withCheckpoint head, ?_, rfl,
    ha, hmid, fun k ↦ ?_⟩
  · rw [candidates] at hrun
    simp only [sweep_eq_sweepSince hv ha hc, sweepSince, Logged.value_bind, hrun, hresult,
      Store.persistCheckpoint_of_available hmid, Logged.value_pure]
  · have hsame : result.world.store.valueAt? Path.root.id Property.sweepRevision k =
        s.valueAt? Path.root.id Property.sweepRevision k := hkeeps.same k
    rw [Store.valueAt?_withCheckpoint, hsame]

theorem sweep_checkpoints (m : Member) (config : SweepConfig) (clock : Nat → Nat) (s : Store) :
    (∃ e, (m.sweep config clock s).value = (.error e, s)) ∨
      (m.sweep config clock s).value = (.ok ⟨none, .zero, .zero⟩, s) ∨
      ∃ head outcome t, (m.sweep config clock s).value = (.ok outcome, t) ∧ outcome.sweepRevision = some head ∧
        head.clusterId = m.clusterId ∧ s.Advances head t := by
  cases hv : config.validate with
  | error e => exact .inl ⟨.failed e, by simp only [sweep, sweepAmid, hv, Logged.value_pure]⟩
  | ok _ =>
    rcases m.sweep_starts s with ⟨e, h⟩ | ⟨-, h⟩ | ⟨head, checkpoint, ha, hh, hc⟩
    · exact .inl ⟨.failed e, h config clock hv⟩
    · exact .inr (.inl (h config clock hv))
    · cases hfits : config.fits with
      | false => exact .inl ⟨.oversized, sweep_of_oversized hv hfits ha hh hc clock⟩
      | true =>
        obtain ⟨outcome, t, h, hhead, hadvances⟩ := m.sweep_advances hv hfits clock ha hh hc
        exact .inr (.inr ⟨head, outcome, t, h, hhead, m.head.keyed _ _ hh, hadvances⟩)

end Member

/-- A call or an outage, a checkpoint that is persisted by itself, or the sweep of a member. -/
inductive Step where
  | event (e : Event)
  | persist (r : Revision)
  | sweep (m : Member) (config : SweepConfig) (clock : Nat → Nat)

namespace Step

def apply : Step → Store → Store
  | event e, s => e.apply s
  | persist r, s => (s.persistCheckpoint r).2
  | sweep m config clock, s => (m.sweep config clock s).value.2

def persisted? : Step → Store → Option Revision
  | event _, _ => none
  | persist r, s => (s.persistCheckpoint r).1.toOption.map fun _ ↦ r
  | sweep m config clock, s => (m.sweep config clock s).value.1.toOption.bind (·.sweepRevision)

def member? : Step → Option UInt32
  | event _ => none
  | persist r => some r.clusterId
  | sweep m _ _ => some m.clusterId

/-- The step does not remove the root document, and no update of it addresses a checkpoint. -/
def SparesCheckpoints : Step → Prop
  | event (.edit (.upsert u)) | event (.edit (.updateIf u)) => u.id = Path.root.id → u.SparesCheckpoints
  | event (.edit (.remove id)) => id ≠ Path.root.id
  | event (.availability _) | persist _ | sweep .. => True

theorem SparesCheckpoints.checkpointAt?_apply {e : Event} (h : (event e).SparesCheckpoints) (s : Store)
    (k : Revision) : (e.apply s).checkpointAt? k = s.checkpointAt? k := by
  refine s.checkpointAt?_apply_event (fun hremove ↦ ?_) (fun u hu ↦ ?_) k
  · rw [hremove] at h
    exact h rfl
  · obtain ⟨call, rfl, hcall, hid⟩ := Event.of_made? hu
    cases call with
    | upsert v | updateIf v =>
      obtain rfl := Option.some.inj hcall
      exact h hid
    | remove => cases hcall

theorem apply_cases {x : Step} (hx : x.SparesCheckpoints) (s : Store) :
    (x.persisted? s = none ∧ ∀ k, (x.apply s).checkpointAt? k = s.checkpointAt? k) ∨
      ∃ r, x.persisted? s = some r ∧ x.member? = some r.clusterId ∧ s.Advances r (x.apply s) := by
  cases x with
  | event e => exact .inl ⟨rfl, hx.checkpointAt?_apply s⟩
  | persist r =>
    cases ha : s.available with
    | true =>
      refine .inr ⟨r, ?_, rfl, ?_⟩
      · rw [persisted?, Store.persistCheckpoint_of_available ha]
        rfl
      · rw [apply, Store.persistCheckpoint_of_available ha]
        exact ⟨ha, ha, s.valueAt?_withCheckpoint r⟩
    | false =>
      have hfail : s.persistCheckpoint r = (.error (.store Store.offline), s) := by
        rw [Store.persistCheckpoint, Store.upsert, ha]
        rfl
      exact .inl ⟨by rw [persisted?, hfail]; rfl, fun k ↦ by rw [apply, hfail]⟩
  | sweep m config clock =>
    rcases m.sweep_checkpoints config clock s with ⟨e, h⟩ | h | ⟨head, outcome, t, h, hhead, hmember, ht⟩
    · exact .inl ⟨by rw [persisted?, h]; rfl, fun k ↦ by rw [apply, h]⟩
    · exact .inl ⟨by rw [persisted?, h]; rfl, fun k ↦ by rw [apply, h]⟩
    · exact .inr ⟨head, by rw [persisted?, h]; exact hhead, by rw [member?, hmember], by rw [apply, h]; exact ht⟩

end Step

namespace Store

def afterSteps (s : Store) (steps : List Step) : Store := steps.foldl (fun s x ↦ x.apply s) s

def persistedBy : List Step → Store → List Revision
  | [], _ => []
  | x :: steps, s => (x.persisted? s).toList ++ persistedBy steps (x.apply s)

theorem Records.afterSteps {s : Store} {v : RevisionVector} (hs : s.Records v) {steps : List Step}
    (spares : ∀ x ∈ steps, x.SparesCheckpoints) :
    (s.afterSteps steps).Records ((persistedBy steps s).foldl RevisionVector.observe v) := by
  induction steps generalizing s v with
  | nil => exact hs
  | cons x steps ih =>
    have hsteps := fun y hy ↦ spares y (List.mem_cons_of_mem _ hy)
    rw [Store.afterSteps, List.foldl_cons, persistedBy, List.foldl_append]
    rcases x.apply_cases (spares x List.mem_cons_self) s with ⟨hnone, hsame⟩ | ⟨r, hr, -, hadvances⟩
    · rw [hnone]
      exact ih (hs.congr hsame) hsteps
    · rw [hr]
      exact ih (hs.advance hadvances) hsteps

theorem member_of_mem_persistedBy {s : Store} {steps : List Step} (spares : ∀ x ∈ steps, x.SparesCheckpoints)
    {r : Revision} (h : r ∈ persistedBy steps s) : ∃ x ∈ steps, x.member? = some r.clusterId := by
  induction steps generalizing s with
  | nil => cases h
  | cons x steps ih =>
    rcases List.mem_append.1 h with hr | hr
    · rcases x.apply_cases (spares x List.mem_cons_self) s with ⟨hnone, -⟩ | ⟨r', hr', hmember, -⟩
      · rw [hnone] at hr
        cases hr
      · rw [hr'] at hr
        obtain rfl := List.mem_singleton.1 hr
        exact ⟨x, List.mem_cons_self, hmember⟩
    · obtain ⟨y, hy, hmember⟩ := ih (fun y hy ↦ spares y (List.mem_cons_of_mem _ hy)) hr
      exact ⟨y, List.mem_cons_of_mem _ hy, hmember⟩

theorem available_of_checkpoints {s : Store} {v : RevisionVector} (h : s.checkpoints = .ok v) :
    s.available = true := by
  by_contra ha
  rw [checkpoints, findAt, find, if_neg ha] at h
  cases h

/-- If a store begins without checkpoints, then after any history they are the vector of the revisions that were
persisted, in their order. From then on none of them moves back, and those of a member move with its own steps
only. -/
theorem checkpoints_afterSteps (s : Store) (steps more : List Step)
    (fresh : ∀ d, s.documents.get? Path.root.id = some d → d.map? Property.sweepRevision = none)
    (spares : ∀ x ∈ steps ++ more, x.SparesCheckpoints) :
    ((s.afterSteps steps).available = true →
      (s.afterSteps steps).checkpoints = .ok (.ofRevisions (persistedBy steps s))) ∧
    ∀ v w, (s.afterSteps steps).checkpoints = .ok v → ((s.afterSteps steps).afterSteps more).checkpoints = .ok w →
      (∀ c old, v.revision? c = some old → ∃ new, w.revision? c = some new ∧ old.isAfter new = false) ∧
      ∀ c, (∀ x ∈ more, x.member? ≠ some c) → w.revision? c = v.revision? c := by
  have hsteps := (Records.start fresh).afterSteps fun x hx ↦ spares x (List.mem_append_left _ hx)
  have hmore := fun x hx ↦ spares x (List.mem_append_right steps hx)
  refine ⟨hsteps.checkpoints, fun v w hv hw ↦ ?_⟩
  obtain rfl := Except.ok.inj ((hsteps.checkpoints (available_of_checkpoints hv)).symm.trans hv)
  obtain rfl := Except.ok.inj
    (((hsteps.afterSteps hmore).checkpoints (available_of_checkpoints hw)).symm.trans hw)
  refine ⟨fun c old hold ↦ RevisionVector.revision?_foldl_observe_of_some _ hold, fun c hc ↦ ?_⟩
  refine RevisionVector.revision?_foldl_observe_of_ne fun r hr hmember ↦ ?_
  obtain ⟨x, hx, hx'⟩ := member_of_mem_persistedBy hmore hr
  exact hc x hx (by rw [hx', hmember])

def rootNote : Update := (Update.start Path.root.id true).insertEntry "note" (.onTrunk 90 0 2) "text"

def firstSteps : List Step :=
  [.persist (.onTrunk 150 0 1), .persist (.onBranch 150 0 1), .event (.edit (.upsert rootNote)),
    .sweep Member.firstMember .standard fun _ ↦ 0]

def nextSteps : List Step := [.persist (.onTrunk 300 0 2), .persist (.onBranch 120 0 1)]

theorem checkpoints_afterSteps_pendingStore :
    (∀ d, Receiver.pendingStore.documents.get? Path.root.id = some d → d.map? Property.sweepRevision = none) ∧
      (∀ x ∈ firstSteps ++ nextSteps, x.SparesCheckpoints) ∧
      (Receiver.pendingStore.afterSteps firstSteps).checkpoints =
        .ok (.ofRevisions [.onTrunk 150 0 1, .onBranch 150 0 1, .onTrunk 200 0 1]) ∧
      ∀ w, ((Receiver.pendingStore.afterSteps firstSteps).afterSteps nextSteps).checkpoints = .ok w →
        ∃ new, w.revision? 1 = some new ∧ (Revision.onTrunk 200 0 1).isAfter new = false := by
  have hnote : rootNote.SparesCheckpoints := fun r ↦
    (Update.change?_insertEntry ..).trans (if_neg fun h ↦ absurd h.1 (by decide))
  have hspares : ∀ x ∈ firstSteps ++ nextSteps, x.SparesCheckpoints := by
    simp [firstSteps, nextSteps, Step.SparesCheckpoints, hnote]
  have hfresh : ∀ d, Receiver.pendingStore.documents.get? Path.root.id = some d →
      d.map? Property.sweepRevision = none := fun d hd ↦ by
    obtain rfl := Option.some.inj hd
    rfl
  have hpersisted : persistedBy firstSteps Receiver.pendingStore =
      [.onTrunk 150 0 1, .onBranch 150 0 1, .onTrunk 200 0 1] := by decide +kernel
  have h := checkpoints_afterSteps Receiver.pendingStore firstSteps nextSteps hfresh hspares
  rw [hpersisted] at h
  have hfirst := h.1 (by decide +kernel)
  exact ⟨hfresh, hspares, hfirst, fun w hw ↦ (h.2 _ w hfirst hw).1 1 _ (by decide +kernel)⟩

end Store

end NodeStore
