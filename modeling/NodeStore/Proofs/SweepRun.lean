import Mathlib.Algebra.GroupWithZero.Nat
import NodeStore.Proofs.Delivery

namespace NodeStore

namespace SweepRun

variable {σ : Type} {around : Surroundings σ} {run : SweepRun σ}

theorem deliver_value (run : SweepRun σ) (around : Surroundings σ) {world : σ}
    (h : (around.deliver run.world run.pending).value = (.ok (), world)) : (run.deliver around).value =
      { run with world, pending := [], counts := { run.counts with batches := run.counts.batches + 1 } } := by
  simp only [deliver, Logged.value_bind, h, Logged.value_pure]

def found (d : Document) (c : Correction) : Batch := if c.update.hasChanges then [(d.path, c.update)] else []

/-- The run when it has examined the next document, before it looks whether the batch is full. -/
def examined (d : Document) (c : Correction) (now : Nat) (run : SweepRun σ) : SweepRun σ :=
  { run with
    taken := run.taken + 1
    failure := none
    progress := (run.progress.scanned now).1
    pending := run.pending ++ found d c
    counts := { run.counts with
      scanned := run.counts.scanned + 1
      updated := run.counts.updated + (found d c).length
      reverted := run.counts.reverted + c.reverted
      marked := run.counts.marked + c.marked } }

theorem scan_eq (run : SweepRun σ) (around : Surroundings σ) (sw : Sweep) (head : Revision) (clock : Nat → Nat)
    {v : View} {c : Correction} (hcorrect : (sw.correct (around.lookup run.world) head v).value = (c, none)) :
    (run.scan sw around head clock v).value =
      if c.update.hasChanges ∧ max sw.config.batchSize 1 ≤ run.pending.length + 1 then
        ((run.examined v.document c (clock (run.taken + 1))).deliver around).value
      else run.examined v.document c (clock (run.taken + 1)) := by
  unfold scan
  simp only [Logged.value_bind, hcorrect]
  cases hc : c.update.hasChanges with
  | false => simp [Correction.update?, hc, countScanned, examined, found]
  | true =>
    have hu : c.update? = some c.update := if_pos hc
    simp only [hu, countScanned, enqueue, Logged.value_bind, Logged.value_pure, List.length_append,
      List.length_singleton, true_and]
    rw [examined, found, if_pos hc]
    split <;> rfl

theorem scan_value (sw : Sweep) (head : Revision) (clock : Nat → Nat) {d : Document} {c : Correction}
    (hcorrect : (sw.correct (around.lookup run.world) head d.view).value = (c, none)) :
    ∃ now, (run.scan sw around head clock d.view).value = run.examined d c now ∨
      (run.scan sw around head clock d.view).value = ((run.examined d c now).deliver around).value := by
  refine ⟨clock (run.taken + 1), ?_⟩
  rw [scan_eq run around sw head clock hcorrect]
  split
  · exact .inr rfl
  · exact .inl rfl

theorem scanAll_induction (sw : Sweep) (around : Surroundings σ) (head : Revision) (clock : Nat → Nat)
    {I : List Document → SweepRun σ → Prop} (succeeds : ∀ seen run, I seen run → run.failure = none)
    {all : List Document} (scan : ∀ seen d run, seen ++ [d] <+: all → I seen run →
      I (seen ++ [d]) (run.scan sw around head clock d.view).value)
    {seen : List Document} (ds : List Document) (hall : seen ++ ds = all) (h : I seen run) :
    I all (scanAll sw around head clock (ds.map Document.view) run).value := by
  induction ds generalizing seen run with
  | nil =>
    rw [List.append_nil] at hall
    exact hall ▸ h
  | cons d ds ih =>
    rw [← List.singleton_append, ← List.append_assoc] at hall
    have hscan := scan seen d run ⟨ds, hall⟩ h
    rw [List.map_cons, scanAll, Logged.value_bind, succeeds _ _ hscan]
    exact ih hall hscan

theorem finish_cases (run : SweepRun σ) (around : Surroundings σ) (h : run.failure = none) :
    run.pending = [] ∧ (run.finish around).value = run ∨
      (run.finish around).value = (run.deliver around).value := by
  unfold finish
  rw [h]
  cases hp : run.pending with
  | nil => exact .inl ⟨rfl, rfl⟩
  | cons e rest => exact .inr rfl

end SweepRun

namespace Sweep

/-- The run has examined the documents `seen` of the store `s`: some are settled, and the corrections of the
others wait for their delivery. -/
structure InStep (sw : Sweep) (head : Revision) (s : Store) (seen : List Document)
    (run : SweepRun Receiving) : Prop where
  failure : run.failure = none
  taken : run.taken = seen.length
  scanned : run.counts.scanned = seen.length
  updated : run.counts.updated = (sw.batchOf head s seen).length
  reverted : run.counts.reverted = (seen.map fun d ↦ (sw.correctionIn head s d).reverted).sum
  marked : run.counts.marked = (seen.map fun d ↦ (sw.correctionIn head s d).marked).sum
  delivered : ∃ delivered waiting, seen = delivered ++ waiting ∧
    sw.Settles head s delivered run.world.store ∧ run.pending = sw.batchOf head s waiting ∧
    run.world.tally = ⟨delivered.countP (sw.accepts head s), delivered.countP (sw.isRefused head s)⟩

variable {sw : Sweep} {head : Revision} {s : Store} {seen : List Document} {run : SweepRun Receiving}

theorem InStep.start (sw : Sweep) (head : Revision) (s : Store) (now : Nat) :
    sw.InStep head s [] (.start sw ⟨s, .zero⟩ now) where
  failure := rfl
  taken := rfl
  scanned := rfl
  updated := rfl
  reverted := rfl
  marked := rfl
  delivered := ⟨[], [], rfl, .start sw head s, rfl, rfl⟩

theorem InStep.deliver (hs : s.WellFormed) (ha : s.available = true)
    (stored : ∀ d ∈ seen, s.documents.get? d.id = some d) (once : seen.Nodup)
    (h : sw.InStep head s seen run) :
    sw.InStep head s seen (run.deliver .ofStore).value ∧ (run.deliver .ofStore).value.pending = [] := by
  obtain ⟨delivered, waiting, rfl, ht, hpending, htally⟩ := h.delivered
  obtain ⟨t', hrun, ht'⟩ := ht.deliver hs ha waiting
    (fun d hd ↦ stored d (List.mem_append_right _ hd)) once run.world.tally
  have hdeliver : (Surroundings.ofStore.deliver run.world run.pending).value = (.ok (),
      ⟨t', ⟨run.world.tally.applied + waiting.countP (sw.accepts head s),
        run.world.tally.rejected + waiting.countP (sw.isRefused head s)⟩⟩) := by
    rw [← hpending] at hrun
    simp [Surroundings.ofStore, hrun]
  rw [run.deliver_value .ofStore hdeliver]
  refine ⟨⟨h.failure, h.taken, h.scanned, h.updated, h.reverted, h.marked, ?_⟩, rfl⟩
  refine ⟨delivered ++ waiting, [], by simp, ht', rfl, ?_⟩
  simp [htally]

theorem InStep.examined (h : sw.InStep head s seen run) (d : Document) (now : Nat) :
    sw.InStep head s (seen ++ [d]) (run.examined d (sw.correctionIn head s d) now) := by
  obtain ⟨delivered, waiting, rfl, ht, hpending, htally⟩ := h.delivered
  refine ⟨rfl, ?_, ?_, ?_, ?_, ?_, delivered, waiting ++ [d], ?_, ht, ?_, htally⟩
  · simp [SweepRun.examined, h.taken, Nat.add_assoc]
  · simp [SweepRun.examined, h.scanned, Nat.add_assoc]
  · rw [batchOf_append, List.length_append, ← h.updated, batchOf_singleton]
    rfl
  · simp [SweepRun.examined, h.reverted, Nat.add_assoc]
  · simp [SweepRun.examined, h.marked, Nat.add_assoc]
  · rw [List.append_assoc]
  · rw [SweepRun.examined, batchOf_append, hpending, batchOf_singleton]
    rfl

theorem InStep.scan (hs : s.WellFormed) (ha : s.available = true) {d : Document}
    (stored : ∀ e ∈ seen ++ [d], s.documents.get? e.id = some e) (once : (seen ++ [d]).Nodup)
    (clock : Nat → Nat) (h : sw.InStep head s seen run) :
    sw.InStep head s (seen ++ [d]) (run.scan sw .ofStore head clock d.view).value := by
  obtain ⟨_, _, _, ht, -⟩ := h.delivered
  have hcorrect : (sw.correct (Surroundings.ofStore.lookup run.world) head d.view).value =
      (sw.correctionIn head s d, none) := by
    rw [correctionIn, ← ht.commitOf]
    exact sw.correct_value head d _ fun r ↦ Store.commitValue_eq_ok (ht.available.trans ha) d r
  obtain ⟨now, value | value⟩ := run.scan_value sw head clock hcorrect
  · rw [value]
    exact h.examined d now
  · rw [value]
    exact ((h.examined d now).deliver hs ha stored once).1

theorem InStep.scanAll (hs : s.WellFormed) (ha : s.available = true) (ds : List Document)
    (stored : ∀ e ∈ ds, s.documents.get? e.id = some e) (once : ds.Nodup) (clock : Nat → Nat)
    (h : sw.InStep head s [] run) :
    sw.InStep head s ds (SweepRun.scanAll sw .ofStore head clock (ds.map Document.view) run).value := by
  refine SweepRun.scanAll_induction (I := sw.InStep head s) sw .ofStore head clock (fun _ _ ↦ InStep.failure) ?_ ds rfl h
  intro seen d run hpart h
  exact h.scan hs ha (fun e he ↦ stored e (hpart.subset he)) (once.sublist hpart.sublist) clock

theorem InStep.finish (hs : s.WellFormed) (ha : s.available = true)
    (stored : ∀ d ∈ seen, s.documents.get? d.id = some d) (once : seen.Nodup)
    (h : sw.InStep head s seen run) :
    sw.InStep head s seen (run.finish .ofStore).value ∧ (run.finish .ofStore).value.pending = [] := by
  rcases run.finish_cases .ofStore h.failure with ⟨hp, value⟩ | value
  · rw [value]
    exact ⟨h, hp⟩
  · rw [value]
    exact h.deliver hs ha stored once

theorem InStep.settles (h : sw.InStep head s seen run) (hp : run.pending = []) :
    sw.Settles head s seen run.world.store ∧
      run.world.tally = ⟨seen.countP (sw.accepts head s), seen.countP (sw.isRefused head s)⟩ := by
  obtain ⟨delivered, waiting, rfl, ht, hpending, htally⟩ := h.delivered
  have none : ∀ d ∈ waiting, (sw.correctionIn head s d).update.hasChanges = false := by
    intro d hd
    by_contra hc
    rw [Bool.not_eq_false] at hc
    have hmem : (d.path, (sw.correctionIn head s d).update) ∈ sw.batchOf head s waiting := by
      refine List.mem_filterMap.2 ⟨d, hd, ?_⟩
      rw [Correction.update?, if_pos hc]
      rfl
    rw [← hpending, hp] at hmem
    cases hmem
  have accepts : ∀ d ∈ waiting, sw.accepts head s d = false := fun d hd ↦ by simp [accepts, none d hd]
  have refused : ∀ d ∈ waiting, sw.isRefused head s d = false := fun d hd ↦ by simp [isRefused, none d hd]
  have haccepts : waiting.countP (sw.accepts head s) = 0 := by simpa using accepts
  have hrefused : waiting.countP (sw.isRefused head s) = 0 := by simpa using refused
  refine ⟨ht.skip accepts, ?_⟩
  rw [htally, List.countP_append, List.countP_append, haccepts, hrefused, Nat.add_zero, Nat.add_zero]

/-- A run of a sweep settles its documents and counts them. -/
theorem run_value (sw : Sweep) (hs : s.WellFormed) (ha : s.available = true)
    (hh : sw.head.revision? sw.clusterId = some head) (hfits : sw.config.fits = true)
    (ds : List Document) (stored : ∀ d ∈ ds, s.documents.get? d.id = some d) (once : ds.Nodup)
    (clock : Nat → Nat) : ∃ t counts,
      (sw.run .ofStore clock (ds.map Document.view) ⟨s, .zero⟩).value =
        ⟨.ok (some head), ⟨t, ⟨ds.countP (sw.accepts head s), ds.countP (sw.isRefused head s)⟩⟩, counts,
          ds.length⟩ ∧
      sw.Settles head s ds t ∧ counts.scanned = ds.length ∧
      counts.updated = (sw.batchOf head s ds).length ∧
      counts.reverted = (ds.map fun d ↦ (sw.correctionIn head s d).reverted).sum ∧
      counts.marked = (ds.map fun d ↦ (sw.correctionIn head s d).marked).sum := by
  have hstart := InStep.start sw head s (clock 0)
  have hscan : sw.InStep head s ds (SweepRun.scanAll sw .ofStore head clock (ds.map Document.view)
      (.start sw ⟨s, .zero⟩ (clock 0))).value :=
    hstart.scanAll hs ha ds stored once clock
  obtain ⟨hfinish, hp⟩ := hscan.finish hs ha stored once
  obtain ⟨ht, htally⟩ := hfinish.settles hp
  generalize hrun : (SweepRun.finish .ofStore (SweepRun.scanAll sw .ofStore head clock
    (ds.map Document.view) (.start sw ⟨s, .zero⟩ (clock 0))).value).value = run at *
  refine ⟨run.world.store, run.counts, ?_, ht, hfinish.scanned, hfinish.updated, hfinish.reverted,
    hfinish.marked⟩
  unfold Sweep.run
  simp only [hh, hfits, if_true, Logged.value_bind, hrun, hfinish.failure, Logged.value_pure, hfinish.taken, ← htally]

theorem run_value_of_no_head {σ : Type} (sw : Sweep) (hh : sw.head.revision? sw.clusterId = none)
    (around : Surroundings σ) (clock : Nat → Nat) (views : List View) (world : σ) :
    (sw.run around clock views world).value = ⟨.ok none, world, .zero, 0⟩ := by
  unfold Sweep.run
  simp only [hh, Logged.value_bind, Logged.value_pure]

theorem run_of_oversized {σ : Type} (sw : Sweep) (hh : sw.head.revision? sw.clusterId = some head)
    (hfits : sw.config.fits = false) (around : Surroundings σ) (clock : Nat → Nat) (views : List View) (world : σ) :
    sw.run around clock views world = pure ⟨.error .oversized, world, .zero, 0⟩ := by
  simp only [Sweep.run, hh, hfits, Bool.false_eq_true, if_false]

end Sweep

/-- The largest batches that a configuration can ask for. -/
def SweepConfig.vast : SweepConfig := { standard with batchSize := 2 ^ 64 - 1 }

end NodeStore
