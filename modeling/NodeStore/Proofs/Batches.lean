import NodeStore.Sweep.Run

namespace NodeStore

theorem ceil_of_rest {size n rest : Nat} (h : rest < size) :
    (size * n + rest + size - 1) / size = if rest = 0 then n else n + 1 := by
  have hsplit : size * n + rest + size - 1 = size * n + (rest + size - 1) := by omega
  rw [hsplit, Nat.mul_add_div (Nat.zero_lt_of_lt h)]
  split
  next hrest => rw [hrest, Nat.div_eq_of_lt (by omega), Nat.add_zero]
  next hrest =>
    have hone : rest + size - 1 = rest - 1 + size := by omega
    rw [hone, Nat.add_div_right _ (Nat.zero_lt_of_lt h), Nat.div_eq_of_lt (by omega)]

namespace SweepRun

variable {σ : Type} {around : Surroundings σ} {run : SweepRun σ} {size : Nat}

/-- The batches that were delivered were full, and the pending one is not. -/
structure InBatches (size : Nat) (run : SweepRun σ) : Prop where
  updated : run.counts.updated = size * run.counts.batches + run.pending.length
  pending : run.pending.length < size

theorem deliver_of_success (h : (run.deliver around).value.failure = none) :
    (run.deliver around).value.pending = [] ∧
      (run.deliver around).value.counts = { run.counts with batches := run.counts.batches + 1 } := by
  unfold deliver at h ⊢
  simp only [Logged.value_bind] at h ⊢
  cases hreply : (around.deliver run.world run.pending).value.1 with
  | error e => simp [hreply] at h
  | ok _ => exact ⟨rfl, rfl⟩

theorem failure_of_finish (run : SweepRun σ) (around : Surroundings σ)
    (h : (run.finish around).value.failure = none) : run.failure = none := by
  cases hf : run.failure with
  | none => rfl
  | some e => simp [SweepRun.finish, hf] at h

namespace InBatches

theorem start (s : Sweep) (world : σ) (now : Nat) : (start s world now).InBatches (max s.config.batchSize 1) :=
  ⟨rfl, Nat.lt_of_lt_of_le Nat.zero_lt_one (Nat.le_max_right ..)⟩

theorem enqueue {s : Sweep} (h : run.InBatches (max s.config.batchSize 1)) {path : Path} {u : Update}
    (hsuccess : (run.enqueue s around path u).value.failure = none) :
    (run.enqueue s around path u).value.InBatches (max s.config.batchSize 1) := by
  unfold SweepRun.enqueue at hsuccess ⊢
  dsimp only at hsuccess ⊢
  have hupdated := h.updated
  have hpending := h.pending
  split at hsuccess
  next hfull =>
    rw [if_pos hfull]
    rw [List.length_append, List.length_singleton] at hfull
    obtain ⟨hempty, hcounts⟩ := deliver_of_success hsuccess
    refine ⟨?_, by rw [hempty]; exact Nat.lt_of_lt_of_le Nat.zero_lt_one (Nat.le_max_right ..)⟩
    rw [hempty, hcounts, Nat.mul_succ, List.length_nil]
    dsimp only
    omega
  next hroom =>
    rw [if_neg hroom]
    exact ⟨by simp [hupdated, Nat.add_assoc], Nat.lt_of_not_le hroom⟩

theorem scan {s : Sweep} {head : Revision} {clock : Nat → Nat} {v : View}
    (h : run.InBatches (max s.config.batchSize 1)) (hsuccess : (run.scan s around head clock v).value.failure = none) :
    (run.scan s around head clock v).value.InBatches (max s.config.batchSize 1) := by
  unfold SweepRun.scan at hsuccess ⊢
  simp only [Logged.value_bind] at hsuccess ⊢
  cases hfailure : (s.correct (around.lookup run.world) head v).value.2 with
  | some e => simp [hfailure] at hsuccess
  | none =>
    simp only [hfailure, countScanned, Logged.value_bind, Logged.value_pure] at hsuccess ⊢
    cases hu : (s.correct (around.lookup run.world) head v).value.1.update? with
    | none => exact ⟨h.updated, h.pending⟩
    | some u =>
      simp only [hu] at hsuccess
      refine enqueue (InBatches.mk ?_ ?_) hsuccess
      · exact h.updated
      · exact h.pending

theorem scanAll {s : Sweep} {head : Revision} {clock : Nat → Nat} {views : List View}
    (h : run.InBatches (max s.config.batchSize 1))
    (hsuccess : (scanAll s around head clock views run).value.failure = none) :
    (scanAll s around head clock views run).value.InBatches (max s.config.batchSize 1) := by
  induction views generalizing run with
  | nil => exact h
  | cons v views ih =>
    simp only [SweepRun.scanAll, Logged.value_bind] at hsuccess ⊢
    cases hscan : (run.scan s around head clock v).value.failure with
    | some e => simp [hscan] at hsuccess
    | none =>
      simp only [hscan, Option.isSome_none, Bool.false_eq_true, if_false] at hsuccess ⊢
      exact ih (h.scan hscan) hsuccess

theorem finish (h : run.InBatches size) (hsuccess : (run.finish around).value.failure = none) :
    (run.finish around).value.counts.batches = ((run.finish around).value.counts.updated + size - 1) / size := by
  unfold SweepRun.finish at hsuccess ⊢
  split at hsuccess
  next hdone =>
    have hempty : run.pending.length = 0 := by
      rw [Logged.value_pure] at hsuccess
      simpa [hsuccess] using hdone
    rw [if_pos hdone, Logged.value_pure, h.updated, ceil_of_rest h.pending, if_pos hempty]
  next hrest =>
    have hne : run.pending.length ≠ 0 := fun hempty ↦ by
      simp [List.length_eq_zero_iff.1 hempty] at hrest
    rw [if_neg hrest, (deliver_of_success hsuccess).2, h.updated, ceil_of_rest h.pending, if_neg hne]

end InBatches

end SweepRun

theorem Sweep.batches_of_success {σ : Type} (s : Sweep) (around : Surroundings σ) (clock : Nat → Nat)
    (views : List View) (world : σ) {head : Revision}
    (hsuccess : (s.run around clock views world).value.result = .ok (some head)) :
    (s.run around clock views world).value.counts.batches =
      ((s.run around clock views world).value.counts.updated + max s.config.batchSize 1 - 1) /
        max s.config.batchSize 1 := by
  unfold run at hsuccess ⊢
  cases hh : s.head.revision? s.clusterId with
  | none => simp [hh] at hsuccess
  | some head =>
    have hfits : s.config.fits = true := by
      cases hfits : s.config.fits with
      | true => rfl
      | false => simp [hh, hfits] at hsuccess
    simp only [hh, hfits, if_true, Logged.value_bind] at hsuccess ⊢
    cases hfailure : ((SweepRun.scanAll s around head clock views (.start s world (clock 0))).value.finish
        around).value.failure with
    | some e => simp [hfailure] at hsuccess
    | none =>
      have hbatches := (SweepRun.InBatches.start s world (clock 0)).scanAll
        (SweepRun.failure_of_finish _ around hfailure)
      simp only [Logged.value_bind, Logged.value_pure]
      exact hbatches.finish hfailure

end NodeStore
