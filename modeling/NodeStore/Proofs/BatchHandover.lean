import Mathlib.Data.List.Flatten
import NodeStore.Proofs.SweepRun

namespace NodeStore

/-- Operations in batches of one size, and a smaller rest. -/
structure Chunked (size : Nat) (ops : Batch) (full : List Batch) (rest : Batch) : Prop where
  flatten : full.flatten ++ rest = ops
  full : ∀ b ∈ full, b.length = size
  rest : rest.length < size

namespace Chunked

variable {size : Nat} {ops : Batch} {full : List Batch} {rest : Batch}

theorem nil (h : 0 < size) : Chunked size [] [] [] := ⟨rfl, by simp, h⟩

theorem length_flatten (h : Chunked size ops full rest) : full.flatten.length = size * full.length := by
  rw [List.length_flatten, List.map_eq_replicate_iff.2 h.full, List.sum_replicate_nat, Nat.mul_comm]

theorem length_eq (h : Chunked size ops full rest) : ops.length = size * full.length + rest.length := by
  rw [← h.flatten, List.length_append, h.length_flatten]

theorem ne_nil (h : Chunked size ops full rest) : ∀ b ∈ full, b ≠ [] := fun b hb hnil ↦ by
  have hsize := h.full b hb
  rw [hnil, List.length_nil] at hsize
  exact Nat.not_lt_zero _ (hsize ▸ h.rest)

theorem push (h : Chunked size ops full rest) {new : Batch} (hroom : rest.length + new.length < size) :
    Chunked size (ops ++ new) full (rest ++ new) where
  flatten := by rw [← h.flatten, List.append_assoc]
  full := h.full
  rest := by rwa [List.length_append]

theorem fill (h : Chunked size ops full rest) (op : Path × Update) (hfull : size ≤ rest.length + 1) :
    Chunked size (ops ++ [op]) (full ++ [rest ++ [op]]) [] where
  flatten := by rw [← h.flatten]; simp
  full := by
    have hrest := h.rest
    simp only [List.forall_mem_append, List.forall_mem_singleton, List.length_append, List.length_singleton]
    exact ⟨h.full, by omega⟩
  rest := Nat.lt_of_le_of_lt (Nat.zero_le _) h.rest

theorem unique (h : Chunked size ops full rest) {full' : List Batch} {rest' : Batch}
    (h' : Chunked size ops full' rest') : full = full' ∧ rest = rest' := by
  have hdiv {full : List Batch} {rest : Batch} (h : Chunked size ops full rest) :
      full.length = ops.length / size := by
    rw [h.length_eq, Nat.mul_add_div (Nat.lt_of_le_of_lt (Nat.zero_le _) h.rest), Nat.div_eq_of_lt h.rest,
      Nat.add_zero]
  have hlength : full.length = full'.length := (hdiv h).trans (hdiv h').symm
  have hflatten : full.flatten.length = full'.flatten.length := by
    rw [h.length_flatten, h'.length_flatten, hlength]
  obtain ⟨hfull, hrest⟩ := List.append_inj (h.flatten.trans h'.flatten.symm) hflatten
  refine ⟨List.eq_iff_flatten_eq.2 ⟨hfull, ?_⟩, hrest⟩
  rw [List.map_eq_replicate_iff.2 h.full, List.map_eq_replicate_iff.2 h'.full, hlength]

theorem extend (h : Chunked size ops full rest) (new : Batch) :
    ∃ full' rest', Chunked size (ops ++ new) (full ++ full') rest' := by
  induction new generalizing ops full rest with
  | nil => exact ⟨[], rest, by rwa [List.append_nil, List.append_nil]⟩
  | cons op new ih =>
    rw [← List.singleton_append, ← List.append_assoc]
    by_cases hfull : size ≤ rest.length + 1
    · obtain ⟨full', rest', h'⟩ := ih (h.fill op hfull)
      exact ⟨[rest ++ [op]] ++ full', rest', by rwa [← List.append_assoc full]⟩
    · exact ih (h.push (Nat.lt_of_not_le hfull))

end Chunked

/-- The batches that a receiver got, its refusal of the last of them, and the world after it. -/
structure Handover (σ : Type) where
  handed : List Batch
  failure : Option StoreError
  world : σ

namespace Handover

variable {σ : Type} (deliver : σ → Batch → Logged (Except StoreError Unit × σ))

def next (h : Handover σ) (b : Batch) : Handover σ :=
  match h.failure with
  | some _ => h
  | none =>
    match (deliver h.world b).value with
    | (.ok (), world) => ⟨h.handed ++ [b], none, world⟩
    | (.error e, world) => ⟨h.handed ++ [b], some e, world⟩

def run (bs : List Batch) (world : σ) : Handover σ := bs.foldl (next deliver) ⟨[], none, world⟩

/-- A receiver that also keeps every batch it gets. -/
def keeping (world : σ × List Batch) (b : Batch) : Logged (Except StoreError Unit × (σ × List Batch)) := do
  let reply ← deliver world.1 b
  pure (reply.1, reply.2, world.2 ++ [b])

variable {deliver} {h : Handover σ} {b : Batch} {bs : List Batch} {world : σ}

theorem run_append (bs bs' : List Batch) (world : σ) :
    run deliver (bs ++ bs') world = bs'.foldl (next deliver) (run deliver bs world) := List.foldl_append ..

theorem run_concat_of_ok {before after : σ} (hrun : run deliver bs world = ⟨bs, none, before⟩)
    (hreply : (deliver before b).value = (.ok (), after)) :
    run deliver (bs ++ [b]) world = ⟨bs ++ [b], none, after⟩ := by
  rw [run_append, hrun]
  simp [next, hreply]

theorem run_concat_of_error {before after : σ} {e : StoreError} (hrun : run deliver bs world = ⟨bs, none, before⟩)
    (hreply : (deliver before b).value = (.error e, after)) :
    run deliver (bs ++ [b]) world = ⟨bs ++ [b], some e, after⟩ := by
  rw [run_append, hrun]
  simp [next, hreply]

theorem foldl_next_of_failure {e : StoreError} (hf : h.failure = some e) (bs : List Batch) :
    bs.foldl (next deliver) h = h := by
  induction bs with
  | nil => rfl
  | cons b bs ih => rw [List.foldl_cons, next, hf, ih]

theorem run_keeping (bs : List Batch) (world : σ) (log : List Batch) :
    run (keeping deliver) bs (world, log) =
      { run deliver bs world with
        world := ((run deliver bs world).world, log ++ (run deliver bs world).handed) } := by
  induction bs using List.reverseRecOn with
  | nil => simp [run]
  | append_singleton bs b ih =>
    rw [run_append, run_append, ih]
    simp only [List.foldl_cons, List.foldl_nil, next]
    cases hf : (run deliver bs world).failure with
    | some e => simp [hf]
    | none =>
      simp only [keeping, Logged.value_bind, Logged.value_pure]
      cases hreply : (deliver (run deliver bs world).world b).value with
      | mk answer after => cases answer <;> simp

end Handover

namespace SweepRun

variable {σ : Type} (run : SweepRun σ) (around : Surroundings σ) {world : σ} {e : StoreError}

theorem scan_of_failure (sw : Sweep) (head : Revision) (clock : Nat → Nat) {v : View} {c : Correction}
    (hcorrect : (sw.correct (around.lookup run.world) head v).value = (c, some e)) :
    (run.scan sw around head clock v).value = { run with
      taken := run.taken + 1
      failure := some e
      counts := { run.counts with
        reverted := run.counts.reverted + c.reverted, marked := run.counts.marked + c.marked } } := by
  simp only [scan, Logged.value_bind, hcorrect, Logged.value_pure]

theorem deliver_of_error (h : (around.deliver run.world run.pending).value = (.error e, world)) :
    (run.deliver around).value = { run with world, pending := [], failure := some e } := by
  simp only [deliver, Logged.value_bind, h, Logged.value_pure]

theorem taken_deliver : (run.deliver around).value.taken = run.taken := by
  cases hreply : (around.deliver run.world run.pending).value with
  | mk answer world =>
    cases answer with
    | ok _ => rw [deliver_value run around hreply]
    | error e => rw [deliver_of_error run around hreply]

variable (sw : Sweep) (head : Revision) (clock : Nat → Nat)

theorem taken_scan (v : View) : (run.scan sw around head clock v).value.taken = run.taken + 1 := by
  cases hcorrect : (sw.correct (around.lookup run.world) head v).value with
  | mk c failure =>
    cases failure with
    | some e => rw [scan_of_failure run around sw head clock hcorrect]
    | none =>
      rw [scan_eq run around sw head clock hcorrect]
      split
      · rw [taken_deliver, examined]
      · rw [examined]

theorem taken_le_scanAll (views : List View) :
    run.taken ≤ (scanAll sw around head clock views run).value.taken := by
  induction views generalizing run with
  | nil => exact Nat.le_refl _
  | cons v views ih =>
    have hscan := run.taken_scan around sw head clock v
    rw [scanAll, Logged.value_bind]
    split
    · rw [Logged.value_pure, hscan]
      exact Nat.le_succ _
    · have hrest := ih (run.scan sw around head clock v).value
      omega

theorem scanAll_take (views later : List View) (h : run.failure = none)
    (hfailed : (scanAll sw around head clock views run).value.failure.isSome = true) :
    (scanAll sw around head clock
      (views.take ((scanAll sw around head clock views run).value.taken - run.taken) ++ later) run).value =
      (scanAll sw around head clock views run).value := by
  induction views generalizing run with
  | nil => simp [scanAll, h] at hfailed
  | cons v views ih =>
    have hscan := run.taken_scan around sw head clock v
    rw [scanAll, Logged.value_bind] at hfailed ⊢
    cases hfailure : (run.scan sw around head clock v).value.failure with
    | some e =>
      simp only [Option.isSome_some, if_true, Logged.value_pure, hscan, Nat.add_sub_cancel_left]
      rw [List.take_succ_cons, List.take_zero, List.cons_append, scanAll, Logged.value_bind, hfailure]
      rfl
    | none =>
      simp only [hfailure, Option.isSome_none, Bool.false_eq_true, if_false] at hfailed ⊢
      have hlater := (run.scan sw around head clock v).value.taken_le_scanAll around sw head clock views
      have hrest := ih (run.scan sw around head clock v).value hfailure hfailed
      rw [hscan] at hlater hrest
      obtain ⟨n, hn⟩ := Nat.exists_eq_add_of_le hlater
      rw [hn, Nat.add_sub_cancel_left] at hrest
      rw [hn, Nat.add_assoc, Nat.add_sub_cancel_left, Nat.add_comm, List.take_succ_cons, List.cons_append, scanAll,
        Logged.value_bind, hfailure]
      exact hrest

end SweepRun

end NodeStore
