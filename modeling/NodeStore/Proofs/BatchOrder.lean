import NodeStore.Proofs.BatchHandover

namespace NodeStore

abbrev Surroundings.fixed {σ : Type} (lookup : CommitLookup)
    (deliver : σ → Batch → Logged (Except StoreError Unit × σ)) : Surroundings σ := ⟨fun _ ↦ lookup, deliver⟩

namespace Sweep

variable {σ : Type}

def corrections (sw : Sweep) (lookup : CommitLookup) (head : Revision) (views : List View) : Batch :=
  views.flatMap fun v ↦ SweepRun.found v.document (sw.correct lookup head v).value.1

def legible (sw : Sweep) (lookup : CommitLookup) (head : Revision) (views : List View) : List View :=
  views.takeWhile fun v ↦ (sw.correct lookup head v).value.2.isNone

def obstacle? (sw : Sweep) (lookup : CommitLookup) (head : Revision) (views : List View) : Option StoreError :=
  views.findSome? fun v ↦ (sw.correct lookup head v).value.2

def countsOf (sw : Sweep) (lookup : CommitLookup) (head : Revision) (views : List View) (batches : Nat) :
    SweepCounts where
  scanned := (sw.legible lookup head views).length
  updated := (sw.corrections lookup head (sw.legible lookup head views)).length
  reverted := (views.map fun v ↦ (sw.correct lookup head v).value.1.reverted).sum
  marked := (views.map fun v ↦ (sw.correct lookup head v).value.1.marked).sum
  batches := batches

/-- How a run ends that starts in `world`, if `full` and `rest` are the batches of what it can examine. -/
structure Ends (sw : Sweep) (lookup : CommitLookup) (deliver : σ → Batch → Logged (Except StoreError Unit × σ))
    (head : Revision) (views : List View) (world : σ) (full : List Batch) (rest : Batch) (h : Handover σ)
    (r : SweepResult σ) : Prop where
  chunks : Chunked (max sw.config.batchSize 1) (sw.corrections lookup head (sw.legible lookup head views)) full rest
  handover : h = Handover.run deliver
    (full ++ if sw.obstacle? lookup head views = none ∧ rest ≠ [] then [rest] else []) world
  world : r.world = h.world
  result : r.result =
    (h.failure.or (sw.obstacle? lookup head views)).elim (.ok (some head)) fun e ↦ .error (.failed (.store e))
  counts : r.counts = sw.countsOf lookup head (views.take r.taken) (h.handed.length - h.failure.toList.length)
  nonempty : ∀ b ∈ h.handed, b ≠ []
  /-- Only as many documents are examined as fill a batch that is refused. -/
  filled : h.failure ≠ none → h.handed.length ≤ full.length →
    (sw.corrections lookup head (views.take r.taken)).length = max sw.config.batchSize 1 * h.handed.length ∧
      ∀ n < r.taken, (sw.corrections lookup head (views.take n)).length < max sw.config.batchSize 1 * h.handed.length
  /-- Otherwise they all are, up to the first that cannot be. -/
  taken : h.failure = none ∨ full.length < h.handed.length →
    r.taken = min ((sw.legible lookup head views).length + 1) views.length

/-- The run has examined the documents `seen` and handed over the batches `full`, and nothing failed. -/
structure Steady (sw : Sweep) (lookup : CommitLookup) (deliver : σ → Batch → Logged (Except StoreError Unit × σ))
    (head : Revision) (world : σ) (seen : List View) (full : List Batch) (run : SweepRun σ) : Prop where
  legible : ∀ v ∈ seen, (sw.correct lookup head v).value.2 = none
  chunks : Chunked (max sw.config.batchSize 1) (sw.corrections lookup head seen) full run.pending
  handover : Handover.run deliver full world = ⟨full, none, run.world⟩
  failure : run.failure = none
  taken : run.taken = seen.length
  counts : run.counts = sw.countsOf lookup head seen full.length

def toResult (head : Revision) (run : SweepRun σ) : SweepResult σ :=
  ⟨run.failure.elim (.ok (some head)) fun e ↦ .error (.failed (.store e)), run.world, run.counts, run.taken⟩

theorem toResult_taken (head : Revision) (run : SweepRun σ) : (toResult head run).taken = run.taken := rfl

section Steps

variable {sw : Sweep} {lookup : CommitLookup} {deliver : σ → Batch → Logged (Except StoreError Unit × σ)}
  {head : Revision} {world after : σ} {seen later : List View} {full : List Batch} {run : SweepRun σ} {v : View}
  {c : Correction} {e : StoreError}

theorem legible_append (h : ∀ v ∈ seen, (sw.correct lookup head v).value.2 = none) (later : List View) :
    sw.legible lookup head (seen ++ later) = seen ++ sw.legible lookup head later := by
  refine List.takeWhile_append_of_pos fun v hv ↦ ?_
  rw [h v hv]
  rfl

theorem legible_eq_self (h : ∀ v ∈ seen, (sw.correct lookup head v).value.2 = none) :
    sw.legible lookup head seen = seen := by
  have happend := legible_append h []
  rwa [List.append_nil, show sw.legible lookup head [] = [] from rfl, List.append_nil] at happend

theorem obstacle?_append (h : ∀ v ∈ seen, (sw.correct lookup head v).value.2 = none) (later : List View) :
    sw.obstacle? lookup head (seen ++ later) = sw.obstacle? lookup head later := by
  rw [obstacle?, List.findSome?_append, List.findSome?_eq_none_iff.2 h]
  rfl

theorem corrections_append (seen later : List View) :
    sw.corrections lookup head (seen ++ later) =
      sw.corrections lookup head seen ++ sw.corrections lookup head later :=
  List.flatMap_append

theorem corrections_singleton (hv : (sw.correct lookup head v).value = (c, none)) :
    sw.corrections lookup head [v] = SweepRun.found v.document c := by
  rw [corrections, List.flatMap_singleton, hv]

theorem countsOf_append (h : ∀ v ∈ seen, (sw.correct lookup head v).value.2 = none)
    (hv : (sw.correct lookup head v).value = (c, none)) (batches : Nat) :
    sw.countsOf lookup head (seen ++ [v]) batches =
      { sw.countsOf lookup head seen batches with
        scanned := (sw.countsOf lookup head seen batches).scanned + 1
        updated := (sw.countsOf lookup head seen batches).updated + (SweepRun.found v.document c).length
        reverted := (sw.countsOf lookup head seen batches).reverted + c.reverted
        marked := (sw.countsOf lookup head seen batches).marked + c.marked } := by
  have hall : ∀ w ∈ seen ++ [v], (sw.correct lookup head w).value.2 = none := by
    rw [List.forall_mem_append, List.forall_mem_singleton, hv]
    exact ⟨h, rfl⟩
  rw [countsOf, countsOf, legible_eq_self h, legible_eq_self hall, corrections_append, corrections_singleton hv]
  simp [hv]

theorem countsOf_append_of_failure (h : ∀ v ∈ seen, (sw.correct lookup head v).value.2 = none)
    (hv : (sw.correct lookup head v).value = (c, some e)) (batches : Nat) :
    sw.countsOf lookup head (seen ++ [v]) batches =
      { sw.countsOf lookup head seen batches with
        reverted := (sw.countsOf lookup head seen batches).reverted + c.reverted
        marked := (sw.countsOf lookup head seen batches).marked + c.marked } := by
  have hnone : sw.legible lookup head [v] = [] := by simp [legible, hv]
  rw [countsOf, countsOf, legible_append h, hnone, List.append_nil, legible_eq_self h]
  simp [hv]

namespace Steady

theorem start (sw : Sweep) (lookup : CommitLookup) (deliver : σ → Batch → Logged (Except StoreError Unit × σ))
    (head : Revision) (world : σ) (now : Nat) :
    Steady sw lookup deliver head world [] [] (.start sw world now) where
  legible := by simp
  chunks := .nil (Nat.lt_of_lt_of_le Nat.zero_lt_one (Nat.le_max_right ..))
  handover := rfl
  failure := rfl
  taken := rfl
  counts := rfl

theorem obstructed (h : Steady sw lookup deliver head world seen full run)
    (hv : (sw.correct lookup head v).value = (c, some e)) (clock : Nat → Nat) (later : List View) :
    Ends sw lookup deliver head (seen ++ v :: later) world full run.pending ⟨full, none, run.world⟩
      (toResult head (run.scan sw (.fixed lookup deliver) head clock v).value) := by
  have hscan := run.scan_of_failure (.fixed lookup deliver) sw head clock hv
  have hlegible : sw.legible lookup head (seen ++ v :: later) = seen := by
    rw [legible_append h.legible]
    simp [Sweep.legible, hv]
  have hobstacle : sw.obstacle? lookup head (seen ++ v :: later) = some e := by
    rw [obstacle?_append h.legible, obstacle?, List.findSome?_cons, hv]
  have htake : (seen ++ v :: later).take (seen.length + 1) = seen ++ [v] := by
    rw [List.append_cons]
    exact List.take_left' (by simp)
  rw [hscan, toResult]
  refine ⟨?_, ?_, rfl, ?_, ?_, ?_, fun hx ↦ absurd rfl hx, fun _ ↦ ?_⟩
  · rw [hlegible]
    exact h.chunks
  · rw [hobstacle, if_neg (by simp), List.append_nil, h.handover]
  · rw [hobstacle]
    rfl
  · rw [h.taken, htake, countsOf_append_of_failure h.legible hv, h.counts]
    rfl
  · exact h.chunks.ne_nil
  · rw [hlegible, h.taken, List.length_append, List.length_cons]
    dsimp only
    omega

theorem legible_concat (h : Steady sw lookup deliver head world seen full run)
    (hv : (sw.correct lookup head v).value = (c, none)) :
    ∀ w ∈ seen ++ [v], (sw.correct lookup head w).value.2 = none := by
  rw [List.forall_mem_append, List.forall_mem_singleton, hv]
  exact ⟨h.legible, rfl⟩

theorem examined (h : Steady sw lookup deliver head world seen full run)
    (hv : (sw.correct lookup head v).value = (c, none)) (now : Nat)
    (hroom : run.pending.length + (SweepRun.found v.document c).length < max sw.config.batchSize 1) :
    Steady sw lookup deliver head world (seen ++ [v]) full (run.examined v.document c now) where
  legible := h.legible_concat hv
  chunks := by
    rw [corrections_append, corrections_singleton hv]
    exact h.chunks.push hroom
  handover := h.handover
  failure := rfl
  taken := by simp [SweepRun.examined, h.taken]
  counts := by
    rw [countsOf_append h.legible hv, SweepRun.examined, h.counts]

theorem filled (h : Steady sw lookup deliver head world seen full run)
    (hv : (sw.correct lookup head v).value = (c, none)) (hc : c.update.hasChanges = true)
    (hfull : max sw.config.batchSize 1 ≤ run.pending.length + 1) :
    Chunked (max sw.config.batchSize 1) (sw.corrections lookup head (seen ++ [v]))
      (full ++ [run.pending ++ SweepRun.found v.document c]) [] := by
  rw [corrections_append, corrections_singleton hv, SweepRun.found, if_pos hc]
  exact h.chunks.fill _ hfull

theorem delivered (h : Steady sw lookup deliver head world seen full run)
    (hv : (sw.correct lookup head v).value = (c, none)) (hc : c.update.hasChanges = true)
    (hfull : max sw.config.batchSize 1 ≤ run.pending.length + 1) (now : Nat)
    (hreply : (deliver run.world (run.pending ++ SweepRun.found v.document c)).value = (.ok (), after)) :
    Steady sw lookup deliver head world (seen ++ [v]) (full ++ [run.pending ++ SweepRun.found v.document c])
      ((run.examined v.document c now).deliver (.fixed lookup deliver)).value := by
  rw [SweepRun.deliver_value (run.examined v.document c now) (.fixed lookup deliver) hreply]
  exact {
    legible := h.legible_concat hv
    chunks := h.filled hv hc hfull
    handover := Handover.run_concat_of_ok h.handover hreply
    failure := rfl
    taken := by simp [SweepRun.examined, h.taken]
    counts := by
      rw [countsOf_append h.legible hv, SweepRun.examined, h.counts, List.length_append, List.length_singleton]
      rfl }

theorem refused (h : Steady sw lookup deliver head world seen full run)
    (hv : (sw.correct lookup head v).value = (c, none)) (hc : c.update.hasChanges = true)
    (hfull : max sw.config.batchSize 1 ≤ run.pending.length + 1) (now : Nat)
    (hreply : (deliver run.world (run.pending ++ SweepRun.found v.document c)).value = (.error e, after))
    (later : List View) : ∃ full' rest,
      Ends sw lookup deliver head (seen ++ v :: later) world full' rest
        ⟨full ++ [run.pending ++ SweepRun.found v.document c], some e, after⟩
        (toResult head ((run.examined v.document c now).deliver (.fixed lookup deliver)).value) := by
  have hchunks := h.filled hv hc hfull
  have hall := h.legible_concat hv
  obtain ⟨more, rest, hextended⟩ := hchunks.extend (sw.corrections lookup head (sw.legible lookup head later))
  have htaken : (run.examined v.document c now).taken = seen.length + 1 := by simp [SweepRun.examined, h.taken]
  have htake : (seen ++ v :: later).take (seen.length + 1) = seen ++ [v] := by
    rw [List.append_cons]
    exact List.take_left' (by simp)
  refine ⟨full ++ [run.pending ++ SweepRun.found v.document c] ++ more, rest, ?_⟩
  rw [SweepRun.deliver_of_error (run.examined v.document c now) (.fixed lookup deliver) hreply,
    toResult]
  dsimp only
  rw [htaken]
  refine ⟨?_, ?_, rfl, rfl, ?_, hchunks.ne_nil, fun _ _ ↦ ⟨?_, fun n hn ↦ ?_⟩, fun hx ↦ ?_⟩
  · rw [List.append_cons, legible_append hall, corrections_append]
    exact hextended
  · rw [List.append_assoc, Handover.run_append, Handover.run_concat_of_error h.handover hreply,
      Handover.foldl_next_of_failure rfl]
  · rw [htake, countsOf_append h.legible hv, SweepRun.examined, h.counts]
    simp
  · rw [htake, hchunks.length_eq]
    rfl
  · have hbefore : (seen ++ v :: later).take n <+: seen := by
      rw [List.take_append_of_le_length (Nat.le_of_lt_succ hn)]
      exact List.take_prefix ..
    obtain ⟨between, hbetween⟩ := hbefore
    have hlength := congrArg (fun views ↦ (sw.corrections lookup head views).length) hbetween
    have hseen := h.chunks.length_eq
    have hpending := h.chunks.rest
    simp only [corrections_append, List.length_append, List.length_singleton, Nat.mul_succ] at hlength ⊢
    omega
  · rw [List.length_append, List.length_append] at hx
    rcases hx with hx | hx
    · cases hx
    · omega

theorem scan (h : Steady sw lookup deliver head world seen full run) (clock : Nat → Nat) (v : View) :
    (∃ full', Steady sw lookup deliver head world (seen ++ [v]) full'
      (run.scan sw (.fixed lookup deliver) head clock v).value) ∨
    (run.scan sw (.fixed lookup deliver) head clock v).value.failure.isSome = true ∧
      ∀ later, ∃ full' rest handover, Ends sw lookup deliver head (seen ++ v :: later) world full' rest handover
        (toResult head (run.scan sw (.fixed lookup deliver) head clock v).value) := by
  cases hv : (sw.correct lookup head v).value with
  | mk c failure =>
    cases failure with
    | some e =>
      refine .inr ⟨?_, fun later ↦ ⟨full, run.pending, _, h.obstructed hv clock later⟩⟩
      rw [run.scan_of_failure (.fixed lookup deliver) sw head clock hv]
      rfl
    | none =>
      rw [run.scan_eq (.fixed lookup deliver) sw head clock hv]
      split
      next hdue =>
        obtain ⟨hc, hfull⟩ := hdue
        cases hreply : (deliver run.world (run.pending ++ SweepRun.found v.document c)).value with
        | mk answer after =>
          cases answer with
          | ok _ => exact .inl ⟨_, h.delivered hv hc hfull _ hreply⟩
          | error e =>
            refine .inr ⟨?_, fun later ↦ ?_⟩
            · rw [SweepRun.deliver_of_error (run.examined v.document c (clock (run.taken + 1)))
                (.fixed lookup deliver) hreply]
              rfl
            · obtain ⟨full', rest, hends⟩ := h.refused hv hc hfull (clock (run.taken + 1)) hreply later
              exact ⟨full', rest, _, hends⟩
      next hroom =>
        refine .inl ⟨full, h.examined hv _ ?_⟩
        have hpending := h.chunks.rest
        rw [SweepRun.found]
        split
        next hc => exact Nat.lt_of_not_le fun hfull ↦ hroom ⟨hc, hfull⟩
        next => exact hpending

theorem scanAll (h : Steady sw lookup deliver head world seen full run) (clock : Nat → Nat) (views : List View) :
    (∃ full', Steady sw lookup deliver head world (seen ++ views) full'
      (SweepRun.scanAll sw (.fixed lookup deliver) head clock views run).value) ∨
    (SweepRun.scanAll sw (.fixed lookup deliver) head clock views run).value.failure.isSome = true ∧
      ∃ full' rest handover, Ends sw lookup deliver head (seen ++ views) world full' rest handover
        (toResult head (SweepRun.scanAll sw (.fixed lookup deliver) head clock views run).value) := by
  induction views generalizing seen full run with
  | nil => exact .inl ⟨full, by rwa [List.append_nil]⟩
  | cons v views ih =>
    rw [SweepRun.scanAll, Logged.value_bind]
    rcases h.scan clock v with ⟨full', hnext⟩ | ⟨hfailed, hends⟩
    · rw [if_neg (by simp [hnext.failure]), List.append_cons]
      exact ih hnext
    · rw [if_pos hfailed]
      exact .inr ⟨hfailed, hends views⟩

theorem finish (h : Steady sw lookup deliver head world seen full run) :
    ∃ handover, (handover.failure ≠ none → full.length < handover.handed.length) ∧
      Ends sw lookup deliver head seen world full run.pending handover
        (toResult head (run.finish (.fixed lookup deliver)).value) := by
  have hobstacle : sw.obstacle? lookup head seen = none := List.findSome?_eq_none_iff.2 h.legible
  have hlegible := legible_eq_self h.legible
  have hchunks := h.chunks
  rw [← hlegible] at hchunks
  by_cases hempty : run.pending = []
  · have hvalue : (run.finish (.fixed lookup deliver)).value = run := by simp [SweepRun.finish, hempty]
    rw [hvalue, toResult, h.taken]
    refine ⟨⟨full, none, run.world⟩, fun hx ↦ absurd rfl hx, hchunks, ?_, rfl, ?_, ?_, h.chunks.ne_nil,
      fun hx ↦ absurd rfl hx, fun _ ↦ ?_⟩
    · rw [hobstacle, hempty, if_neg (by simp), List.append_nil, h.handover]
    · rw [hobstacle, h.failure]
      rfl
    · rw [List.take_length, h.counts]
      rfl
    · rw [hlegible]
      exact (Nat.min_eq_right (Nat.le_succ _)).symm
  · have hvalue : run.finish (.fixed lookup deliver) = run.deliver (.fixed lookup deliver) := by
      simp [SweepRun.finish, h.failure, hempty]
    have hne : ∀ b ∈ full ++ [run.pending], b ≠ [] := by
      rw [List.forall_mem_append, List.forall_mem_singleton]
      exact ⟨h.chunks.ne_nil, hempty⟩
    have hplan : (full ++ if sw.obstacle? lookup head seen = none ∧ run.pending ≠ [] then [run.pending] else []) =
        full ++ [run.pending] := by rw [if_pos ⟨hobstacle, hempty⟩]
    rw [hvalue]
    cases hreply : (deliver run.world run.pending).value with
    | mk answer after =>
      cases answer with
      | ok _ =>
        rw [run.deliver_value (.fixed lookup deliver) hreply, toResult, h.taken]
        refine ⟨⟨full ++ [run.pending], none, after⟩, fun hx ↦ absurd rfl hx, hchunks, ?_, rfl, ?_, ?_, hne,
          fun hx ↦ absurd rfl hx, fun _ ↦ ?_⟩
        · rw [hplan, Handover.run_concat_of_ok h.handover hreply]
        · rw [hobstacle, h.failure]
          rfl
        · rw [List.take_length, h.counts]
          simp [countsOf]
        · rw [hlegible]
          exact (Nat.min_eq_right (Nat.le_succ _)).symm
      | error e =>
        rw [run.deliver_of_error (.fixed lookup deliver) hreply, toResult, h.taken]
        have hlast : full.length < (full ++ [run.pending]).length := by simp
        refine ⟨⟨full ++ [run.pending], some e, after⟩, fun _ ↦ hlast, hchunks, ?_, rfl, rfl, ?_, hne,
          fun _ hx ↦ absurd hlast (Nat.not_lt_of_le hx), fun _ ↦ ?_⟩
        · rw [hplan, Handover.run_concat_of_error h.handover hreply]
        · rw [List.take_length, h.counts]
          simp
        · rw [hlegible]
          exact (Nat.min_eq_right (Nat.le_succ _)).symm

end Steady

theorem run_value_of_head (sw : Sweep) (hh : sw.head.revision? sw.clusterId = some head)
    (hfits : sw.config.fits = true) (around : Surroundings σ) (clock : Nat → Nat) (views : List View) (world : σ) :
    (sw.run around clock views world).value =
      toResult head ((SweepRun.scanAll sw around head clock views (.start sw world (clock 0))).value.finish
        around).value := by
  unfold Sweep.run toResult
  simp only [hh, hfits, if_true, Logged.value_bind]
  split
  next e he => rw [he]; rfl
  next hnone => rw [hnone]; rfl

/-- A run that has a head ends as its documents and its receiver make it. After a failed look-up, and after a full
batch was refused, the documents that are left do not matter. -/
theorem exists_ends (sw : Sweep) (lookup : CommitLookup) (deliver : σ → Batch → Logged (Except StoreError Unit × σ))
    (hh : sw.head.revision? sw.clusterId = some head) (hfits : sw.config.fits = true) (clock : Nat → Nat)
    (views : List View) (world : σ) {r : SweepResult σ}
    (hr : (sw.run (.fixed lookup deliver) clock views world).value = r) :
    ∃ full rest handover, Ends sw lookup deliver head views world full rest handover r ∧
      (r.result ≠ .ok (some head) → handover.handed.length ≤ full.length → ∀ later,
        (sw.run (.fixed lookup deliver) clock (views.take r.taken ++ later) world).value = r) := by
  rw [sw.run_value_of_head hh hfits] at hr
  rcases (Steady.start sw lookup deliver head world (clock 0)).scanAll clock views
    with ⟨full, hall⟩ | ⟨hfailed, hends⟩
  · obtain ⟨handover, hlast, hends⟩ := hall.finish
    rw [hr] at hends
    refine ⟨full, _, handover, hends, fun hfailed hle ↦ absurd (hlast fun hnone ↦ hfailed ?_) (Nat.not_lt_of_le hle)⟩
    have hobstacle : sw.obstacle? lookup head ([] ++ views) = none := List.findSome?_eq_none_iff.2 hall.legible
    rw [hends.result, hnone, hobstacle]
    rfl
  · have hfinish {run : SweepRun σ} (hrun : run.failure.isSome = true) :
        run.finish (.fixed lookup deliver) = pure run := by
      rw [SweepRun.finish, hrun]
      rfl
    rw [hfinish hfailed, Logged.value_pure] at hr
    obtain ⟨full, rest, handover, hends⟩ := hends
    rw [hr] at hends
    refine ⟨full, rest, handover, hends, fun _ _ later ↦ ?_⟩
    have htake := (SweepRun.start sw world (clock 0)).scanAll_take (.fixed lookup deliver) sw head clock views later
      rfl hfailed
    rw [show (SweepRun.start sw world (clock 0)).taken = 0 from rfl, Nat.sub_zero, ← toResult_taken, hr] at htake
    rw [sw.run_value_of_head hh hfits, htake, hfinish hfailed, Logged.value_pure, hr]

end Steps

structure Call (σ : Type) where
  views : List View
  deliver : σ → Batch → Logged (Except StoreError Unit × σ)
  clock : Nat → Nat

def runs (sw : Sweep) (lookup : CommitLookup) : List (Call σ) → σ → List (SweepResult σ)
  | [], _ => []
  | call :: rest, world =>
    let r := (sw.run (.fixed lookup call.deliver) call.clock call.views world).value
    r :: runs sw lookup rest r.world

/-- What a run comes to that starts in `world`. -/
def Conducts (sw : Sweep) (lookup : CommitLookup) (call : Call σ) (world : σ) (r : SweepResult σ) : Prop :=
  match sw.head.revision? sw.clusterId with
  | none => r = ⟨.ok none, world, .zero, 0⟩
  | some head =>
    if sw.config.fits then ∃ full rest handover,
      Ends sw lookup call.deliver head call.views world full rest handover r ∧
        -- The documents after a failed look-up or a refused full batch do not matter.
        (r.result ≠ .ok (some head) → handover.handed.length ≤ full.length → ∀ later,
          (sw.run (.fixed lookup call.deliver) call.clock (call.views.take r.taken ++ later) world).value = r) ∧
        -- A receiver that keeps what it gets has got the batches handed over, and no others.
        ∀ kept, (sw.run (.fixed lookup (Handover.keeping call.deliver)) call.clock call.views
          (world, kept)).value.world = (r.world, kept ++ handover.handed)
    else r = ⟨.error .oversized, world, .zero, 0⟩

/-- Each run comes to what it would come to alone, from the world that it starts in. -/
inductive Course (sw : Sweep) (lookup : CommitLookup) : List (Call σ) → σ → List (SweepResult σ) → Prop
  | done (world : σ) : Course sw lookup [] world []
  | run {call : Call σ} {rest : List (Call σ)} {world : σ} {r : SweepResult σ} {results : List (SweepResult σ)} :
      sw.Conducts lookup call world r → Course sw lookup rest r.world results →
      Course sw lookup (call :: rest) world (r :: results)

theorem conducts_run (sw : Sweep) (lookup : CommitLookup) (call : Call σ) (world : σ) :
    sw.Conducts lookup call world (sw.run (.fixed lookup call.deliver) call.clock call.views world).value := by
  unfold Conducts
  split
  next hh => exact sw.run_value_of_no_head hh _ _ _ _
  next head hh =>
    split
    next hfits =>
      obtain ⟨full, rest, handover, hends, hlater⟩ :=
        sw.exists_ends lookup call.deliver hh hfits call.clock call.views world rfl
      refine ⟨full, rest, handover, hends, hlater, fun kept ↦ ?_⟩
      obtain ⟨full', rest', handover', hkept, -⟩ :=
        sw.exists_ends lookup (Handover.keeping call.deliver) hh hfits call.clock call.views (world, kept) rfl
      obtain ⟨rfl, rfl⟩ := hends.chunks.unique hkept.chunks
      rw [hkept.world, hkept.handover, Handover.run_keeping, ← hends.handover, hends.world]
    next hfits => rw [sw.run_of_oversized hh (by simpa using hfits), Logged.value_pure]

/-- Whatever fails, the corrections that a run hands over are those of the documents before the first failed look-up,
in their order and in batches of one size, up to and including the first that is refused; a smaller rest follows
only if all documents could be examined. Earlier runs matter only by the world that they leave. -/
theorem course_runs (sw : Sweep) (lookup : CommitLookup) (calls : List (Call σ)) (world : σ) :
    sw.Course lookup calls world (sw.runs lookup calls world) := by
  induction calls generalizing world with
  | nil => exact .done world
  | cons call rest ih => exact .run (sw.conducts_run lookup call world) (ih _)

def singleWrite : View :=
  ((Document.blank ⟨["draft"], by decide⟩).insertEntry "p" (.onTrunk 100 0 1) "new").view

def vastSweep : Sweep := ⟨1, .ofRevisions [.onTrunk 200 0 1], .vast, .relevant⟩

/-- Nothing fails in this run, and yet it has no result. -/
theorem exists_run_without_result : ¬ ∀ (sw : Sweep) (lookup : CommitLookup) (call : Call Unit) (head : Revision),
    sw.head.revision? sw.clusterId = some head → ∃ full rest handover,
      Ends sw lookup call.deliver head call.views () full rest handover
        (sw.run (.fixed lookup call.deliver) call.clock call.views ()).value := by
  intro claim
  have hh : vastSweep.head.revision? vastSweep.clusterId = some (.onTrunk 200 0 1) := by decide +kernel
  obtain ⟨_, _, handover, hends⟩ := claim vastSweep (fun _ _ ↦ pure (.ok none))
    ⟨[singleWrite], fun _ _ ↦ pure (.ok (), ()), fun _ ↦ 0⟩ _ hh
  have hresult := hends.result
  rw [vastSweep.run_of_oversized hh (by decide)] at hresult
  generalize handover.failure.or _ = failure at hresult
  cases failure <;> cases hresult

end Sweep

end NodeStore
