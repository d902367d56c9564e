import NodeStore.Proofs.RecoverySweep
import NodeStore.Proofs.Snapshots

namespace NodeStore.Recovery

open WriteCall

/-- The outcome of the recovery of a member, told from the writes of its cluster. -/
structure Recovers (ws : List WriteCall) (head : UInt32 × UInt64) (outcome : MemberOutcome) : Prop where
  sweepRevision : outcome.sweepRevision = some (.onTrunk head.2 0 head.1)
  rejected : outcome.tally.rejected = 0
  reverted : outcome.counts.reverted = 2 * ws.countP fun c ↦ c.clusterId == head.1 && c.write.isPending
  marked : outcome.counts.marked = ws.countP fun c ↦ c.clusterId == head.1 && c.write == .mergedBranch

variable {ws : List WriteCall} {recovered : List UInt32} {heads : List (UInt32 × UInt64)} {s : Store}

theorem component_memberAt (clusterId : UInt32) (ts : UInt64) :
    (memberAt clusterId ts).head.revision? (memberAt clusterId ts).clusterId = some (.onTrunk ts 0 clusterId) := by
  simp [memberAt, RevisionVector.ofRevisions, RevisionVector.observe, RevisionVector.isBehind,
    RevisionVector.revision?, RevisionVector.empty, RevisionVector.update, Revision.onTrunk]

theorem recoverMembers_of_sweepEach {outcomes : List MemberOutcome} {t : Store}
    (h : sweepEach heads s = (outcomes.map .ok, t)) : recoverMembers heads s = (.ok outcomes, t) := by
  have hreplies : (outcomes.map Except.ok).filterMap SweepHalt.reply? = outcomes.map Except.ok := by
    rw [List.filterMap_map]
    exact congrFun (List.filterMap_eq_map (f := Except.ok)) outcomes
  have hall : (outcomes.map Except.ok : List (Except SweepError MemberOutcome)).mapM id = .ok outcomes :=
    mapM_eq_ok_iff.2 (List.map_id _)
  rw [recoverMembers, h]
  refine Prod.ext ?_ rfl
  rw [hreplies, hall]

theorem sweepEach_fresh (h : IsHistory ws) (hs : Reflects ws recovered s) (once : (heads.map Prod.fst).Nodup)
    (fresh : ∀ m ∈ heads.map Prod.fst, m ∉ recovered) : ∃ outcomes t,
      sweepEach heads s = (outcomes.map .ok, t) ∧ List.Forall₂ (Recovers ws) heads outcomes ∧
      Reflects ws ((heads.map Prod.fst).reverse ++ recovered) t ∧
      ∀ id name r, r.clusterId ∉ heads.map Prod.fst → t.valueAt? id name r = s.valueAt? id name r := by
  induction heads generalizing recovered s with
  | nil => exact ⟨[], s, rfl, .nil, hs, fun _ _ _ _ ↦ rfl⟩
  | cons head rest ih =>
    obtain ⟨m, ts⟩ := head
    rw [List.map_cons, List.nodup_cons] at once
    rw [List.map_cons, List.forall_mem_cons] at fresh
    have hvalid : SweepConfig.recovery.validate = .ok () := rfl
    obtain ⟨_, outcome, t, hrun, hsweeps⟩ := hs.exists_sweeps hvalid rfl (component_memberAt m ts) fun _ ↦ 0
    have ht : Reflects ws (m :: recovered) t := hs.sweep h rfl hsweeps
    have hfirst : Recovers ws (m, ts) outcome :=
      ⟨hsweeps.sweepRevision, hsweeps.not_refused hs.wellFormed (hs.marksOnce h _),
        hs.reverted_eq h rfl hsweeps fresh.1, hs.marked_eq h rfl hsweeps fresh.1⟩
    obtain ⟨outcomes, u, hrest, hall, hu, hothers⟩ := ih ht once.2 fun x hx hmem ↦
      (List.mem_cons.1 hmem).elim (fun heq ↦ once.1 (heq ▸ hx)) (fresh.2 x hx)
    refine ⟨outcome :: outcomes, u, ?_, .cons hfirst hall, ?_, fun id name r hr ↦ ?_⟩
    · simp only [sweepEach, hrun, hrest, List.map_cons]
    · rw [List.map_cons, List.reverse_cons, List.append_assoc]
      exact hu
    · rw [List.map_cons, List.mem_cons, not_or] at hr
      rw [hothers id name r hr.2, hsweeps.valueAt?_of_ne id name hr.1]

theorem sweepEach_again (h : IsHistory ws) (hs : Reflects ws recovered s)
    (again : ∀ m ∈ heads.map Prod.fst, m ∈ recovered) : ∃ (outcomes : List MemberOutcome) (t : Store),
      sweepEach heads s = (outcomes.map .ok, t) ∧ ∀ o ∈ outcomes, o.counts.updated = 0 := by
  induction heads generalizing recovered s with
  | nil => exact ⟨[], s, rfl, fun _ ho ↦ by cases ho⟩
  | cons head rest ih =>
    obtain ⟨m, ts⟩ := head
    rw [List.map_cons, List.forall_mem_cons] at again
    have hvalid : SweepConfig.recovery.validate = .ok () := rfl
    obtain ⟨_, outcome, t, hrun, hsweeps⟩ := hs.exists_sweeps hvalid rfl (component_memberAt m ts) fun _ ↦ 0
    have ht : Reflects ws (m :: recovered) t := hs.sweep h rfl hsweeps
    obtain ⟨outcomes, u, hrest, hall⟩ := ih ht fun x hx ↦ List.mem_cons_of_mem _ (again.2 x hx)
    refine ⟨outcome :: outcomes, u, ?_, List.forall_mem_cons.2 ⟨?_, hall⟩⟩
    · simp only [sweepEach, hrun, hrest, List.map_cons]
    · exact hs.updated_eq_zero h rfl hsweeps again.1

/-- What a recovery of the members `heads` makes of the store `s` of a history. -/
structure RecoversAll (ws : List WriteCall) (heads : List (UInt32 × UInt64)) (s : Store)
    (outcomes : List MemberOutcome) (t : Store) : Prop where
  outcomes : List.Forall₂ (Recovers ws) heads outcomes
  leftovers : ∀ m ∈ heads.map Prod.fst, leftovers t m = .ok 0
  committed : ∀ c ∈ ws, c.write.isPending = false → ∀ name v, (name, v) ∈ c.entries →
    s.valueAt? c.documentId name c.revision = some v ∧ t.valueAt? c.documentId name c.revision = some v
  others : ∀ id name r, r.clusterId ∉ heads.map Prod.fst → t.valueAt? id name r = s.valueAt? id name r
  restored : Store.restore t.snapshot = .ok t
  again : ∃ outcomes u, recoverMembers heads t = (.ok outcomes, u) ∧ ∀ o ∈ outcomes, o.counts.updated = 0

theorem RecoversAll.of_reflects (h : IsHistory ws) (hs : Reflects ws [] s) (once : (heads.map Prod.fst).Nodup) :
    ∃ outcomes t, recoverMembers heads s = (.ok outcomes, t) ∧ RecoversAll ws heads s outcomes t := by
  obtain ⟨outcomes, t, hrun, hall, ht, hothers⟩ := sweepEach_fresh h hs once fun _ _ hmem ↦ by cases hmem
  rw [List.append_nil] at ht
  have hmem {m : UInt32} (hm : m ∈ heads.map Prod.fst) : m ∈ (heads.map Prod.fst).reverse :=
    List.mem_reverse.2 hm
  obtain ⟨again, u, hagain, hupdated⟩ := sweepEach_again h ht fun _ ↦ hmem
  have hrestored : Store.restore t.snapshot = .ok t := by
    rw [Store.restore_snapshot, ← ht.available]
  refine ⟨outcomes, t, recoverMembers_of_sweepEach hrun, hall, fun m hm ↦ ht.leftovers_eq_zero (hmem hm), ?_,
    hothers, hrestored, again, u, recoverMembers_of_sweepEach hagain, hupdated⟩
  intro c hc hpending name v he
  have hcommit : c.commit? ≠ none := fun hnone ↦ by
    rw [commit?_eq_none_iff.1 hnone] at hpending
    cases hpending
  have hbefore : Stands ws [] c.documentId name c.revision v := .written hc (fun _ ↦ hcommit) he
  have hafter : Stands ws (heads.map Prod.fst).reverse c.documentId name c.revision v :=
    .written hc (fun _ ↦ hcommit) he
  exact ⟨(hs.entries _ _ _ _ hbefore.name_ne).2 hbefore, (ht.entries _ _ _ _ hbefore.name_ne).2 hafter⟩

/-- After every history of writes every recovery succeeds, and reverts, marks and leaves alone what it should. -/
theorem recoverMembers_applyAll (h : IsHistory ws) (once : (heads.map Prod.fst).Nodup) : ∃ s outcomes t,
    applyAll ws initialStore = (.ok (), s) ∧ recoverMembers heads s = (.ok outcomes, t) ∧
      RecoversAll ws heads s outcomes t := by
  obtain ⟨s, hwrites, hs⟩ := applyAll_initialStore h
  obtain ⟨outcomes, t, hrun, ht⟩ := RecoversAll.of_reflects h hs once
  exact ⟨s, outcomes, t, hwrites, hrun, ht⟩

def crashedWrites : List WriteCall :=
  [⟨1, 12, 0, .trunk⟩, ⟨2, 12, 0, .mergedBranch⟩, ⟨1, 14, 0, .mergedBranch⟩, ⟨1, 16, 0, .uncommitted⟩,
    ⟨2, 14, 0, .uncommitted⟩, ⟨1, 18, 0, .failedCreation⟩]

theorem recoverMembers_applyAll_crashedWrites :
    IsHistory crashedWrites ∧ ([((1 : UInt32), (18 : UInt64))].map Prod.fst).Nodup ∧
      (∃ s outcomes t, applyAll crashedWrites initialStore = (.ok (), s) ∧
        recoverMembers [(1, 18)] s = (.ok outcomes, t) ∧ RecoversAll crashedWrites [(1, 18)] s outcomes t) ∧
      (recoverMembers [(1, 18)] (applyAll crashedWrites initialStore).2).1 =
        .ok [⟨some (.onTrunk 18 0 1), ⟨3, 2, 4, 1, 1⟩, ⟨2, 0⟩⟩] := by
  have h : IsHistory crashedWrites := ⟨by decide, by decide⟩
  have once : ([((1 : UInt32), (18 : UInt64))].map Prod.fst).Nodup := by decide
  exact ⟨h, once, recoverMembers_applyAll h once, by decide +kernel⟩

end NodeStore.Recovery
