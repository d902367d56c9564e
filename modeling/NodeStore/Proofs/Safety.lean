import NodeStore.Proofs.MemberSweep

namespace NodeStore

namespace Store

theorem wellFormed_iff (s : Store) :
    s.WellFormed ↔ ∀ e ∈ s.documents.entries, e.2.id = e.1 ∧ e.2.path.id = e.1 :=
  ⟨fun h e he ↦ h e.1 e.2 (SortedMap.mem_entries_iff.1 he),
    fun h id d hd ↦ h (id, d) (SortedMap.mem_entries_iff.2 hd)⟩

instance (s : Store) : Decidable s.WellFormed := decidable_of_iff _ s.wellFormed_iff.symm

theorem commitValue_congr {s t : Store} (available : t.available = s.available)
    (records : t.commitOf = s.commitOf) (d : Document) (r : Revision) :
    t.commitValue d r = s.commitValue d r := by
  cases ha : s.available with
  | true => rw [commitValue_eq_ok ha, commitValue_eq_ok (available.trans ha), records]
  | false =>
    have hfind (id : String) : t.find id = s.find id := by
      rw [find, find, available, ha]
      rfl
    simp only [commitValue, findAt, hfind]

end Store

namespace Member

structure SafeSweep (m : Member) (config : SweepConfig) (s t : Store) : Prop where
  keeps : ∀ id, (s.documents.get? id).isSome → (t.documents.get? id).isSome
  creates : ∀ id, (t.documents.get? id).isSome → (s.documents.get? id).isSome ∨ id = Path.root.id
  /-- Only entries of own uncommitted revisions disappear. -/
  removes : ∀ id d name r, s.documents.get? id = some d → (d.valueAt? name r).isSome →
    t.valueAt? id name r = none →
    r.clusterId = m.clusterId ∧ s.commitValue d r = .ok none ∧ Sweep.isMarked d r = false ∧
      ∃ head, m.head.revision? m.clusterId = some head ∧ (r.isAfter head = false ∨ config.beyondHead = true)
  /-- Only marks of own merged revisions and the checkpoint appear or change. -/
  adds : ∀ id name r v, t.valueAt? id name r = some v → s.valueAt? id name r ≠ some v →
    (name = Property.branchCommits ∧ v = "true" ∧ r.clusterId = m.clusterId ∧
      ∃ d value, s.documents.get? id = some d ∧ s.commitValue d r = .ok (some value) ∧
        CommitValue.resolve r value ≠ r) ∨
    (id = Path.root.id ∧ name = Property.sweepRevision ∧ r = .onTrunk 0 0 m.clusterId)
  flags : ∀ id d e, s.documents.get? id = some d → t.documents.get? id = some e →
    d.deletedOnce = true → e.deletedOnce = true
  commits : ∀ d r, t.commitValue d r = s.commitValue d r
  storedCommits : ∀ id d e r, s.documents.get? id = some d → t.documents.get? id = some e →
    t.commitValue e r = s.commitValue d r

variable {m : Member} {config : SweepConfig} {s t : Store}

theorem SafeSweep.refl (m : Member) (config : SweepConfig) (s : Store) : m.SafeSweep config s s where
  keeps _ h := h
  creates _ h := .inl h
  removes id d name r hd hv hnone := by
    rw [Store.valueAt?_of_stored hd] at hnone
    rw [hnone] at hv
    cases hv
  adds _ _ _ _ hv hne := absurd hv hne
  flags id d e hd he hflag := by
    obtain rfl := Option.some.inj (hd.symm.trans he)
    exact hflag
  commits _ _ := rfl
  storedCommits id d e r hd he := by
    obtain rfl := Option.some.inj (hd.symm.trans he)
    rfl

theorem Sweeps.commitOf_stored {head : Revision} {checkpoint : RevisionVector} {outcome : MemberOutcome}
    (h : m.Sweeps config s head checkpoint outcome t) {id : String} {d e : Document}
    (hd : s.documents.get? id = some d) (he : t.documents.get? id = some e) (r : Revision) :
    t.commitOf e r = s.commitOf d r := by
  have hcheckpoint (f : Document) : s.commitOf (f.apply (.checkpoint head)) r = s.commitOf f r := by
    have hrecords := f.valueAt?_apply_checkpoint_of_ne head (by decide : Property.revisions ≠ _) r
    have hroots := f.valueAt?_apply_checkpoint_of_ne head (by decide : Property.commitRoot ≠ _) r
    simp only [Store.commitOf, hrecords, hroots, Document.committedValue?_apply_checkpoint, Document.path_apply]
  rw [h.get?_stored hd] at he
  obtain rfl := Option.some.inj he
  rw [h.commitOf_after]
  split
  · rw [hcheckpoint, commitOf_swept]
  · rw [commitOf_swept]

theorem Sweeps.safe {head : Revision} {checkpoint : RevisionVector} {outcome : MemberOutcome}
    (h : m.Sweeps config s head checkpoint outcome t) : m.SafeSweep config s t where
  keeps id hd := by
    obtain ⟨d, hd⟩ := Option.isSome_iff_exists.1 hd
    rw [h.get?_stored hd]
    rfl
  creates id ht := by
    by_cases hid : id = Path.root.id
    · exact .inr hid
    · refine .inl (Option.isSome_iff_ne_none.2 fun hd ↦ ?_)
      rw [h.get?_eq_none hid hd] at ht
      cases ht
  removes id d name r hd hv hnone := by
    have hfate := h.fate id name r
    have hold := Store.valueAt?_of_stored hd name r
    generalize t.valueAt? id name r = after at hfate hnone
    subst hnone
    generalize hafter : (none : Option String) = after at hfate
    cases hfate with
    | kept hkept =>
      rw [← hold, hkept, ← hafter] at hv
      cases hv
    | reverted he hleft =>
      obtain rfl := Option.some.inj (hd.symm.trans he)
      refine ⟨hleft.1, ?_, hleft.2.2.1, head, h.component, hleft.2.2.2⟩
      rw [Store.commitValue_eq_ok h.available, hleft.2.1]
    | marked => cases hafter
    | @raised old _ _ _ hraised =>
      -- a raised entry holds a revision afterwards, so it has not disappeared
      rw [← hold, hraised] at hv
      obtain ⟨v, rfl⟩ := Option.isSome_iff_exists.1 hv
      simp only [Change.effect] at hafter
      split at hafter
      · split at hafter <;> cases hafter
      · cases hafter
  adds id name r v hv hne := by
    have hfate := h.fate id name r
    rw [hv] at hfate
    generalize hafter : some v = after at hfate
    cases hfate with
    | kept hkept => exact absurd (hkept.trans hafter.symm) hne
    | reverted => cases hafter
    | marked hd hname hmerge hvisit =>
      obtain ⟨-, value, hvalue, hresolve⟩ := hmerge
      refine .inl ⟨hname, Option.some.inj hafter, hvisit.2.2, _, value, hd, ?_, hresolve⟩
      rw [Store.commitValue_eq_ok h.available, hvalue]
    | raised hid hname hr => exact .inr ⟨hid, hname, hr⟩
  flags id d e hd he hflag := by
    rw [h.get?_stored hd] at he
    obtain rfl := Option.some.inj he
    split
    · refine Document.deletedOnce_apply _ (fun k hk ↦ ?_) (deletedOnce_swept hflag)
      cases Update.changes_checkpoint hk
    · exact deletedOnce_swept hflag
  commits := Store.commitValue_congr (h.available_after.trans h.available.symm) h.commitOf_after
  storedCommits id d e r hd he := by
    rw [Store.commitValue_eq_ok h.available_after, Store.commitValue_eq_ok h.available,
      h.commitOf_stored hd he]

/-- A sweep of a well-formed store is safe, however it ends. -/
theorem sweep_safe (hs : s.WellFormed) (m : Member) (config : SweepConfig) (clock : Nat → Nat) :
    m.SafeSweep config s (m.sweep config clock s).value.2 := by
  rcases sweep_cases hs m config clock with ⟨_, h⟩ | ⟨-, h⟩ | ⟨head, checkpoint, outcome, t, h, ht⟩
  · rw [h]
    exact .refl m config s
  · rw [h]
    exact .refl m config s
  · rw [h]
    exact ht.safe

def halfCommitted : Store := .ofDocuments [
  { Document.blank .root with maps := .ofList [
      (Property.revisions, .ofList [(.onTrunk 100 0 1, "c")])] },
  { Document.blank ⟨["content"], by decide⟩ with maps := .ofList [
      ("p", .ofList [(.onTrunk 100 0 1, "old"), (.onTrunk 101 0 1, "new")]),
      (Property.commitRoot, .ofList [(.onTrunk 100 0 1, "0"), (.onTrunk 101 0 1, "0")])] }]

def firstMember : Member := ⟨1, RevisionVector.empty.update (.onTrunk 200 0 1)⟩

theorem sweep_safe_halfCommitted :
    halfCommitted.WellFormed ∧
      firstMember.SafeSweep .standard halfCommitted
        (firstMember.sweep .standard (fun _ ↦ 0) halfCommitted).value.2 ∧
      (firstMember.sweep .standard (fun _ ↦ 0) halfCommitted).value.2.valueAt? "1:/content" "p" (.onTrunk 101 0 1) =
        none :=
  ⟨by decide, sweep_safe (by decide) firstMember .standard fun _ ↦ 0, by decide +kernel⟩

end Member

end NodeStore
