import NodeStore.Proofs.Interleaving

namespace NodeStore

theorem Document.satisfies_of_meets {e : Document} {u : Update} (h : e.meets u = true) {k : Key} {c : Condition}
    (hc : u.conditions.get? k = some c) : e.satisfies k c = true :=
  List.all_eq_true.1 h (k, c) (SortedMap.mem_entries_iff.2 hc)

theorem Document.satisfies_unchanged_iff (d e : Document) (name : String) (r : Revision) :
    e.satisfies (.entry name r) (d.unchanged (.entry name r)) = true ↔ e.valueAt? name r = d.valueAt? name r := by
  unfold satisfies unchanged
  simp only [Key.entry, Option.bind_some]
  cases d.valueAt? name r <;> simp

theorem Store.updateIf_of_available {s : Store} (ha : s.available = true) {u : Update} (hnew : u.isNew = false) :
    (∃ e, s.documents.get? u.id = some e ∧ e.meets u = true ∧
      s.updateIf u = (.ok (some e), s.put u.id (e.apply u))) ∨
    (∀ e, s.documents.get? u.id = some e → e.meets u ≠ true) ∧ s.updateIf u = (.ok none, s) := by
  unfold updateIf
  rw [if_pos ha]
  cases hd : s.documents.get? u.id with
  | none => exact .inr ⟨fun e h ↦ (by cases h), by simp [hnew]⟩
  | some e =>
    cases hm : e.meets u with
    | false =>
      refine .inr ⟨fun e' h ↦ ?_, by simp [hm]⟩
      obtain rfl := Option.some.inj h
      simp [hm]
    | true => exact .inl ⟨e, rfl, hm, by simp [hm]⟩

/-- An update of a document that must exist is applied as a whole, or the store stays as it is. -/
theorem Store.updateIf_cases (s : Store) {u : Update} (hnew : u.isNew = false) :
    (∃ e, s.documents.get? u.id = some e ∧ e.meets u = true ∧
      s.updateIf u = (.ok (some e), s.put u.id (e.apply u))) ∨
    (∀ e, (s.updateIf u).1 ≠ .ok (some e)) ∧ (s.updateIf u).2 = s := by
  cases ha : s.available with
  | false =>
    have hfail : s.updateIf u = (.error offline, s) := by rw [updateIf, ha]; rfl
    exact .inr (by simp [hfail])
  | true => exact (updateIf_of_available ha hnew).imp_right fun h ↦ by simp [h.2]

def Update.Reverts (u : Update) (r : Revision) : Prop := ∃ name, u.change? name (some r) = some .eraseEntry

/-- The document `e` is as `d` was wherever the correction `u` of `d` relies on it. -/
structure Update.Pins (u : Update) (d e : Document) : Prop where
  entries : ∀ name r, u.change? name (some r) = some .eraseEntry → (d.valueAt? name r).isSome →
    (e.valueAt? name r).isSome
  marks : ∀ name r v, u.change? name (some r) = some (.insertEntry v) →
    name = Property.branchCommits ∧ e.valueAt? name r = none
  commitRoots : ∀ r depth, u.Reverts r → d.valueAt? Property.commitRoot r = some depth →
    e.valueAt? Property.commitRoot r = some depth
  /-- Without a commit root the commit record is the same, and not that of a commit. -/
  commits : ∀ r, u.Reverts r → d.valueAt? Property.commitRoot r = none →
    e.valueAt? Property.revisions r = d.valueAt? Property.revisions r ∧ d.committedValue? r = none ∧
      e.committedValue? r = none

namespace Sweep

variable {sw : Sweep} {head : Revision} {d e : Document} {commit : Revision → Option String}

theorem isLeftover_of_reverts {r : Revision} (h : (sw.correctionOf head d commit).update.Reverts r) :
    sw.IsLeftover head d commit r ∧ ∃ name, sw.Visits d name r := by
  obtain ⟨name, hc⟩ := h
  rcases ((sw.changes_correctionOf head d commit _ _).1 hc).at_entry with ⟨-, hleft, hvisit⟩ | ⟨hmark, -⟩
  · exact ⟨hleft, hvisit⟩
  · cases hmark

theorem marker_of_reverts {r : Revision} (h : (sw.correctionOf head d commit).update.Reverts r) :
    (sw.correctionOf head d commit).update.conditions.get? (d.markerKey r) =
      some (d.unchanged (d.markerKey r)) := by
  obtain ⟨hleft, name, hvisit⟩ := isLeftover_of_reverts h
  exact (sw.conditions_correctionOf head d commit _ _).2 (.marker hvisit hleft)

/-- A document that meets the conditions of a correction is as the swept one wherever the correction relies on
it. Of several conditions on one entry the strongest is kept, that its value is the same. -/
theorem pins_of_meets (own : ∀ r v, d.valueAt? Property.revisions r = some v → commit r = d.committedValue? r)
    (h : e.meets (sw.correctionOf head d commit).update = true) :
    (sw.correctionOf head d commit).update.Pins d e := by
  have same {name : String} {r : Revision} (hr : (sw.correctionOf head d commit).update.Reverts r)
      (hk : d.markerKey r = .entry name r) : e.valueAt? name r = d.valueAt? name r := by
    have hmarker := Document.satisfies_of_meets h (marker_of_reverts hr)
    rw [hk] at hmarker
    exact (d.satisfies_unchanged_iff e name r).1 hmarker
  refine ⟨fun name r hc hv ↦ ?_, fun name r v hc ↦ ?_, fun r depth hr hdepth ↦ ?_, fun r hr hroot ↦ ?_⟩
  · have hr : (sw.correctionOf head d commit).update.Reverts r := ⟨name, hc⟩
    have hchange := (sw.changes_correctionOf head d commit _ _).1 hc
    by_cases hk : d.markerKey r = .entry name r
    · rwa [same hr hk]
    · -- an entry that is not the marker of its revision was visited, and required to be present
      generalize hkey : (⟨name, some r⟩ : Key) = k at hchange
      generalize hchange' : Change.eraseEntry = c at hchange
      cases hchange with
      | @entry name' r' hvisit hleft =>
        obtain ⟨rfl, hrevision⟩ := Key.mk.inj hkey
        obtain rfl := Option.some.inj hrevision
        have hpresent := (sw.conditions_correctionOf head d commit _ _).2 (.entry hvisit hleft (Ne.symm hk))
        simpa [Document.satisfies, Key.entry] using Document.satisfies_of_meets h hpresent
      | @marker name' r' =>
        have hrevision : some r = some r' := (congrArg Key.revision hkey).trans (d.markerKey_revision r')
        obtain rfl := Option.some.inj hrevision
        exact absurd hkey.symm hk
      | mark => cases hchange'
      | flag => cases hchange'
  · rcases ((sw.changes_correctionOf head d commit _ _).1 hc).at_entry with ⟨hc', -⟩ | ⟨-, hname, hmerge, _, hvisit⟩
    · cases hc'
    · have habsent := (sw.conditions_correctionOf head d commit _ _).2 (.mark hvisit hmerge)
      subst hname
      exact ⟨rfl, by simpa [Document.satisfies, Key.entry] using Document.satisfies_of_meets h habsent⟩
  · have hk : d.markerKey r = .entry Property.commitRoot r := by rw [Document.markerKey, hdepth]; rfl
    rw [same hr hk, hdepth]
  · have hk : d.markerKey r = .entry Property.revisions r := by rw [Document.markerKey, hroot]; rfl
    have hrecord := same hr hk
    have hnone : d.committedValue? r = none := by
      cases hv : d.valueAt? Property.revisions r with
      | none => rw [Document.committedValue?, hv, Option.filter_none]
      | some v => rw [← own r v hv, (isLeftover_of_reverts hr).1.2.1]
    exact ⟨hrecord, hnone, by rw [Document.committedValue?, hrecord, ← Document.committedValue?, hnone]⟩

end Sweep

namespace IsCorrection

variable {s : Store} {d : Document} {path : Path} {u : Update}

theorem of_hasChanges {sw : Sweep} {head : Revision} (ha : s.available = true)
    (hc : (sw.correctionIn head s d).update.hasChanges = true) :
    IsCorrection s d d.path (sw.correctionIn head s d).update :=
  ⟨rfl, sw, head, _, sw.correct_value head d _ fun r ↦ Store.commitValue_eq_ok ha d r, if_pos hc⟩

/-- At any later time a correction is applied to a document that is as it was swept wherever the correction
relies on it, or the store stays as it is. -/
theorem updateIf_pins (h : IsCorrection s d path u) (now : Store) :
    (∃ e, now.documents.get? d.id = some e ∧ u.Pins d e ∧
      now.updateIf u = (.ok (some e), now.put d.id (e.apply u))) ∨
    (∀ e, (now.updateIf u).1 ≠ .ok (some e)) ∧ (now.updateIf u).2 = now := by
  obtain ⟨-, sw, head, rfl⟩ := h.exists_correctionIn
  have hid := sw.id_correctionOf head d (s.commitOf d)
  refine (now.updateIf_cases (sw.isNew_correctionOf head d _)).imp_left ?_
  rw [hid]
  rintro ⟨e, he, hm, happlied⟩
  exact ⟨e, he, Sweep.pins_of_meets (s.commitOf_own d) hm, happlied⟩

def bareWrite : Document :=
  { Document.blank Receiver.pendingWrite.path with maps := .ofList [("p", .ofList [(.onTrunk 100 0 1, "new")])] }

def bareRevert : Update :=
  (Receiver.pendingSweep.correctionIn (.onTrunk 200 0 1) (.ofDocuments [bareWrite]) bareWrite).update

def bareCommitted : Store :=
  ((Store.ofDocuments [bareWrite]).updateIf ((Update.start "1:/a" false).insertCommit (.onTrunk 100 0 1) "c")).2

theorem updateIf_pins_bareRevert :
    IsCorrection (.ofDocuments [bareWrite]) bareWrite bareWrite.path bareRevert ∧
      ((∃ e, bareCommitted.documents.get? bareWrite.id = some e ∧ bareRevert.Pins bareWrite e ∧
        bareCommitted.updateIf bareRevert = (.ok (some e), bareCommitted.put bareWrite.id (e.apply bareRevert))) ∨
      (∀ e, (bareCommitted.updateIf bareRevert).1 ≠ .ok (some e)) ∧
        (bareCommitted.updateIf bareRevert).2 = bareCommitted) ∧
      bareRevert.Reverts (.onTrunk 100 0 1) ∧
      (bareCommitted.documents.get? bareWrite.id).bind (·.committedValue? (.onTrunk 100 0 1)) = some "c" ∧
      (bareCommitted.updateIf bareRevert).1 = .ok none := by
  have h : IsCorrection (.ofDocuments [bareWrite]) bareWrite bareWrite.path bareRevert :=
    .of_hasChanges rfl (by decide +kernel)
  exact ⟨h, h.updateIf_pins bareCommitted, ⟨"p", by decide +kernel⟩, by decide +kernel, by decide +kernel⟩

end IsCorrection

end NodeStore
