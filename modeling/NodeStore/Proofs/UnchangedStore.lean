import NodeStore.Proofs.Completeness
import NodeStore.Proofs.GuardedUpdates

namespace NodeStore

/-- The update reverts a change that its commit root records as committed, and the document itself as not
committed. -/
def IsDisputed (s : Store) (d : Document) (u : Update) : Prop :=
  ∃ r root, RevertsOn d u r root ∧ (s.recordAt? root r).isSome ∧ (d.valueAt? Property.revisions r).isSome ∧
    d.committedValue? r = none

namespace IsCorrection

variable {s : Store} {id : String} {d : Document} {path : Path} {u : Update}

theorem refuses_iff (h : IsCorrection s d path u) (hs : s.WellFormed) (hd : s.documents.get? id = some d) :
    s.refuses path u = true ↔ IsDisputed s d u := by
  rw [Store.refuses, List.any_eq_true, IsDisputed]
  constructor
  · intro hx
    obtain ⟨⟨r, root⟩, hnamed, hrecord⟩ := hx
    have hreverts := (h.mem_namedRoots r root).1 hnamed
    obtain ⟨rfl, sw, head, rfl⟩ := h.exists_correctionIn
    obtain ⟨-, hleft, hroot⟩ := Sweep.mem_namedRoots_correctionOf.1 hnamed
    cases hown : d.valueAt? Property.revisions r with
    | none => simp [Sweep.IsLeftover.recordAt? hs hd hleft hown hroot] at hrecord
    | some v =>
      refine ⟨r, root, hreverts, hrecord, by rw [hown]; rfl, ?_⟩
      rw [← s.commitOf_own d r v hown, hleft.2.1]
  · intro hx
    obtain ⟨r, root, hreverts, hrecord, -⟩ := hx
    exact ⟨(r, root), (h.mem_namedRoots r root).2 hreverts, hrecord⟩

theorem receive_run (h : IsCorrection s d path u) (ha : s.available = true) (hs : s.WellFormed)
    (hd : s.documents.get? id = some d) (tally : Tally) :
    ((Receiver.receive [(path, u)] tally).run s).value =
      if s.refuses path u then ((none, { tally with rejected := tally.rejected + 1 }), s)
      else ((none, { tally with applied := tally.applied + 1 }), s.put d.id (d.apply u)) := by
  have hupdate : d.meets u = true ∧ u.id = d.id := by
    obtain ⟨-, sw, head, rfl⟩ := h.exists_correctionIn
    exact ⟨Sweep.meets_correctionOf, sw.id_correctionOf head d _⟩
  have hstored : s.documents.get? u.id = some d := by rw [hupdate.2, (hs id d hd).1, hd]
  rw [Receiver.receive, Client.run_bind, Receiver.receiveOne_run ha hstored hupdate.1, hupdate.2]
  cases s.refuses path u <;> rfl

/-- The store that a correction was found in applies it, unless it reverts a change about which the document and
its commit root disagree. Such a correction is taken for one that came too late. -/
theorem applied_unless_disputed (h : IsCorrection s d path u) (ha : s.available = true) (hs : s.WellFormed)
    (hd : s.documents.get? id = some d) (tally : Tally) :
    (¬ IsDisputed s d u →
      ((Receiver.committedSince path (Receiver.namedRoots path u)).run s).value = (.ok false, s) ∧
      ((Receiver.receive [(path, u)] tally).run s).value =
        ((none, { tally with applied := tally.applied + 1 }), s.put d.id (d.apply u))) ∧
    (IsDisputed s d u →
      ((Receiver.committedSince path (Receiver.namedRoots path u)).run s).value = (.ok true, s) ∧
      ((Receiver.receive [(path, u)] tally).run s).value =
        ((none, { tally with rejected := tally.rejected + 1 }), s)) := by
  have hsince : ((Receiver.committedSince path (Receiver.namedRoots path u)).run s).value =
      (.ok (s.refuses path u), s) := Receiver.committedSince_run ha path _
  rw [← h.refuses_iff hs hd, h.receive_run ha hs hd, hsince]
  cases s.refuses path u with
  | true => exact ⟨fun hnot ↦ absurd rfl hnot, fun _ ↦ ⟨rfl, rfl⟩⟩
  | false => exact ⟨fun _ ↦ ⟨rfl, rfl⟩, fun hrefuses ↦ by cases hrefuses⟩

def branchWrite : Document := Receiver.pendingWrite.insertEntry Property.revisions (.onTrunk 100 0 1) "b64-0-1"

def disputedStore : Store :=
  .ofDocuments [(Document.blank .root).insertEntry Property.revisions (.onTrunk 100 0 1) "c", branchWrite]

def branchRevert : Update :=
  (Receiver.pendingSweep.correctionIn (.onTrunk 200 0 1) disputedStore branchWrite).update

theorem isCorrection_branchRevert : IsCorrection disputedStore branchWrite branchWrite.path branchRevert :=
  .of_hasChanges rfl (by decide +kernel)

open Receiver in
theorem applied_unless_disputed_pendingRevert :
    IsCorrection pendingStore pendingWrite pendingWrite.path pendingRevert ∧ pendingStore.available = true ∧
      pendingStore.WellFormed ∧ pendingStore.documents.get? "1:/a" = some pendingWrite ∧
      ¬ IsDisputed pendingStore pendingWrite pendingRevert ∧
      ((receive [(pendingWrite.path, pendingRevert)] .zero).run pendingStore).value =
        ((none, ⟨1, 0⟩), pendingStore.put pendingWrite.id (pendingWrite.apply pendingRevert)) := by
  have hs : pendingStore.WellFormed := by decide
  have hd : pendingStore.documents.get? "1:/a" = some pendingWrite := by decide
  have hdisputed : ¬ IsDisputed pendingStore pendingWrite pendingRevert := by
    rw [← isCorrection_pendingRevert.refuses_iff hs hd]
    decide +kernel
  exact ⟨isCorrection_pendingRevert, rfl, hs, hd, hdisputed,
    ((isCorrection_pendingRevert.applied_unless_disputed rfl hs hd .zero).1 hdisputed).2⟩

/-- Nothing changed since the write was found uncommitted, and its correction is rejected. -/
theorem exists_rejected_unchanged : ¬ ∀ (s : Store) (id : String) (d : Document) (path : Path) (u : Update)
    (tally : Tally), s.available = true → s.WellFormed → s.documents.get? id = some d → IsCorrection s d path u →
      ((Receiver.committedSince path (Receiver.namedRoots path u)).run s).value.1 = .ok false ∧
      ((Receiver.receive [(path, u)] tally).run s).value.1.2 = { tally with applied := tally.applied + 1 } := by
  intro claim
  have hagreed := (claim disputedStore "1:/a" branchWrite branchWrite.path branchRevert .zero rfl (by decide)
    (by decide) isCorrection_branchRevert).1
  have hsince : ((Receiver.committedSince branchWrite.path (Receiver.namedRoots branchWrite.path branchRevert)).run
      disputedStore).value.1 = .ok true := by decide +kernel
  cases hsince.symm.trans hagreed

end IsCorrection

end NodeStore
