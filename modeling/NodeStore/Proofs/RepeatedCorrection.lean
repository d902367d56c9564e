import NodeStore.Proofs.CommitRecords
import NodeStore.Sweep.Member

namespace NodeStore

/-- A look-up by the revision alone, or by the commit records of a store. -/
inductive CommitLookup.IsSteady : CommitLookup → Prop
  | table {lookup : CommitLookup} : (∀ d e r, (lookup d r).value = (lookup e r).value) → IsSteady lookup
  | store (world : Receiving) : IsSteady (Surroundings.ofStore.lookup world)

namespace Sweep

variable {sw : Sweep} {head : Revision} {d : Document} {commit : Revision → Option String}

theorem commitValue_corrected (s : Store) {r : Revision} (h : ¬ sw.IsLeftover head d commit r) :
    s.commitValue (sw.corrected head d commit) r = s.commitValue d r := by
  have hrecord : (sw.corrected head d commit).valueAt? Property.revisions r = d.valueAt? Property.revisions r :=
    valueAt?_corrected_of_not_leftover (by decide) h
  have hroot : (sw.corrected head d commit).valueAt? Property.commitRoot r = d.valueAt? Property.commitRoot r :=
    valueAt?_corrected_of_not_leftover (by decide) h
  simp only [Store.commitValue, Document.committedValue?, hrecord, hroot, path_corrected]

theorem value_lookup_corrected {lookup : CommitLookup} (hl : lookup.IsSteady) {r : Revision}
    (h : ¬ sw.IsLeftover head d commit r) :
    (lookup (sw.corrected head d commit) r).value = (lookup d r).value := by
  cases hl with
  | table same => exact same _ d r
  | store world =>
    have hread (e : Document) : (Surroundings.ofStore.lookup world e r).value = world.store.commitValue e r := rfl
    rw [hread, hread, commitValue_corrected world.store h]

/-- The correction of a document holds on it, and leaves nothing to correct. -/
theorem correct_once {lookup : CommitLookup} (hl : lookup.IsSteady) {c : Correction} {u : Update}
    (hc : (sw.correct lookup head d.view).value = (c, none)) (hu : c.update? = some u) :
    d.meets u = true ∧
      let again := (sw.correct lookup head (d.apply u).view).value
      again.1.update? = none ∧ again.2 = none := by
  let commit (r : Revision) : Option String := (lookup d r).value.toOption.join
  have hcommit (r : Revision) (value : Option String) (h : (lookup d r).value = .ok value) : commit r = value := by
    simp only [commit, h, Except.toOption, Option.join_some]
  obtain rfl := sw.correct_value_of_success head d commit hcommit hc
  obtain rfl := update?_correctionOf hu
  have hfound (name : String) (r : Revision) (hvisit : sw.Visits d name r) :
      (lookup d r).value = .ok (commit r) := by
    have hsuccess : (sw.examine lookup head d (sw.entries d.view)).value.2 = none := congrArg Prod.snd hc
    obtain ⟨value, h⟩ :=
      sw.exists_value_of_success head d hsuccess (name, r) ((sw.mem_entries_view d).2 hvisit)
    rw [h, hcommit r value h]
  have hagain : (sw.correct lookup head (sw.corrected head d commit).view).value =
      (sw.correctionOf head (sw.corrected head d commit) commit, none) := by
    refine sw.correct_value_of_visits head _ commit fun name r hvisit ↦ ?_
    obtain ⟨⟨name', hbefore⟩, hkept⟩ := visits_before_correction hvisit
    rw [value_lookup_corrected hl hkept, hfound name' r hbefore]
  have hidle : (sw.correctionOf head (sw.corrected head d commit) commit).update? = none :=
    (sw.update?_correctionOf_eq_none_iff head _ commit).2 no_change_corrected
  refine ⟨meets_correctionOf, ?_⟩
  rw [← corrected, hagain]
  simp only [hidle, and_self]

def branchWrites : Document :=
  { Document.blank ⟨["pages"], by decide⟩ with maps := .ofList [
      ("p", .ofList [(.onTrunk 99 0 1, "draft"), (.onTrunk 100 0 1, "old")]),
      (Property.deleted, .ofList [(.onTrunk 101 0 1, Property.notDeleted)]),
      (Property.branchCommits, .ofList [(.onTrunk 99 0 1, "true")]),
      (Property.commitRoot, .ofList [(.onTrunk 100 0 1, "0"), (.onTrunk 101 0 1, "0")])] }

def mergedOnRoot : Receiving :=
  ⟨.ofDocuments [{ Document.blank .root with maps := .ofList [
      (Property.revisions, .ofList [(.onTrunk 100 0 1, "c-rc8-0-1")])] }, branchWrites], .zero⟩

/-- A sweep of every property, also of marks and checkpoints. -/
def sweepOfAll : Sweep := ⟨1, .empty, .standard, fun _ ↦ true⟩

def branchCorrection : Correction :=
  sweepOfAll.correctionOf (.onTrunk 200 0 1) branchWrites (mergedOnRoot.store.commitOf branchWrites)

theorem correct_once_branchWrites :
    (Surroundings.ofStore.lookup mergedOnRoot).IsSteady ∧
      (sweepOfAll.correct (Surroundings.ofStore.lookup mergedOnRoot) (.onTrunk 200 0 1) branchWrites.view).value =
        (branchCorrection, none) ∧
      branchCorrection.update? = some branchCorrection.update ∧
      (branchWrites.meets branchCorrection.update = true ∧
        let again := (sweepOfAll.correct (Surroundings.ofStore.lookup mergedOnRoot) (.onTrunk 200 0 1)
          (branchWrites.apply branchCorrection.update).view).value
        again.1.update? = none ∧ again.2 = none) ∧
      branchCorrection.reverted = 2 ∧ branchCorrection.marked = 1 := by
  have hl : (Surroundings.ofStore.lookup mergedOnRoot).IsSteady := .store mergedOnRoot
  have hlookup (r : Revision) : (Surroundings.ofStore.lookup mergedOnRoot branchWrites r).value =
      .ok (mergedOnRoot.store.commitOf branchWrites r) := Store.commitValue_eq_ok rfl branchWrites r
  have hc : (sweepOfAll.correct (Surroundings.ofStore.lookup mergedOnRoot) (.onTrunk 200 0 1)
      branchWrites.view).value = (branchCorrection, none) := by
    rw [sweepOfAll.correct_value (.onTrunk 200 0 1) branchWrites (mergedOnRoot.store.commitOf branchWrites) hlookup,
      branchCorrection]
  have hu : branchCorrection.update? = some branchCorrection.update := by decide +kernel
  refine ⟨hl, hc, hu, correct_once hl hc hu, ?_, ?_⟩
  · decide +kernel
  · decide +kernel

end Sweep

end NodeStore
