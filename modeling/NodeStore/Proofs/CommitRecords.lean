import NodeStore.Proofs.CorrectedDocument

namespace NodeStore

namespace Store

def WellFormed (s : Store) : Prop :=
  ∀ key d, s.documents.get? key = some d → d.id = key ∧ d.path.id = key

theorem ext_get? {s t : Store} (available : s.available = t.available)
    (documents : ∀ id, s.documents.get? id = t.documents.get? id) : s = t := by
  cases s
  cases t
  exact (Store.mk.injEq ..).mpr ⟨SortedMap.ext_get? documents, available⟩

def recordAt? (s : Store) (p : Path) (r : Revision) : Option String :=
  (s.documents.get? p.id).bind (·.committedValue? r)

/-- The commit value of a change, read from an available store. -/
def commitOf (s : Store) (d : Document) (r : Revision) : Option String :=
  match d.valueAt? Property.revisions r with
  | some _ => d.committedValue? r
  | none =>
    match (d.valueAt? Property.commitRoot r).bind d.path.ancestorAtText? with
    | none => none
    | some root => if root = d.path then none else s.recordAt? root r

variable {s t : Store} {d : Document} {r : Revision}

theorem commitValue_eq_ok (h : s.available = true) (d : Document) (r : Revision) :
    s.commitValue d r = .ok (s.commitOf d r) := by
  unfold commitValue commitOf
  cases hv : d.valueAt? Property.revisions r with
  | some v => rfl
  | none =>
    cases hroot : (d.valueAt? Property.commitRoot r).bind d.path.ancestorAtText? with
    | none => rfl
    | some root =>
      by_cases hself : root = d.path
      · simp only [if_pos hself]
      · simp only [if_neg hself, findAt, find, if_pos h]
        rfl

theorem commitOf_of_commitValue {value : Option String} (h : s.commitValue d r = .ok value) :
    s.commitOf d r = value := by
  cases ha : s.available with
  | true => exact Except.ok.inj ((commitValue_eq_ok ha d r).symm.trans h)
  | false =>
    unfold commitValue at h
    unfold commitOf
    cases hv : d.valueAt? Property.revisions r with
    | some v =>
      rw [hv] at h
      exact Except.ok.inj h
    | none =>
      rw [hv] at h
      cases hroot : (d.valueAt? Property.commitRoot r).bind d.path.ancestorAtText? with
      | none =>
        rw [hroot] at h
        exact Except.ok.inj h
      | some root =>
        rw [hroot] at h
        by_cases hself : root = d.path
        · simp only [if_pos hself] at h ⊢
          exact Except.ok.inj h
        · simp [hself, findAt, find, ha, Except.map] at h

theorem commitOf_own (s : Store) (d : Document) (r : Revision) (v : String)
    (h : d.valueAt? Property.revisions r = some v) : s.commitOf d r = d.committedValue? r := by
  rw [commitOf, h]

theorem commitOf_congr (records : ∀ p r, t.recordAt? p r = s.recordAt? p r) : t.commitOf = s.commitOf := by
  funext d r
  simp only [commitOf, records]

/-- A correction leaves the commit values of its document as they were, if commit roots and commit records are
swept as well. -/
theorem commitOf_corrected {sw : Sweep} {head : Revision} (hrecords : sw.filter Property.revisions = true)
    (hroots : sw.filter Property.commitRoot = true) (r : Revision) :
    s.commitOf (sw.corrected head d (s.commitOf d)) r = s.commitOf d r := by
  have erased {name : String} (hf : sw.filter name = true) (hname : name ≠ Property.branchCommits)
      (hleft : sw.IsLeftover head d (s.commitOf d) r) :
      (sw.corrected head d (s.commitOf d)).valueAt? name r = none := by
    cases hv : d.valueAt? name r with
    | none =>
      rcases sw.valueAt?_corrected_of_ne head d (s.commitOf d) hname r with h | h
      · exact h.trans hv
      · exact h.1
    | some v => exact Sweep.valueAt?_corrected_of_change (.entry ⟨hf, by rw [hv]; rfl, hleft.1⟩ hleft)
  by_cases hleft : sw.IsLeftover head d (s.commitOf d) r
  · rw [hleft.2.1, commitOf, erased hrecords (by decide) hleft, erased hroots (by decide) hleft]
    rfl
  · have hcommitted := sw.committedValue?_corrected head (s.commitOf_own d) r
    rw [commitOf, commitOf, Sweep.valueAt?_corrected_of_not_leftover (by decide) hleft,
      Sweep.valueAt?_corrected_of_not_leftover (by decide) hleft, hcommitted, Sweep.path_corrected]

end Store

end NodeStore
