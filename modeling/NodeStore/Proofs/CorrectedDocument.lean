import NodeStore.Proofs.DecisionTable
import NodeStore.Store.Basic

namespace NodeStore

theorem Document.satisfies_unchanged (d : Document) (k : Key) : d.satisfies k (d.unchanged k) = true := by
  unfold satisfies unchanged
  cases k.revision.bind (d.valueAt? k.name) <;> simp

namespace Sweep

variable {s : Sweep} {head : Revision} {d : Document} {commit : Revision → Option String}

def corrected (s : Sweep) (head : Revision) (d : Document) (commit : Revision → Option String) : Document :=
  d.apply (s.correctionOf head d commit).update

theorem meets_correctionOf : d.meets (s.correctionOf head d commit).update = true := by
  rw [Document.meets, List.all_eq_true]
  intro hx he
  obtain ⟨k, c⟩ := hx
  have hc := (s.conditions_correctionOf head d commit k c).1 (SortedMap.mem_entries_iff.1 he)
  cases hc with
  | entry hvisit =>
    simpa [Document.satisfies, Key.entry] using hvisit.2.1
  | marker => exact d.satisfies_unchanged _
  | mark _ hmerge =>
    simpa [Document.satisfies, Key.entry, isMarked] using hmerge.1

theorem TableChange.at_entry {name : String} {r : Revision} {c : Change}
    (h : s.TableChange head d commit (.entry name r) c) :
    (c = .eraseEntry ∧ s.IsLeftover head d commit r ∧ ∃ name', s.Visits d name' r) ∨
      (c = .insertEntry "true" ∧ name = Property.branchCommits ∧ IsUnmarkedMerge d commit r ∧
        ∃ name', s.Visits d name' r) := by
  generalize hk : Key.entry name r = k at h
  have revision := congrArg Key.revision hk
  cases h with
  | entry hvisit hleft =>
    obtain rfl : r = _ := Option.some.inj revision
    exact .inl ⟨rfl, hleft, _, hvisit⟩
  | marker hvisit hleft =>
    obtain rfl : r = _ := Option.some.inj (revision.trans (d.markerKey_revision _))
    exact .inl ⟨rfl, hleft, _, hvisit⟩
  | mark hvisit hmerge =>
    obtain rfl : r = _ := Option.some.inj revision
    exact .inr ⟨rfl, congrArg Key.name hk, hmerge, _, hvisit⟩
  | flag => simp [Key.entry] at hk

section Applied

variable (e : Document)

theorem valueAt?_apply_of_change {name : String} {r : Revision} {c : Change}
    (h : s.TableChange head d commit (.entry name r) c) :
    (e.apply (s.correctionOf head d commit).update).valueAt? name r = c.effect (e.valueAt? name r) := by
  have hc : (s.correctionOf head d commit).update.change? name (some r) = some c :=
    (s.changes_correctionOf head d commit _ c).2 h
  rw [Document.valueAt?_apply, hc]

theorem valueAt?_apply_of_no_change {name : String} {r : Revision}
    (h : ∀ c, ¬ s.TableChange head d commit (.entry name r) c) :
    (e.apply (s.correctionOf head d commit).update).valueAt? name r = e.valueAt? name r := by
  have none : (s.correctionOf head d commit).update.change? name (some r) = none :=
    Option.eq_none_iff_forall_ne_some.2 fun c hc ↦ h c ((s.changes_correctionOf head d commit _ c).1 hc)
  rw [Document.valueAt?_apply, none]

variable (s head d commit) in
theorem valueAt?_apply_cases (name : String) (r : Revision) :
    (e.apply (s.correctionOf head d commit).update).valueAt? name r = e.valueAt? name r ∨
      ((e.apply (s.correctionOf head d commit).update).valueAt? name r = none ∧
        s.IsLeftover head d commit r ∧ ∃ name', s.Visits d name' r) ∨
      ((e.apply (s.correctionOf head d commit).update).valueAt? name r = some "true" ∧
        name = Property.branchCommits ∧ IsUnmarkedMerge d commit r ∧ ∃ name', s.Visits d name' r) := by
  by_cases h : ∃ c, s.TableChange head d commit (.entry name r) c
  · obtain ⟨c, hc⟩ := h
    have value := valueAt?_apply_of_change e hc
    rcases hc.at_entry with ⟨rfl, hleft⟩ | ⟨rfl, hmark⟩
    · exact .inr (.inl ⟨value, hleft⟩)
    · exact .inr (.inr ⟨value, hmark⟩)
  · exact .inl (valueAt?_apply_of_no_change e fun c hc ↦ h ⟨c, hc⟩)

end Applied

theorem valueAt?_corrected_of_change {name : String} {r : Revision} {c : Change}
    (h : s.TableChange head d commit (.entry name r) c) :
    (s.corrected head d commit).valueAt? name r = c.effect (d.valueAt? name r) := valueAt?_apply_of_change d h

variable (s head d commit) in
theorem valueAt?_corrected_cases (name : String) (r : Revision) :
    (s.corrected head d commit).valueAt? name r = d.valueAt? name r ∨
      ((s.corrected head d commit).valueAt? name r = none ∧ s.IsLeftover head d commit r ∧
        ∃ name', s.Visits d name' r) ∨
      ((s.corrected head d commit).valueAt? name r = some "true" ∧ name = Property.branchCommits ∧
        IsUnmarkedMerge d commit r ∧ ∃ name', s.Visits d name' r) :=
  s.valueAt?_apply_cases head d commit d name r

variable (s head d commit) in
theorem valueAt?_corrected_of_ne {name : String} (hname : name ≠ Property.branchCommits) (r : Revision) :
    (s.corrected head d commit).valueAt? name r = d.valueAt? name r ∨
      ((s.corrected head d commit).valueAt? name r = none ∧ s.IsLeftover head d commit r ∧
        ∃ name', s.Visits d name' r) := by
  rcases s.valueAt?_corrected_cases head d commit name r with h | h | h
  · exact .inl h
  · exact .inr h
  · exact absurd h.2.1 hname

theorem valueAt?_corrected_of_not_leftover {name : String} (hname : name ≠ Property.branchCommits)
    {r : Revision} (h : ¬ s.IsLeftover head d commit r) :
    (s.corrected head d commit).valueAt? name r = d.valueAt? name r :=
  (s.valueAt?_corrected_of_ne head d commit hname r).resolve_right fun hleft ↦ h hleft.2.1

theorem no_change_of_unselected {name : String} (hf : s.filter name = false)
    (hname : name ≠ Property.branchCommits ∧ name ≠ Property.commitRoot ∧ name ≠ Property.revisions)
    (r : Revision) (c : Change) : ¬ s.TableChange head d commit (.entry name r) c := by
  intro hc
  generalize hk : Key.entry name r = k at hc
  have same := congrArg Key.name hk
  cases hc with
  | @entry name' _ hvisit =>
    obtain rfl : name = name' := same
    cases hf.symm.trans hvisit.1
  | @marker _ r' =>
    rcases d.markerKey_eq r' with h | h <;> rw [h] at same
    · exact hname.2.1 same
    · exact hname.2.2 same
  | mark => exact hname.1 same
  | flag => simp [Key.entry] at hk

@[simp]
theorem id_corrected : (s.corrected head d commit).id = d.id := d.id_apply _

@[simp]
theorem path_corrected : (s.corrected head d commit).path = d.path := d.path_apply _

theorem deletedOnce_corrected (h : d.deletedOnce = true) : (s.corrected head d commit).deletedOnce = true := by
  refine d.deletedOnce_apply (fun k hk ↦ ?_) h
  have := (s.changes_correctionOf head d commit k _).1 hk
  cases this

variable (s head) in
theorem committedValue?_corrected
    (own : ∀ r v, d.valueAt? Property.revisions r = some v → commit r = d.committedValue? r) (r : Revision) :
    (s.corrected head d commit).committedValue? r = d.committedValue? r := by
  have hne : Property.revisions ≠ Property.branchCommits := by decide
  rcases s.valueAt?_corrected_of_ne head d commit hne r with h | ⟨h, hleft, -⟩
  · rw [Document.committedValue?, h, Document.committedValue?]
  · rw [Document.committedValue?, h, Option.filter_none]
    cases hv : d.valueAt? Property.revisions r with
    | none => rw [Document.committedValue?, hv, Option.filter_none]
    | some v => rw [← own r v hv, hleft.2.1]

theorem isMarked_corrected {r : Revision} (h : isMarked d r = true) :
    isMarked (s.corrected head d commit) r = true := by
  unfold isMarked
  rcases s.valueAt?_corrected_cases head d commit Property.branchCommits r
    with hv | ⟨-, hleft, -⟩ | ⟨hv, -⟩
  · rw [hv]
    exact h
  · rw [hleft.2.2.1] at h
    cases h
  · rw [hv]
    rfl

theorem no_change_iff : (∀ k c, ¬ s.TableChange head d commit k c) ↔
    ∀ name r, s.Visits d name r → ¬ s.IsLeftover head d commit r ∧ ¬ IsUnmarkedMerge d commit r := by
  constructor
  · intro h name r hvisit
    exact ⟨fun hleft ↦ h _ _ (.entry hvisit hleft), fun hmerge ↦ h _ _ (.mark hvisit hmerge)⟩
  · intro h k c hc
    cases hc with
    | entry hvisit hleft | marker hvisit hleft => exact (h _ _ hvisit).1 hleft
    | mark hvisit hmerge => exact (h _ _ hvisit).2 hmerge
    | flag hf _ hleft hcreated => exact (h _ _ ⟨hf, by rw [hcreated]; rfl, hleft.1⟩).1 hleft

theorem visits_before_correction {name : String} {r : Revision}
    (hvisit : s.Visits (s.corrected head d commit) name r) :
    (∃ name', s.Visits d name' r) ∧ ¬ s.IsLeftover head d commit r := by
  obtain ⟨hf, hv, hown⟩ := hvisit
  rcases s.valueAt?_corrected_cases head d commit name r with h | ⟨h, -⟩ | ⟨-, -, ⟨-, value, hvalue, -⟩, hbefore⟩
  · rw [h] at hv
    refine ⟨⟨name, hf, hv, hown⟩, fun hleft ↦ ?_⟩
    have herased := valueAt?_corrected_of_change (.entry ⟨hf, hv, hown⟩ hleft)
    rw [← h, herased] at hv
    cases hv
  · rw [h] at hv
    cases hv
  · exact ⟨hbefore, fun hleft ↦ by cases hvalue.symm.trans hleft.2.1⟩

/-- Nothing is left to correct on a corrected document, as long as the commit values stay the same. -/
theorem no_change_corrected (k : Key) (c : Change) :
    ¬ s.TableChange head (s.corrected head d commit) commit k c := by
  revert k c
  rw [no_change_iff]
  intro name r hvisit
  obtain ⟨⟨name', hbefore⟩, hkept⟩ := visits_before_correction hvisit
  have unmarked (h : isMarked (s.corrected head d commit) r = false) : isMarked d r = false := by
    rw [← Bool.not_eq_true] at h ⊢
    exact fun hm ↦ h (isMarked_corrected hm)
  refine ⟨fun hleft ↦ hkept ⟨hleft.1, hleft.2.1, unmarked hleft.2.2.1, hleft.2.2.2⟩, fun hmerge ↦ ?_⟩
  have hchange : s.TableChange head d commit (.entry Property.branchCommits r) (.insertEntry "true") :=
    .mark hbefore ⟨unmarked hmerge.1, hmerge.2⟩
  have hmark := valueAt?_corrected_of_change hchange
  have hm := hmerge.1
  rw [isMarked, hmark] at hm
  cases hm

end Sweep

end NodeStore
