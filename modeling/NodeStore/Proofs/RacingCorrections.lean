import NodeStore.Proofs.CommitsAdded
import NodeStore.Proofs.Completeness
import NodeStore.Proofs.GuardedUpdates

namespace NodeStore

def Document.MarksOnce (d : Document) (c : UInt32) : Prop :=
  ∀ r, r.clusterId = c → (d.valueAt? Property.commitRoot r).isSome → d.valueAt? Property.revisions r = none

namespace Sweep

/-- A leftover of the document `d`, swept in the store `s`, has a commit value in the store `t` and is still on
the document `e`. -/
def Raced (sw : Sweep) (head : Revision) (s : Store) (d : Document) (t : Store) (e : Document) : Prop :=
  ∃ name r, sw.Visits d name r ∧ sw.IsLeftover head d (s.commitOf d) r ∧ (e.valueAt? name r).isSome ∧
    (t.commitOf e r).isSome

/-- If there are leftovers on the document `e`, which became of `d`, then one was committed. -/
def Clears (sw : Sweep) (head : Revision) (s : Store) (d : Document) (t : Store) (e : Document) : Prop :=
  ∀ name r, sw.Visits e name r → sw.IsLeftover head e (t.commitOf e) r → sw.Raced head s d t e

variable {sw : Sweep} {head : Revision} {s t w : Store} {d e f : Document} {r : Revision}

theorem Raced.gains (hf : sw.filter Property.sweepRevision = false) (h : sw.Raced head s d t e)
    (hk : t.KeepsCommits w) (hef : e.Gains f) : sw.Raced head s d w f := by
  obtain ⟨name, r, hvisit, hleft, hv, hc⟩ := h
  exact ⟨name, r, hvisit, hleft, (hef r).isSome_valueAt? (hvisit.name_ne hf) hv,
    hk.isSome_commitOf (hef r) hc⟩

theorem Clears.gains (hf : sw.filter Property.sweepRevision = false) (h : sw.Clears head s d t e)
    (hk : t.KeepsCommits w) (hef : e.Gains f) : sw.Clears head s d w f := by
  intro name r hvisit hleft
  obtain ⟨hvisit', hleft'⟩ := leftover_before hf hk (hef r) hvisit hleft
  exact (h name r hvisit' hleft').gains hf hk hef

theorem clears_of_no_correction (hf : sw.filter Property.sweepRevision = false)
    (h : (sw.correctionIn head t d).update.hasChanges = false) (hk : t.KeepsCommits w) (hde : d.Gains e) :
    sw.Clears head s d w e := by
  intro name r hvisit hleft
  obtain ⟨hvisit', hleft'⟩ := leftover_before hf hk (hde r) hvisit hleft
  have hnone := (sw.update?_correctionOf_eq_none_iff head d _).1 (Correction.update?_eq_none_iff.2 h)
  exact absurd hleft' ((no_change_iff.1 hnone) name r hvisit').1

theorem raced_of_commit (hf : sw.filter Property.sweepRevision = false) (hs : s.KeepsCommits t) (hde : d.Gains e)
    {name : String} (hvisit : sw.Visits d name r) (hleft : sw.IsLeftover head d (t.commitOf d) r)
    (hc : (w.commitOf e r).isSome) : sw.Raced head s d w e := by
  refine ⟨name, r, hvisit, ⟨hleft.1, ?_, hleft.2.2⟩,
    (hde r).isSome_valueAt? (hvisit.name_ne hf) hvisit.2.1, hc⟩
  by_contra hold
  have hsome := hs.isSome_commitOf (Document.Gains.refl d r) (Option.isSome_iff_ne_none.2 hold)
  rw [hleft.2.1] at hsome
  cases hsome

theorem raced_of_refuses (hf : sw.filter Property.sweepRevision = false) (once : d.MarksOnce sw.clusterId)
    (hs : s.KeepsCommits t) (hde : d.Gains e) (he : w.documents.get? d.path.id = some e)
    (h : w.refuses d.path (sw.correctionIn head t d).update = true) : sw.Raced head s d w e := by
  obtain ⟨⟨r, root⟩, hnamed, hrecord⟩ := List.any_eq_true.1 h
  obtain ⟨⟨name, hvisit⟩, hleft, hroot⟩ := mem_namedRoots_correctionOf.1 hnamed
  refine raced_of_commit hf hs hde hvisit hleft ?_
  rcases (hde r).entries Property.revisions (by decide) with heq | ⟨-, hc⟩
  · obtain ⟨depth, hdepth, -⟩ := Option.bind_eq_some_iff.1 hroot
    have hnone : e.valueAt? Property.revisions r = none := by
      rw [heq, once r hleft.1 (by rw [hdepth]; rfl)]
    rw [Store.commitOf, hnone, (hde r).valueAt?_eq (by decide) (by decide), (hde r).path, hroot]
    simp only
    split
    next hself =>
      -- the commit root is the document itself, which has no record of the revision
      obtain ⟨e', he', hc⟩ := Store.isSome_recordAt?.1 hrecord
      rw [hself] at he'
      obtain rfl := Option.some.inj (he.symm.trans he')
      have hsome := Document.isSome_of_committedValue? hc
      rw [hnone] at hsome
      cases hsome
    next => exact hrecord
  · exact Store.isSome_commitOf_of_committed hc

theorem raced_of_not_meets (hf : sw.filter Property.sweepRevision = false) (hs : s.KeepsCommits t)
    (hde : d.Gains e) (h : e.meets (sw.correctionIn head t d).update ≠ true) : sw.Raced head s d w e := by
  by_contra hrace
  refine h (List.all_eq_true.2 fun hx he ↦ ?_)
  obtain ⟨k, c⟩ := hx
  have hc := (sw.conditions_correctionOf head d _ k c).1 (SortedMap.mem_entries_iff.1 he)
  cases hc with
  | @entry name r hvisit =>
    have hv := (hde r).isSome_valueAt? (hvisit.name_ne hf) hvisit.2.1
    simpa [Document.satisfies, Key.entry] using hv
  | @marker name r hvisit hleft =>
    have hrecord (hk : d.markerKey r = .entry Property.revisions r) :
        e.valueAt? Property.revisions r = d.valueAt? Property.revisions r :=
      ((hde r).entries Property.revisions (by decide)).resolve_right fun hc ↦
        hrace (raced_of_commit hf hs hde hvisit hleft (Store.isSome_commitOf_of_committed hc.2))
    rcases d.markerKey_eq r with hk | hk <;> rw [hk]
    · exact (d.satisfies_unchanged_iff e _ r).2 ((hde r).valueAt?_eq (by decide) (by decide))
    · exact (d.satisfies_unchanged_iff e _ r).2 (hrecord hk)
  | @mark name r hvisit hmerge =>
    have hmarked := (hde r).isMarked_eq.trans hmerge.1
    simpa [Document.satisfies, Key.entry, isMarked] using hmarked

theorem clears_apply (hf : sw.filter Property.sweepRevision = false) (hk : t.KeepsCommits w) (hde : d.Gains e) :
    sw.Clears head s d w (e.apply (sw.correctionIn head t d).update) := by
  have hpath := e.path_apply (sw.correctionIn head t d).update
  have hcases := sw.valueAt?_apply_cases head d (t.commitOf d) e
  have herased {name : String} {r : Revision} (hvisit : sw.Visits d name r)
      (hleft : sw.IsLeftover head d (t.commitOf d) r) := valueAt?_apply_of_change e (.entry hvisit hleft)
  unfold correctionIn at hpath ⊢
  generalize e.apply (sw.correctionOf head d (t.commitOf d)).update = after at hpath hcases herased ⊢
  intro name r hvisit hleft
  exfalso
  have hmark {name' : String} (hname : name' = Property.branchCommits) :
      after.valueAt? name' r ≠ some "true" := fun hv ↦ by
    have hunmarked := hleft.2.2.1
    rw [isMarked, ← hname, hv] at hunmarked
    cases hunmarked
  by_cases hrevert : sw.IsLeftover head d (t.commitOf d) r ∧ ∃ name', sw.Visits d name' r
  · -- every entry of a reverted revision is erased, but for a commit record that was added
    have hv := hvisit.2.1
    rcases hcases name r with hsame | ⟨hgone, -⟩ | ⟨hv', hname, -⟩
    · rcases (hde r).entries name (hvisit.name_ne hf) with heq | ⟨rfl, hc⟩
      · rw [hsame, heq] at hv
        have hgone := herased ⟨hvisit.1, hv, hvisit.2.2⟩ hrevert.1
        rw [hsame, heq] at hgone
        rw [hgone] at hv
        cases hv
      · rw [Document.committedValue?, ← hsame, ← Document.committedValue?] at hc
        have hsome := w.isSome_commitOf_of_committed hc
        rw [hleft.2.1] at hsome
        cases hsome
    · rw [hgone] at hv
      cases hv
    · exact hmark hname hv'
  · have hsame (name' : String) : after.valueAt? name' r = e.valueAt? name' r := by
      rcases hcases name' r with h | ⟨-, h⟩ | ⟨hv, hname, -⟩
      · exact h
      · exact absurd h hrevert
      · exact absurd hv (hmark hname)
    have hgains : d.GainsAt after r := by
      refine ⟨hpath.trans (hde r).path, fun name' hsweep ↦ ?_⟩
      rw [hsame, Document.committedValue?, hsame, ← Document.committedValue?]
      exact (hde r).entries name' hsweep
    obtain ⟨hvisit', hleft'⟩ := leftover_before hf hk hgains hvisit hleft
    exact hrevert ⟨hleft', name, hvisit'⟩

theorem no_change_of_commitRoot {commit : Revision → Option String}
    (hroot : (d.valueAt? Property.commitRoot r).isSome) (hrecord : d.valueAt? Property.revisions r = none)
    (c : Change) : ¬ sw.TableChange head d commit (.entry Property.revisions r) c := by
  intro hc
  have hkey : d.markerKey r = .entry Property.commitRoot r := if_pos hroot
  generalize hk : Key.entry Property.revisions r = k at hc
  have hname := congrArg Key.name hk
  have hrevision := congrArg Key.revision hk
  cases hc with
  | entry hvisit =>
    obtain rfl : Property.revisions = _ := hname
    obtain rfl := Option.some.inj hrevision
    have hv := hvisit.2.1
    rw [hrecord] at hv
    cases hv
  | marker =>
    obtain rfl := Option.some.inj (hrevision.trans (d.markerKey_revision _))
    rw [hkey] at hname
    exact absurd (show Property.revisions = Property.commitRoot from hname) (by decide)
  | mark => exact absurd (show Property.revisions = Property.branchCommits from hname) (by decide)
  | flag => cases hrevision

theorem isSome_committedValue?_apply (once : d.MarksOnce sw.clusterId)
    (hm : e.meets (sw.correctionIn head t d).update = true) (hc : (e.committedValue? r).isSome) :
    ((e.apply (sw.correctionIn head t d).update).committedValue? r).isSome := by
  rcases sw.valueAt?_apply_cases head d (t.commitOf d) e Property.revisions r
    with hsame | ⟨hgone, hleft, name, hvisit⟩ | ⟨-, hname, -⟩
  · rwa [Document.committedValue?, correctionIn, hsame, ← Document.committedValue?]
  · cases hroot : d.valueAt? Property.commitRoot r with
    | none =>
      have hreverts : (sw.correctionIn head t d).update.Reverts r :=
        ⟨name, (sw.changes_correctionOf head d _ _ _).2 (.entry hvisit hleft)⟩
      rw [((pins_of_meets (t.commitOf_own d) hm).commits r hreverts hroot).2.2] at hc
      cases hc
    | some depth =>
      have hsome : (d.valueAt? Property.commitRoot r).isSome := by rw [hroot]; rfl
      have hkept : ∀ c, ¬ sw.TableChange head d (t.commitOf d) (.entry Property.revisions r) c :=
        no_change_of_commitRoot hsome (once r hleft.1 hsome)
      have hsame := valueAt?_apply_of_no_change e hkept
      have hv := Document.isSome_of_committedValue? hc
      rw [← hsame, hgone] at hv
      cases hv
  · exact absurd hname (by decide)

end Sweep

end NodeStore
