import NodeStore.Proofs.CommitForms
import NodeStore.Proofs.CommitRecords
import NodeStore.Sweep.Member

namespace NodeStore

namespace CommitValue

variable {value : String} {r merge : Revision}

/-- The value is `c-` and a text of `merge`. -/
def NamesMerge (value : String) (merge : Revision) : Prop := ∃ t, value = "c-" ++ t ∧ Revision.parse t = .ok merge

theorem parse?_eq_mergedBranch_iff : parse? value = some (.mergedBranch merge) ↔ NamesMerge value merge := by
  rw [parse?_eq_some_iff]
  constructor
  · intro h
    cases h with
    | mergedBranch hmerge => exact ⟨_, rfl, Revision.parse_eq_ok_iff.2 hmerge⟩
  · rintro ⟨t, rfl, hmerge⟩
    exact .mergedBranch (Revision.parse_eq_ok_iff.1 hmerge)

theorem NamesMerge.resolve_eq (h : NamesMerge value merge) (r : Revision) : resolve r value = merge := by
  rw [resolve, parse?_eq_mergedBranch_iff.2 h]
  rfl

theorem resolve_of_no_merge (h : ∀ merge, ¬ NamesMerge value merge) (r : Revision) : resolve r value = r := by
  rw [resolve]
  cases hv : parse? value with
  | none => rfl
  | some v =>
    cases v with
    | trunk => rfl
    | mergedBranch merge => exact absurd (parse?_eq_mergedBranch_iff.1 hv) (h merge)

theorem resolve_eq_iff_of_ne (hne : merge ≠ r) : resolve r value = merge ↔ NamesMerge value merge := by
  refine ⟨fun h ↦ ?_, fun h ↦ h.resolve_eq r⟩
  by_contra hnot
  refine hne (h.symm.trans (resolve_of_no_merge (fun other hother ↦ ?_) r))
  have hsame : other = merge := (hother.resolve_eq r).symm.trans h
  exact hnot (hsame ▸ hother)

theorem text_mergedBranch_isCanonical (merge : Revision) :
    ∃ t, (mergedBranch merge).text = "c-" ++ t ∧ merge.IsCanonical t := by
  refine ⟨merge.text, String.toList_injective ?_, Revision.isCanonical_iff.2 rfl⟩
  simp [text, Revision.text]

end CommitValue

open CommitValue

/-- The store has a commit value of the change at `r` on `d` that names another revision. -/
def Store.RecordsMerge (s : Store) (d : Document) (r merge : Revision) : Prop :=
  ∃ value, s.commitValue d r = .ok (some value) ∧ NamesMerge value merge ∧ merge ≠ r

namespace Sweep

variable {s : Sweep} {head : Revision} {d : Document} {f : Finding} {r merge : Revision} {world : Receiving}

theorem judge_eq_merged_iff_namesMerge {value : Option String} : s.judge head d r value = .merged merge ↔
    ∃ v, value = some v ∧ NamesMerge v merge ∧ merge ≠ r := by
  cases value with
  | none =>
    have hnone : s.judge head d r none ≠ .merged merge := by
      simp only [judge]
      split
      · simp
      · split <;> simp
    simp [hnone]
  | some v =>
    have hjudge : s.judge head d r (some v) = .merged merge ↔ resolve r v = merge ∧ merge ≠ r := by
      unfold judge
      by_cases h : resolve r v = r
      · simp [h, eq_comm]
      · simp only [if_neg h, Verdict.merged.injEq, iff_self_and]
        rintro rfl
        exact h
    rw [hjudge, and_congr_left resolve_eq_iff_of_ne]
    simp

theorem isUnmarkedMerge_iff {commit : Revision → Option String} : IsUnmarkedMerge d commit r ↔
    isMarked d r = false ∧ ∃ merge value, commit r = some value ∧ NamesMerge value merge ∧ merge ≠ r := by
  rw [exists_comm]
  refine and_congr_right fun _ ↦ exists_congr fun value ↦ ?_
  rw [exists_and_left]
  refine and_congr_right fun _ ↦ ⟨fun hne ↦ ⟨_, (resolve_eq_iff_of_ne hne).1 rfl, hne⟩, ?_⟩
  rintro ⟨merge, hmerge, hne⟩
  rwa [hmerge.resolve_eq r]

theorem lookup_of_mem_examine {lookup : CommitLookup} {es : List (String × Revision)}
    (hf : f ∈ (s.examine lookup head d es).value.1) :
    ∃ value, (lookup d f.revision).value = .ok value ∧ f.verdict = s.judge head d f.revision value := by
  induction es with
  | nil => cases hf
  | cons e es ih =>
    cases hv : (lookup d e.2).value with
    | error cause => simp [examine, hv] at hf
    | ok value =>
      simp only [examine, Logged.value_bind, Logged.value_pure, hv, List.mem_cons] at hf
      obtain rfl | hf := hf
      · exact ⟨value, hv, rfl⟩
      · exact ih hf

theorem verdict_eq_merged_iff {v : View} (hf : f ∈ (s.findings (Surroundings.ofStore.lookup world) head v).value.1) :
    f.verdict = .merged merge ↔ world.store.RecordsMerge v.document f.revision merge := by
  obtain ⟨value, hvalue, hverdict⟩ := lookup_of_mem_examine hf
  have hread : world.store.commitValue v.document f.revision = .ok value := hvalue
  rw [hverdict, judge_eq_merged_iff_namesMerge, Store.RecordsMerge, hread]
  simp only [Except.ok.injEq]

theorem marks_iff {c : Correction}
    (h : (s.correct (Surroundings.ofStore.lookup world) head d.view).value = (c, none)) :
    c.update.change? Property.branchCommits (some r) = some (.insertEntry "true") ↔
      isMarked d r = false ∧ (∃ name, s.Visits d name r) ∧ ∃ merge, world.store.RecordsMerge d r merge := by
  have hcommit (r : Revision) (value : Option String)
      (hvalue : (Surroundings.ofStore.lookup world d r).value = .ok value) : world.store.commitOf d r = value :=
    Store.commitOf_of_commitValue hvalue
  have hmerge {name : String} (hvisit : s.Visits d name r) : IsUnmarkedMerge d (world.store.commitOf d) r ↔
      isMarked d r = false ∧ ∃ merge, world.store.RecordsMerge d r merge := by
    obtain ⟨value, hvalue⟩ :=
      s.exists_value_of_success head d (congrArg Prod.snd h) (name, r) ((s.mem_entries_view d).2 hvisit)
    have hread : world.store.commitValue d r = .ok value := hvalue
    simp only [isUnmarkedMerge_iff, Store.RecordsMerge, hcommit r value hvalue, hread, Except.ok.injEq]
  obtain rfl := s.correct_value_of_success head d (world.store.commitOf d) hcommit h
  refine (s.changes_correctionOf head d (world.store.commitOf d) _ _).trans ?_
  constructor
  · intro hchange
    obtain ⟨hc, -⟩ | ⟨-, -, hunmarked, name, hvisit⟩ := hchange.at_entry
    · cases hc
    · obtain ⟨hmark, hrecord⟩ := (hmerge hvisit).1 hunmarked
      exact ⟨hmark, ⟨name, hvisit⟩, hrecord⟩
  · rintro ⟨hmark, ⟨name, hvisit⟩, hrecord⟩
    exact .mark hvisit ((hmerge hvisit).2 ⟨hmark, hrecord⟩)

end Sweep

namespace CommitValue

/-- What is written is read back as the same outcome, and counts as a commit. A value stands for a merge, and resolves
to it, exactly if it names the revision of the merge; any other value resolves to the change itself. A sweep finds a
change merged, and marks it, exactly if its commit value names a revision other than the one of the change. -/
theorem resolves_iff_namesMerge (v : CommitValue) (value : String) (r : Revision) (s : Sweep) (world : Receiving)
    (head : Revision) (d : Document) :
    (parse? v.text = some v ∧ recordsCommit v.text = true ∧ resolve r v.text = v.commitRevision r) ∧
      (∀ merge, parse? value = some (.mergedBranch merge) ↔ NamesMerge value merge) ∧
      (∀ merge, ∃ t, (mergedBranch merge).text = "c-" ++ t ∧ merge.IsCanonical t) ∧
      (∀ merge, NamesMerge value merge → resolve r value = merge) ∧
      ((∀ merge, ¬ NamesMerge value merge) → resolve r value = r) ∧
      (∀ f ∈ (s.findings (Surroundings.ofStore.lookup world) head d.view).value.1, ∀ merge,
        f.verdict = .merged merge ↔ world.store.RecordsMerge d f.revision merge) ∧
      ∀ c, (s.correct (Surroundings.ofStore.lookup world) head d.view).value = (c, none) →
        (c.update.change? Property.branchCommits (some r) = some (.insertEntry "true") ↔
          Sweep.isMarked d r = false ∧ (∃ name, s.Visits d name r) ∧
            ∃ merge, world.store.RecordsMerge d r merge) :=
  ⟨⟨parse?_text v, recordsCommit_text v, resolve_text r v⟩, fun _ ↦ parse?_eq_mergedBranch_iff,
    text_mergedBranch_isCanonical, fun _ h ↦ h.resolve_eq r, fun h ↦ resolve_of_no_merge h r,
    fun _ hf _ ↦ Sweep.verdict_eq_merged_iff hf, fun _ ↦ Sweep.marks_iff⟩

def mergedAtOnce : Document :=
  ((Document.blank .root).insertEntry "p" (.onTrunk 10 0 1) "new").insertEntry Property.revisions (.onTrunk 10 0 1)
    "c-b0A-0-1"

def sweepOfFirst : Sweep := ⟨1, .empty, .standard, .relevant⟩

def markAtOnce : Correction :=
  (sweepOfFirst.correct (Surroundings.ofStore.lookup ⟨.empty, .zero⟩) (.onTrunk 200 0 1) mergedAtOnce.view).value.1

theorem resolves_iff_namesMerge_mergedAtOnce :
    NamesMerge "c-b0A-0-1" (.onBranch 10 0 1) ∧ (∀ merge, ¬ NamesMerge "c-garbage" merge) ∧
      (sweepOfFirst.correct (Surroundings.ofStore.lookup ⟨.empty, .zero⟩) (.onTrunk 200 0 1)
        mergedAtOnce.view).value = (markAtOnce, none) ∧
      resolve (.onTrunk 10 0 1) "c-b0A-0-1" = .onBranch 10 0 1 ∧
      resolve (.onTrunk 10 0 1) "c-garbage" = .onTrunk 10 0 1 ∧
      Sweep.isMarked mergedAtOnce (.onTrunk 10 0 1) = false ∧
      (∃ f ∈ (sweepOfFirst.findings (Surroundings.ofStore.lookup ⟨.empty, .zero⟩) (.onTrunk 200 0 1)
        mergedAtOnce.view).value.1, f.verdict = .merged (.onBranch 10 0 1)) ∧
      Store.empty.RecordsMerge mergedAtOnce (.onTrunk 10 0 1) (.onBranch 10 0 1) := by
  have hnames : NamesMerge "c-b0A-0-1" (.onBranch 10 0 1) := ⟨"b0A-0-1", rfl, by decide +kernel⟩
  have hgarbage (merge : Revision) : ¬ NamesMerge "c-garbage" merge := fun h ↦ by
    have hnone : parse? "c-garbage" = none := by decide +kernel
    cases hnone.symm.trans (parse?_eq_mergedBranch_iff.2 h)
  have hfound : (sweepOfFirst.correct (Surroundings.ofStore.lookup ⟨.empty, .zero⟩) (.onTrunk 200 0 1)
      mergedAtOnce.view).value = (markAtOnce, none) := Prod.ext rfl (by decide +kernel)
  have hmark : markAtOnce.update.change? Property.branchCommits (some (.onTrunk 10 0 1)) =
      some (.insertEntry "true") := by decide +kernel
  have hfinding : ⟨"p", .onTrunk 10 0 1, .merged (.onBranch 10 0 1)⟩ ∈ (sweepOfFirst.findings
      (Surroundings.ofStore.lookup ⟨.empty, .zero⟩) (.onTrunk 200 0 1) mergedAtOnce.view).value.1 := by decide +kernel
  obtain ⟨-, -, -, hresolve, -, hfindings, hmarks⟩ := resolves_iff_namesMerge .trunk "c-b0A-0-1" (.onTrunk 10 0 1)
    sweepOfFirst ⟨.empty, .zero⟩ (.onTrunk 200 0 1) mergedAtOnce
  obtain ⟨-, -, -, -, hkept, -, -⟩ := resolves_iff_namesMerge .trunk "c-garbage" (.onTrunk 10 0 1) sweepOfFirst
    ⟨.empty, .zero⟩ (.onTrunk 200 0 1) mergedAtOnce
  obtain ⟨hunmarked, -, -⟩ := (hmarks _ hfound).1 hmark
  exact ⟨hnames, hgarbage, hfound, hresolve _ hnames, hkept hgarbage, hunmarked,
    ⟨_, hfinding, rfl⟩, (hfindings _ hfinding _).1 rfl⟩

end CommitValue

end NodeStore
