import NodeStore.Proofs.Corrections

namespace NodeStore

theorem Update.ext_get? {u v : Update} (id : u.id = v.id) (isNew : u.isNew = v.isNew)
    (changes : ∀ k c, u.changes.get? k = some c ↔ v.changes.get? k = some c)
    (conditions : ∀ k c, u.conditions.get? k = some c ↔ v.conditions.get? k = some c) : u = v := by
  have hchanges : u.changes = v.changes := SortedMap.ext_get? fun k ↦ Option.ext (changes k)
  have hconditions : u.conditions = v.conditions := SortedMap.ext_get? fun k ↦ Option.ext (conditions k)
  cases u
  cases v
  simp_all

theorem Correction.update?_eq_none_iff {c : Correction} : c.update? = none ↔ c.update.hasChanges = false := by
  unfold update?
  cases c.update.hasChanges <;> simp

namespace Sweep

variable (s : Sweep) (head : Revision) (d : Document) (commit : Revision → Option String)

def Visits (name : String) (r : Revision) : Prop :=
  s.filter name = true ∧ (d.valueAt? name r).isSome ∧ r.clusterId = s.clusterId

variable {s d} in
theorem Visits.name_ne {name other : String} {r : Revision} (h : s.Visits d name r) (hf : s.filter other = false) :
    name ≠ other := fun hname ↦ by
  have hselected := h.1
  rw [hname, hf] at hselected
  cases hselected

/-- An own revision without commit value and mark, not newer than the head unless those are swept too. -/
def IsLeftover (r : Revision) : Prop :=
  r.clusterId = s.clusterId ∧ commit r = none ∧ isMarked d r = false ∧
    (r.isAfter head = false ∨ s.config.beyondHead = true)

/-- A revision that was merged with another one and has no mark. -/
def IsUnmarkedMerge (r : Revision) : Prop :=
  isMarked d r = false ∧ ∃ value, commit r = some value ∧ CommitValue.resolve r value ≠ r

inductive TableChange : Key → Change → Prop
  | entry {name : String} {r : Revision} : s.Visits d name r → s.IsLeftover head d commit r →
      TableChange (.entry name r) .eraseEntry
  | marker {name : String} {r : Revision} : s.Visits d name r → s.IsLeftover head d commit r →
      TableChange (d.markerKey r) .eraseEntry
  | mark {name : String} {r : Revision} : s.Visits d name r → IsUnmarkedMerge d commit r →
      TableChange (.entry Property.branchCommits r) (.insertEntry "true")
  | flag {r : Revision} : s.filter Property.deleted = true → d.deletedOnce = false →
      s.IsLeftover head d commit r → d.valueAt? Property.deleted r = some Property.notDeleted →
      TableChange ⟨Property.deletedOnce, none⟩ (.setFlag true)

inductive TableCondition : Key → Condition → Prop
  | entry {name : String} {r : Revision} : s.Visits d name r → s.IsLeftover head d commit r →
      .entry name r ≠ d.markerKey r → TableCondition (.entry name r) .present
  | marker {name : String} {r : Revision} : s.Visits d name r → s.IsLeftover head d commit r →
      TableCondition (d.markerKey r) (d.unchanged (d.markerKey r))
  | mark {name : String} {r : Revision} : s.Visits d name r → IsUnmarkedMerge d commit r →
      TableCondition (.entry Property.branchCommits r) .absent

def findingOn (e : String × Revision) : Finding := ⟨e.1, e.2, s.judge head d e.2 (commit e.2)⟩

def correctionOf : Correction :=
  .ofFindings d ((s.entries d.view).map (s.findingOn head d commit))

theorem mem_entries_view {name : String} {r : Revision} :
    (name, r) ∈ s.entries d.view ↔ s.Visits d name r := by
  simp only [entries, Document.view, List.mem_flatMap, List.mem_filter, SortedMap.mem_keys_iff]
  constructor
  · intro hx
    obtain ⟨name', ⟨hname, hf⟩, h⟩ := hx
    cases hm : d.map? name' with
    | none => simp [hm] at h
    | some m =>
      simp only [hm, List.mem_map, List.mem_filter, SortedMap.mem_keys_iff, beq_iff_eq,
        Prod.mk.injEq] at h
      obtain ⟨r', ⟨hr, hown⟩, rfl, rfl⟩ := h
      exact ⟨hf, by rwa [Document.valueAt?, hm], hown⟩
  · intro hx
    obtain ⟨hf, hv, hown⟩ := hx
    obtain ⟨v, hv⟩ := Option.isSome_iff_exists.1 hv
    obtain ⟨m, hm, hr⟩ := Document.valueAt?_eq_some_iff.1 hv
    refine ⟨name, ⟨Option.isSome_iff_exists.2 ⟨m, hm⟩, hf⟩, ?_⟩
    rw [Document.map?, hm]
    refine List.mem_map.2 ⟨r, List.mem_filter.2 ⟨?_, beq_iff_eq.2 hown⟩, rfl⟩
    exact SortedMap.mem_keys_iff.2 (Option.isSome_iff_exists.2 ⟨v, hr⟩)

theorem judge_eq_uncommitted_iff {r : Revision} (hown : r.clusterId = s.clusterId) :
    s.judge head d r (commit r) = .uncommitted ↔ s.IsLeftover head d commit r := by
  unfold IsLeftover judge
  cases commit r with
  | none =>
    cases hm : isMarked d r <;> cases ha : r.isAfter head <;> cases hb : s.config.beyondHead <;> simp [hown]
  | some value =>
    simp only [reduceCtorEq, false_and, and_false, iff_false]
    split <;> simp

theorem judge_eq_merged_iff {r : Revision} :
    ((∃ merge, s.judge head d r (commit r) = .merged merge) ∧ isMarked d r = false) ↔
      IsUnmarkedMerge d commit r := by
  unfold IsUnmarkedMerge judge
  rw [and_comm]
  refine and_congr_right fun hm ↦ ?_
  cases commit r with
  | none => simp only [hm]; split <;> simp
  | some value =>
    by_cases h : CommitValue.resolve r value = r <;> simp [h]

theorem exists_findingOn_iff {p : Finding → Prop} :
    (∃ f ∈ (s.entries d.view).map (s.findingOn head d commit), p f) ↔
      ∃ name r, s.Visits d name r ∧ p (s.findingOn head d commit (name, r)) := by
  simp only [List.mem_map]
  constructor
  · intro hx
    obtain ⟨_, ⟨⟨name, r⟩, h, rfl⟩, hp⟩ := hx
    exact ⟨name, r, (s.mem_entries_view d).1 h, hp⟩
  · intro hx
    obtain ⟨name, r, h, hp⟩ := hx
    exact ⟨_, ⟨(name, r), (s.mem_entries_view d).2 h, rfl⟩, hp⟩

theorem sparesMarks_findingOn {f : Finding}
    (hf : f ∈ (s.entries d.view).map (s.findingOn head d commit)) : f.SparesMarks := by
  obtain ⟨⟨name, r⟩, he, rfl⟩ := List.mem_map.1 hf
  have hvisit := (s.mem_entries_view d).1 he
  intro hv hname
  have hleft := (s.judge_eq_uncommitted_iff head d commit hvisit.2.2).1 hv
  have hmarked : isMarked d r = true := by
    rw [isMarked, ← show name = _ from hname]
    exact hvisit.2.1
  simp [hleft.2.2.1] at hmarked

theorem changes_findingOn_iff (k : Key) (c : Change) :
    (∃ f ∈ (s.entries d.view).map (s.findingOn head d commit), f.Changes d k c) ↔
      s.TableChange head d commit k c := by
  rw [exists_findingOn_iff]
  constructor
  · intro hx
    obtain ⟨name, r, hvisit, h⟩ := hx
    have left := s.judge_eq_uncommitted_iff head d commit hvisit.2.2
    cases h with
    | entry hv => exact .entry hvisit (left.1 hv)
    | marker hv => exact .marker hvisit (left.1 hv)
    | flag hv hname honce hcreated =>
      have hf : s.filter Property.deleted = true := by simpa only [← show name = _ from hname] using hvisit.1
      exact .flag hf honce (left.1 hv) hcreated
    | mark hv hm => exact .mark hvisit ((s.judge_eq_merged_iff head d commit).1 ⟨⟨_, hv⟩, hm⟩)
  · intro h
    cases h with
    | @entry name r hvisit hleft =>
      exact ⟨name, r, hvisit, .entry ((s.judge_eq_uncommitted_iff head d commit hvisit.2.2).2 hleft)⟩
    | @marker name r hvisit hleft =>
      exact ⟨name, r, hvisit, .marker ((s.judge_eq_uncommitted_iff head d commit hvisit.2.2).2 hleft)⟩
    | @mark name r hvisit hmerge =>
      obtain ⟨⟨merge, hv⟩, hm⟩ := (s.judge_eq_merged_iff head d commit).2 hmerge
      exact ⟨name, r, hvisit, .mark hv hm⟩
    | @flag r hf honce hleft hcreated =>
      refine ⟨Property.deleted, r, ⟨hf, by rw [hcreated]; rfl, hleft.1⟩, ?_⟩
      exact .flag ((s.judge_eq_uncommitted_iff head d commit hleft.1).2 hleft) rfl honce hcreated

theorem requires_findingOn_iff (k : Key) (c : Condition) :
    (∃ f ∈ (s.entries d.view).map (s.findingOn head d commit), f.Requires d k c) ↔
      s.TableCondition head d commit k c := by
  rw [exists_findingOn_iff]
  constructor
  · intro hx
    obtain ⟨name, r, hvisit, h⟩ := hx
    have left := s.judge_eq_uncommitted_iff head d commit hvisit.2.2
    cases h with
    | entry hv hne => exact .entry hvisit (left.1 hv) hne
    | marker hv => exact .marker hvisit (left.1 hv)
    | mark hv hm => exact .mark hvisit ((s.judge_eq_merged_iff head d commit).1 ⟨⟨_, hv⟩, hm⟩)
  · intro h
    cases h with
    | @entry name r hvisit hleft hne =>
      exact ⟨name, r, hvisit, .entry ((s.judge_eq_uncommitted_iff head d commit hvisit.2.2).2 hleft) hne⟩
    | @marker name r hvisit hleft =>
      exact ⟨name, r, hvisit, .marker ((s.judge_eq_uncommitted_iff head d commit hvisit.2.2).2 hleft)⟩
    | @mark name r hvisit hmerge =>
      obtain ⟨⟨merge, hv⟩, hm⟩ := (s.judge_eq_merged_iff head d commit).2 hmerge
      exact ⟨name, r, hvisit, .mark hv hm⟩

theorem changes_correctionOf (k : Key) (c : Change) :
    (s.correctionOf head d commit).update.changes.get? k = some c ↔ s.TableChange head d commit k c :=
  (Correction.changes_ofFindings (fun _ hf ↦ s.sparesMarks_findingOn head d commit hf) k c).trans
    (s.changes_findingOn_iff head d commit k c)

theorem conditions_correctionOf (k : Key) (c : Condition) :
    (s.correctionOf head d commit).update.conditions.get? k = some c ↔
      s.TableCondition head d commit k c :=
  (Correction.conditions_ofFindings (fun _ hf ↦ s.sparesMarks_findingOn head d commit hf) k c).trans
    (s.requires_findingOn_iff head d commit k c)

theorem id_correctionOf : (s.correctionOf head d commit).update.id = d.id :=
  (Correction.id_ofFindings d _).1

theorem isNew_correctionOf : (s.correctionOf head d commit).update.isNew = false :=
  (Correction.id_ofFindings d _).2

theorem update?_correctionOf_eq_none_iff :
    (s.correctionOf head d commit).update? = none ↔ ∀ k c, ¬ s.TableChange head d commit k c := by
  rw [Correction.update?_eq_none_iff, Update.hasChanges, Bool.not_eq_false', SortedMap.isEmpty_iff]
  simp only [← changes_correctionOf, Option.eq_none_iff_forall_ne_some, ne_eq]

variable {s head d commit} in
theorem update?_correctionOf {u : Update} (h : (s.correctionOf head d commit).update? = some u) :
    u = (s.correctionOf head d commit).update := by
  rw [Correction.update?] at h
  split at h
  · exact (Option.some.inj h).symm
  · cases h

theorem examine_value {lookup : CommitLookup} {es : List (String × Revision)}
    (h : ∀ e ∈ es, (lookup d e.2).value = .ok (commit e.2)) :
    (s.examine lookup head d es).value = (es.map (s.findingOn head d commit), none) := by
  induction es with
  | nil => rfl
  | cons e es ih =>
    rw [List.forall_mem_cons] at h
    simp [examine, h.1, ih h.2, findingOn]

theorem exists_value_of_success {lookup : CommitLookup} {es : List (String × Revision)}
    (hsuccess : (s.examine lookup head d es).value.2 = none) :
    ∀ e ∈ es, ∃ value, (lookup d e.2).value = .ok value := by
  induction es with
  | nil => simp
  | cons e es ih =>
    cases hv : (lookup d e.2).value with
    | error cause => simp [examine, hv] at hsuccess
    | ok value =>
      simp only [examine, Logged.value_bind, Logged.value_pure, hv] at hsuccess
      exact List.forall_mem_cons.2 ⟨⟨value, hv⟩, ih hsuccess⟩

theorem examine_value_of_success {lookup : CommitLookup}
    (h : ∀ r value, (lookup d r).value = .ok value → commit r = value) (es : List (String × Revision))
    (hsuccess : (s.examine lookup head d es).value.2 = none) :
    (s.examine lookup head d es).value.1 = es.map (s.findingOn head d commit) := by
  induction es with
  | nil => rfl
  | cons e es ih =>
    cases hv : (lookup d e.2).value with
    | error cause => simp [examine, hv] at hsuccess
    | ok value =>
      simp only [examine, Logged.value_bind, Logged.value_pure, hv] at hsuccess ⊢
      rw [ih hsuccess, List.map_cons, findingOn, h e.2 value hv]

theorem correct_value_of_visits {lookup : CommitLookup}
    (h : ∀ name r, s.Visits d name r → (lookup d r).value = .ok (commit r)) :
    (s.correct lookup head d.view).value = (s.correctionOf head d commit, none) := by
  simp only [correct, findings, Logged.value_bind, Logged.value_pure]
  have hv := s.examine_value head d commit fun e he ↦ h e.1 e.2 ((s.mem_entries_view d).1 he)
  rw [show d.view.document = d from rfl, hv]
  rfl

theorem correct_value {lookup : CommitLookup} (h : ∀ r, (lookup d r).value = .ok (commit r)) :
    (s.correct lookup head d.view).value = (s.correctionOf head d commit, none) :=
  s.correct_value_of_visits head d commit fun _ r _ ↦ h r

theorem correct_value_of_success {lookup : CommitLookup} {c : Correction}
    (h : ∀ r value, (lookup d r).value = .ok value → commit r = value)
    (hsuccess : (s.correct lookup head d.view).value = (c, none)) : c = s.correctionOf head d commit := by
  simp only [correct, findings, Logged.value_bind, Logged.value_pure] at hsuccess
  obtain ⟨hc, hnone⟩ := Prod.mk.inj hsuccess
  rw [← hc, show d.view.document = d from rfl, s.examine_value_of_success head d commit h _ hnone]
  rfl

/-- The correction of a document is exactly the update that the table describes, and there is none exactly if
the table is empty. -/
theorem correct_iff_table (commits : Document → Revision → Option String)
    (lines : Document → Revision → List LogLine) :
    let outcome := (s.correct (fun d r ↦ ⟨.ok (commits d r), lines d r⟩) head d.view).value
    outcome.2 = none ∧
      (∀ u, outcome.1.update? = some u ↔
        u.id = d.id ∧ u.isNew = false ∧ (∃ k c, s.TableChange head d (commits d) k c) ∧
          (∀ k c, u.changes.get? k = some c ↔ s.TableChange head d (commits d) k c) ∧
          ∀ k c, u.conditions.get? k = some c ↔ s.TableCondition head d (commits d) k c) ∧
      (outcome.1.update? = none ↔ ∀ k c, ¬ s.TableChange head d (commits d) k c) := by
  intro outcome
  have value : outcome = (s.correctionOf head d (commits d), none) :=
    s.correct_value head d (commits d) fun _ ↦ rfl
  have empty := s.update?_correctionOf_eq_none_iff head d (commits d)
  have id := s.id_correctionOf head d (commits d)
  have isNew := s.isNew_correctionOf head d (commits d)
  have changes := s.changes_correctionOf head d (commits d)
  have conditions := s.conditions_correctionOf head d (commits d)
  rw [value]
  refine ⟨rfl, fun u ↦ ⟨fun h ↦ ?_, fun ⟨hid, hnew, ⟨k, c, hkc⟩, hchanges, hconditions⟩ ↦ ?_⟩, empty⟩
  · obtain rfl := update?_correctionOf h
    refine ⟨id, isNew, ?_, changes, conditions⟩
    by_contra none
    cases h.symm.trans (empty.2 fun k c hkc ↦ none ⟨k, c, hkc⟩)
  · obtain ⟨v, hv⟩ := Option.ne_none_iff_exists'.1 fun none ↦ empty.1 none k c hkc
    have same : u = v := by
      obtain rfl := update?_correctionOf hv
      exact Update.ext_get? (hid.trans id.symm) (hnew.trans isNew.symm)
        (fun k c ↦ (hchanges k c).trans (changes k c).symm)
        fun k c ↦ (hconditions k c).trans (conditions k c).symm
    exact same ▸ hv

end Sweep

end NodeStore
