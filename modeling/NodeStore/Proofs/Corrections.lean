import Mathlib.Data.List.Induction
import NodeStore.Proofs.Entries
import NodeStore.Sweep.Correction

namespace NodeStore

theorem SortedMap.get?_insert_iff_of_agree {κ ν : Type} [Ord κ] [Std.TransOrd κ] [Std.LawfulEqOrd κ]
    {m : SortedMap κ ν} {k : κ} {v : ν} (h : ∀ w, m.get? k = some w → w = v) (l : κ) (w : ν) :
    (m.insert k v).get? l = some w ↔ m.get? l = some w ∨ (l = k ∧ w = v) := by
  classical
  rw [SortedMap.get?_insert]
  by_cases hl : l = k
  · subst hl
    rw [if_pos rfl, Option.some_inj]
    constructor
    · intro hx
      subst hx
      exact .inr ⟨rfl, rfl⟩
    · intro hx
      rcases hx with hw | hw
      · exact (h w hw).symm
      · exact hw.2.symm
  · simp [hl]

/-- The entry that says how `r` is committed: the commit root of `r` if there is one, else its commit
record. -/
def Document.markerKey (d : Document) (r : Revision) : Key :=
  if (d.valueAt? Property.commitRoot r).isSome then .entry Property.commitRoot r
  else .entry Property.revisions r

def Document.unchanged (d : Document) (k : Key) : Condition :=
  ((k.revision.bind (d.valueAt? k.name)).map Condition.equals).getD .absent

theorem Document.markerKey_eq (d : Document) (r : Revision) :
    d.markerKey r = .entry Property.commitRoot r ∨ d.markerKey r = .entry Property.revisions r := by
  unfold markerKey
  split
  · exact .inl rfl
  · exact .inr rfl

theorem Document.markerKey_revision (d : Document) (r : Revision) : (d.markerKey r).revision = some r := by
  rcases d.markerKey_eq r with h | h <;> rw [h] <;> rfl

theorem Document.markerKey_ne_branchCommits (d : Document) (r r' : Revision) :
    d.markerKey r ≠ .entry Property.branchCommits r' := by
  rcases d.markerKey_eq r with h | h <;> rw [h, Key.entry, Key.entry, Ne, Key.mk.injEq] <;>
    exact fun eq ↦ absurd eq.1 (by decide)

namespace Finding

inductive Changes (d : Document) (f : Finding) : Key → Change → Prop
  | entry : f.verdict = .uncommitted → Changes d f (.entry f.property f.revision) .eraseEntry
  | marker : f.verdict = .uncommitted → Changes d f (d.markerKey f.revision) .eraseEntry
  | flag : f.verdict = .uncommitted → f.property = Property.deleted → d.deletedOnce = false →
      d.valueAt? Property.deleted f.revision = some Property.notDeleted →
      Changes d f ⟨Property.deletedOnce, none⟩ (.setFlag true)
  | mark {merge : Revision} : f.verdict = .merged merge → Sweep.isMarked d f.revision = false →
      Changes d f (.entry Property.branchCommits f.revision) (.insertEntry "true")

/-- The conditions that a finding asks for. That an entry is unchanged counts more than that it is present. -/
inductive Requires (d : Document) (f : Finding) : Key → Condition → Prop
  | entry : f.verdict = .uncommitted → .entry f.property f.revision ≠ d.markerKey f.revision →
      Requires d f (.entry f.property f.revision) .present
  | marker : f.verdict = .uncommitted →
      Requires d f (d.markerKey f.revision) (d.unchanged (d.markerKey f.revision))
  | mark {merge : Revision} : f.verdict = .merged merge → Sweep.isMarked d f.revision = false →
      Requires d f (.entry Property.branchCommits f.revision) .absent

/-- Branch commit marks are not reverted: a marked revision is not taken for a leftover. -/
def SparesMarks (f : Finding) : Prop := f.verdict = .uncommitted → f.property ≠ Property.branchCommits

variable {d : Document} {f g : Finding} {k : Key}

theorem Changes.at_branchCommits {r : Revision} {c : Change} (hf : f.SparesMarks)
    (h : f.Changes d (.entry Property.branchCommits r) c) :
    c = .insertEntry "true" ∧ f.Requires d (.entry Property.branchCommits r) .absent := by
  generalize hk : Key.entry Property.branchCommits r = k at h
  cases h with
  | entry hv =>
    rw [Key.entry, Key.entry, Key.mk.injEq] at hk
    exact absurd hk.1.symm (hf hv)
  | marker hv => exact absurd hk.symm (d.markerKey_ne_branchCommits _ _)
  | flag hv => simp [Key.entry] at hk
  | mark hv hm => exact ⟨rfl, .mark hv hm⟩

theorem Changes.unique {c c' : Change} (hf : f.SparesMarks) (hg : g.SparesMarks)
    (h : f.Changes d k c) (h' : g.Changes d k c') : c = c' := by
  cases h with
  | entry hv =>
    generalize hk : Key.entry f.property f.revision = k at h'
    cases h' with
    | entry => rfl
    | marker => rfl
    | flag => simp [Key.entry] at hk
    | mark =>
      rw [Key.entry, Key.entry, Key.mk.injEq] at hk
      exact absurd hk.1 (hf hv)
  | marker hv =>
    generalize hk : d.markerKey f.revision = k at h'
    cases h' with
    | entry => rfl
    | marker => rfl
    | flag => simpa [d.markerKey_revision] using congrArg Key.revision hk
    | mark => exact absurd hk (d.markerKey_ne_branchCommits _ _)
  | flag hv =>
    generalize hk : Key.mk Property.deletedOnce none = k at h'
    cases h' with
    | entry => simp [Key.entry] at hk
    | marker => simpa [d.markerKey_revision] using congrArg Key.revision hk
    | flag => rfl
    | mark => simp [Key.entry] at hk
  | mark hv hm => exact (h'.at_branchCommits hg).1.symm

theorem Requires.unique {c c' : Condition} (hf : f.SparesMarks) (hg : g.SparesMarks)
    (h : f.Requires d k c) (h' : g.Requires d k c') : c = c' := by
  -- The key tells the revision, and the revision tells the marker.
  have same {name : String} {r r' : Revision} (hk : Key.entry name r = d.markerKey r') : r = r' := by
    simpa [d.markerKey_revision, Key.entry] using congrArg Key.revision hk
  cases h with
  | entry hv hne =>
    generalize hk : Key.entry f.property f.revision = k at h'
    cases h' with
    | entry => rfl
    | marker => exact absurd (same hk ▸ hk) hne
    | mark =>
      rw [Key.entry, Key.entry, Key.mk.injEq] at hk
      exact absurd hk.1 (hf hv)
  | marker hv =>
    generalize hk : d.markerKey f.revision = k at h'
    cases h' with
    | entry hv' hne => exact absurd (same hk.symm ▸ hk.symm) hne
    | marker => rfl
    | mark => exact absurd hk (d.markerKey_ne_branchCommits _ _)
  | mark hv hm =>
    generalize hk : Key.entry Property.branchCommits f.revision = k at h'
    cases h' with
    | entry hv' =>
      rw [Key.entry, Key.entry, Key.mk.injEq] at hk
      exact absurd hk.1.symm (hg hv')
    | marker => exact absurd hk.symm (d.markerKey_ne_branchCommits _ _)
    | mark => rfl

end Finding

namespace Correction

theorem removeMarker_eq (d : Document) (r : Revision) (u : Update) : removeMarker d r u =
    (u.withChange (d.markerKey r) .eraseEntry).withCondition (d.markerKey r)
      (d.unchanged (d.markerKey r)) := by
  unfold removeMarker Document.markerKey Document.unchanged
  cases hroot : d.valueAt? Property.commitRoot r with
  | some depth =>
    simp only [Option.isSome_some, if_true, Key.entry, Option.bind_some, hroot]
    rfl
  | none =>
    simp only [Option.isSome_none, Bool.false_eq_true, if_false, Key.entry, Option.bind_some]
    cases hcommit : d.valueAt? Property.revisions r <;> rfl

open Finding

variable {d : Document} {f : Finding} {c : Correction}

theorem changes_recordCreation {name : String} {r : Revision} {u : Update}
    (agree : name = Property.deleted → d.deletedOnce = false →
      d.valueAt? Property.deleted r = some Property.notDeleted →
      ∀ w, u.changes.get? ⟨Property.deletedOnce, none⟩ = some w → w = .setFlag true)
    (k : Key) (ch : Change) :
    (recordCreation d name r u).changes.get? k = some ch ↔ u.changes.get? k = some ch ∨
      ((name = Property.deleted ∧ d.deletedOnce = false ∧
        d.valueAt? Property.deleted r = some Property.notDeleted) ∧
        k = ⟨Property.deletedOnce, none⟩ ∧ ch = .setFlag true) := by
  unfold recordCreation
  split
  next h =>
    simp only [Bool.and_eq_true, decide_eq_true_eq, Bool.not_eq_true', beq_iff_eq] at h
    rw [Update.markDeletedOnce, Update.setFlag, Update.withChange,
      SortedMap.get?_insert_iff_of_agree (agree h.1.1 h.1.2 h.2)]
    simp [h]
  next h =>
    simp only [Bool.and_eq_true, decide_eq_true_eq, Bool.not_eq_true', beq_iff_eq] at h
    tauto

theorem conditions_recordCreation (d : Document) (name : String) (r : Revision) (u : Update) :
    (recordCreation d name r u).conditions = u.conditions := by
  unfold recordCreation
  split <;> rfl

theorem changes_revert (hv : f.verdict = .uncommitted) {u : Update}
    (agree : ∀ k w w', u.changes.get? k = some w → f.Changes d k w' → w = w') (k : Key) (ch : Change) :
    (revert d f.property f.revision u).changes.get? k = some ch ↔
      u.changes.get? k = some ch ∨ f.Changes d k ch := by
  have hentry := fun w hw ↦ agree _ w _ hw (.entry hv)
  have hmarker : ∀ w, (u.changes.insert (.entry f.property f.revision) .eraseEntry).get?
      (d.markerKey f.revision) = some w → w = .eraseEntry := by
    intro w hw
    rcases (SortedMap.get?_insert_iff_of_agree hentry _ w).1 hw with hw | hw
    · exact agree _ w _ hw (.marker hv)
    · exact hw.2
  have hmarked : ∀ k ch, (removeMarker d f.revision ((u.eraseEntry f.property f.revision).requireEntry
      f.property f.revision true)).changes.get? k = some ch ↔ (u.changes.get? k = some ch ∨
        k = .entry f.property f.revision ∧ ch = .eraseEntry) ∨
          k = d.markerKey f.revision ∧ ch = .eraseEntry := by
    intro k ch
    simp only [removeMarker_eq, Update.withCondition, Update.withChange, Update.eraseEntry,
      Update.requireEntry, SortedMap.get?_insert_iff_of_agree hmarker,
      SortedMap.get?_insert_iff_of_agree hentry]
  rw [revert, changes_recordCreation fun h₁ h₂ h₃ w hw ↦ ?_, hmarked]
  · constructor
    · intro hx
      rcases hx with ((h | ⟨rfl, rfl⟩) | ⟨rfl, rfl⟩) | ⟨⟨h₁, h₂, h₃⟩, rfl, rfl⟩
      · exact .inl h
      · exact .inr (.entry hv)
      · exact .inr (.marker hv)
      · exact .inr (.flag hv h₁ h₂ h₃)
    · intro hx
      rcases hx with h | h
      · exact .inl (.inl (.inl h))
      · cases h with
        | entry => exact .inl (.inl (.inr ⟨rfl, rfl⟩))
        | marker => exact .inl (.inr ⟨rfl, rfl⟩)
        | flag _ h₁ h₂ h₃ => exact .inr ⟨⟨h₁, h₂, h₃⟩, rfl, rfl⟩
        | mark hm => cases hv.symm.trans hm
  · rcases (hmarked _ _).1 hw with (hw | hw) | hw
    · exact agree _ w _ hw (.flag hv h₁ h₂ h₃)
    · exact absurd hw.1 (by simp [Key.entry])
    · exact absurd (congrArg Key.revision hw.1) (by simp [d.markerKey_revision])

theorem changes_add (agree : ∀ k w w', c.update.changes.get? k = some w → f.Changes d k w' → w = w')
    (k : Key) (ch : Change) : (add d c f).update.changes.get? k = some ch ↔
      c.update.changes.get? k = some ch ∨ f.Changes d k ch := by
  unfold add
  cases hv : f.verdict with
  | uncommitted => exact changes_revert hv agree k ch
  | merged merge =>
    have marks : f.Changes d k ch ↔ Sweep.isMarked d f.revision = false ∧
        k = .entry Property.branchCommits f.revision ∧ ch = .insertEntry "true" := by
      constructor
      · intro h
        cases h with
        | mark _ hm => exact ⟨hm, rfl, rfl⟩
        | entry hu => cases hv.symm.trans hu
        | marker hu => cases hv.symm.trans hu
        | flag hu => cases hv.symm.trans hu
      · intro hx
        obtain ⟨hm, rfl, rfl⟩ := hx
        exact .mark hv hm
    rw [marks]
    cases hm : Sweep.isMarked d f.revision with
    | true => simp
    | false =>
      have hmark := fun w hw ↦ agree (.entry Property.branchCommits f.revision) w _ hw (.mark hv hm)
      cases hc : c.update.change? Property.branchCommits (some f.revision) with
      | none =>
        simp only [Bool.not_false, Option.isNone_none, Bool.and_self, if_true, true_and]
        exact SortedMap.get?_insert_iff_of_agree hmark k ch
      | some w =>
        simp only [Option.isNone_some, Bool.and_false, Bool.false_eq_true, if_false, true_and]
        refine ⟨.inl, ?_⟩
        intro hx
        rcases hx with h | ⟨rfl, rfl⟩
        · exact h
        · exact hmark w hc ▸ hc
  | ahead | unmerged | committed =>
    refine ⟨.inl, fun h ↦ h.resolve_right fun h ↦ ?_⟩
    cases h with
    | entry hu | marker hu | flag hu | mark hu => cases hv.symm.trans hu

theorem ofFindings_concat (d : Document) (fs : List Finding) (f : Finding) :
    ofFindings d (fs ++ [f]) = add d (ofFindings d fs) f := by
  rw [ofFindings, List.foldl_append]
  rfl

theorem exists_mem_concat {fs : List Finding} {f : Finding} {p : Finding → Prop} :
    (∃ g ∈ fs ++ [f], p g) ↔ (∃ g ∈ fs, p g) ∨ p f := by
  simp [or_and_right, exists_or]

/-- The changes of a correction are those that its findings ask for. -/
theorem changes_ofFindings {fs : List Finding} (spares : ∀ f ∈ fs, f.SparesMarks) (k : Key)
    (ch : Change) : (ofFindings d fs).update.changes.get? k = some ch ↔ ∃ f ∈ fs, f.Changes d k ch := by
  induction fs using List.reverseRecOn generalizing k ch with
  | nil => simp [ofFindings, start, Update.start]
  | append_singleton fs f ih =>
    have hfs := fun g hg ↦ spares g (List.mem_append_left _ hg)
    have hf := spares f (List.mem_append_right _ List.mem_cons_self)
    rw [ofFindings_concat, exists_mem_concat, changes_add, ih hfs]
    intro k w w' hw hw'
    obtain ⟨g, hg, hgw⟩ := (ih hfs k w).1 hw
    exact hgw.unique (hfs g hg) hf hw'

theorem conditions_revert (hf : f.SparesMarks) (hv : f.verdict = .uncommitted) {u : Update}
    (agree : ∀ k w w', u.conditions.get? k = some w → f.Requires d k w' → w = w') (k : Key)
    (c : Condition) : (revert d f.property f.revision u).conditions.get? k = some c ↔
      u.conditions.get? k = some c ∨ f.Requires d k c := by
  rw [revert, conditions_recordCreation, removeMarker_eq]
  simp only [Update.withCondition, Update.withChange, Update.eraseEntry, Update.requireEntry,
    SortedMap.get?_insert, if_true]
  by_cases hmarker : k = d.markerKey f.revision
  · subst hmarker
    rw [if_pos rfl, Option.some_inj]
    have h := Requires.marker (d := d) hv
    constructor
    · intro hx
      subst hx
      exact .inr h
    · intro hx
      rcases hx with hw | hw
      · exact (agree _ _ _ hw h).symm
      · exact h.unique hf hf hw
  · rw [if_neg hmarker]
    by_cases hentry : k = .entry f.property f.revision
    · subst hentry
      rw [if_pos rfl, Option.some_inj]
      have h := Requires.entry (d := d) hv hmarker
      constructor
      · intro hx
        subst hx
        exact .inr h
      · intro hx
        rcases hx with hw | hw
        · exact (agree _ _ _ hw h).symm
        · exact h.unique hf hf hw
    · rw [if_neg hentry]
      refine ⟨.inl, fun h ↦ h.resolve_right fun h ↦ ?_⟩
      cases h with
      | entry => exact hentry rfl
      | marker => exact hmarker rfl
      | mark hm => cases hv.symm.trans hm

theorem conditions_add (hf : f.SparesMarks)
    (agree : ∀ k w w', c.update.conditions.get? k = some w → f.Requires d k w' → w = w')
    (guarded : ∀ r w, c.update.changes.get? (.entry Property.branchCommits r) = some w →
      c.update.conditions.get? (.entry Property.branchCommits r) = some .absent)
    (k : Key) (ch : Condition) : (add d c f).update.conditions.get? k = some ch ↔
      c.update.conditions.get? k = some ch ∨ f.Requires d k ch := by
  unfold add
  cases hv : f.verdict with
  | uncommitted => exact conditions_revert hf hv agree k ch
  | merged merge =>
    have marks : f.Requires d k ch ↔ Sweep.isMarked d f.revision = false ∧
        k = .entry Property.branchCommits f.revision ∧ ch = .absent := by
      constructor
      · intro h
        cases h with
        | mark _ hm => exact ⟨hm, rfl, rfl⟩
        | entry hu => cases hv.symm.trans hu
        | marker hu => cases hv.symm.trans hu
      · intro hx
        obtain ⟨hm, rfl, rfl⟩ := hx
        exact .mark hv hm
    rw [marks]
    cases hm : Sweep.isMarked d f.revision with
    | true => simp
    | false =>
      cases hc : c.update.change? Property.branchCommits (some f.revision) with
      | none =>
        simp only [Bool.not_false, Option.isNone_none, Bool.and_self, if_true, true_and]
        exact SortedMap.get?_insert_iff_of_agree (fun w hw ↦ agree _ w _ hw (.mark hv hm)) k ch
      | some w =>
        simp only [Option.isNone_some, Bool.and_false, Bool.false_eq_true, if_false, true_and]
        refine ⟨.inl, ?_⟩
        intro hx
        rcases hx with h | ⟨rfl, rfl⟩
        · exact h
        · exact guarded _ w hc
  | ahead | unmerged | committed =>
    refine ⟨.inl, fun h ↦ h.resolve_right fun h ↦ ?_⟩
    cases h with
    | entry hu | marker hu | mark hu => cases hv.symm.trans hu

theorem conditions_ofFindings {fs : List Finding} (spares : ∀ f ∈ fs, f.SparesMarks) (k : Key)
    (ch : Condition) :
    (ofFindings d fs).update.conditions.get? k = some ch ↔ ∃ f ∈ fs, f.Requires d k ch := by
  induction fs using List.reverseRecOn generalizing k ch with
  | nil => simp [ofFindings, start, Update.start]
  | append_singleton fs f ih =>
    have hfs := fun g hg ↦ spares g (List.mem_append_left _ hg)
    have hf := spares f (List.mem_append_right _ List.mem_cons_self)
    rw [ofFindings_concat, exists_mem_concat, conditions_add hf, ih hfs]
    · intro k w w' hw hw'
      obtain ⟨g, hg, hgw⟩ := (ih hfs k w).1 hw
      exact hgw.unique (hfs g hg) hf hw'
    · intro r w hw
      obtain ⟨g, hg, hgw⟩ := (changes_ofFindings hfs _ w).1 hw
      exact (ih hfs _ _).2 ⟨g, hg, (hgw.at_branchCommits (hfs g hg)).2⟩

theorem id_ofFindings (d : Document) (fs : List Finding) :
    (ofFindings d fs).update.id = d.id ∧ (ofFindings d fs).update.isNew = false := by
  induction fs using List.reverseRecOn with
  | nil => exact ⟨rfl, rfl⟩
  | append_singleton fs f ih =>
    have hadd : (add d (ofFindings d fs) f).update.id = (ofFindings d fs).update.id ∧
        (add d (ofFindings d fs) f).update.isNew = (ofFindings d fs).update.isNew := by
      generalize ofFindings d fs = c
      unfold add
      split
      · simp only [revert, removeMarker_eq, recordCreation]
        split <;> exact ⟨rfl, rfl⟩
      · split <;> exact ⟨rfl, rfl⟩
      · exact ⟨rfl, rfl⟩
    rw [ofFindings_concat, hadd.1, hadd.2]
    exact ih

end Correction

end NodeStore
