import NodeStore.Proofs.RevisionGrammar
import NodeStore.Store.Basic

namespace NodeStore

namespace CommitValue

variable {value : String} {v : CommitValue}

inductive Denotes : String → CommitValue → Prop
  | trunk : Denotes "c" .trunk
  | mergedBranch {t : String} {merge : Revision} : Revision.Spells t merge →
      Denotes ("c-" ++ t) (.mergedBranch merge)

/-- The value begins with `c`, and neither stops there nor goes on with a hyphen and a revision. -/
def IsGarbled (value : String) : Prop :=
  ∃ rest, value = "c" ++ rest ∧ rest ≠ "" ∧ ∀ t merge, rest = "-" ++ t → ¬ Revision.Spells t merge

theorem parse?_eq_some_iff : parse? value = some v ↔ Denotes value v := by
  have hrevision {t : String} {merge : Revision} : Revision.parse? t = some merge ↔ Revision.Spells t merge := by
    rw [← Revision.parse_eq_ok_iff, Revision.parse?]
    cases Revision.parse t <;> simp [Except.toOption]
  constructor
  · intro h
    unfold parse? at h
    split at h
    next hvalue =>
      obtain rfl := Option.some.inj h
      obtain rfl : value = "c" := String.toList_injective hvalue
      exact .trunk
    next cs hvalue =>
      obtain ⟨merge, hmerge, rfl⟩ := Option.map_eq_some_iff.1 h
      obtain rfl : value = "c-" ++ String.ofList cs := String.toList_injective (by simp [hvalue])
      exact .mergedBranch (hrevision.1 hmerge)
    next => cases h
  · intro h
    cases h with
    | trunk => rfl
    | @mergedBranch t merge hmerge =>
      have hvalue : ("c-" ++ t).toList = 'c' :: '-' :: t.toList := by simp
      rw [parse?, hvalue]
      simp [hrevision.2 hmerge]

theorem recordsCommit_iff : recordsCommit value = true ↔ ∃ rest, value = "c" ++ rest := by
  rw [recordsCommit, beq_iff_eq]
  constructor
  · intro h
    obtain ⟨rest, hrest⟩ := List.head?_eq_some_iff.1 h
    exact ⟨String.ofList rest, String.toList_injective (by simp [hrest])⟩
  · rintro ⟨rest, rfl⟩
    simp

theorem recordsCommit_iff_denotes_or_garbled :
    recordsCommit value = true ↔ (∃ v, Denotes value v) ∨ IsGarbled value := by
  rw [recordsCommit_iff]
  constructor
  · rintro ⟨rest, rfl⟩
    by_cases hrest : rest = ""
    · exact .inl ⟨.trunk, by simpa [hrest] using Denotes.trunk⟩
    · by_cases hread : ∃ t merge, rest = "-" ++ t ∧ Revision.Spells t merge
      · obtain ⟨t, merge, rfl, hmerge⟩ := hread
        refine .inl ⟨.mergedBranch merge, ?_⟩
        rw [← String.append_assoc]
        exact .mergedBranch hmerge
      · exact .inr ⟨rest, rfl, hrest, fun t merge ht hmerge ↦ hread ⟨t, merge, ht, hmerge⟩⟩
  · rintro (⟨v, h⟩ | ⟨rest, rfl, -⟩)
    · cases h with
      | trunk => exact ⟨"", rfl⟩
      | @mergedBranch t => exact ⟨"-" ++ t, by rw [← String.append_assoc]; rfl⟩
    · exact ⟨rest, rfl⟩

theorem IsGarbled.not_denotes (h : IsGarbled value) (v : CommitValue) : ¬ Denotes value v := by
  obtain ⟨rest, hvalue, hrest, hmerge⟩ := h
  rw [← String.toList_inj, String.toList_append] at hvalue
  intro hv
  cases hv with
  | trunk => exact hrest (by simpa using hvalue)
  | @mergedBranch t merge ht => exact hmerge t merge (String.toList_injective (by simpa using hvalue.symm)) ht

theorem IsGarbled.recordsCommit (h : IsGarbled value) : recordsCommit value = true :=
  recordsCommit_iff_denotes_or_garbled.2 (.inr h)

theorem IsGarbled.parse?_eq_none (h : IsGarbled value) : parse? value = none :=
  Option.eq_none_iff_forall_ne_some.2 fun v hv ↦ h.not_denotes v (parse?_eq_some_iff.1 hv)

theorem recordsCommit_iff_isSome (h : ¬ IsGarbled value) :
    recordsCommit value = true ↔ (parse? value).isSome = true := by
  rw [recordsCommit_iff_denotes_or_garbled, or_iff_left h]
  simp only [Option.isSome_iff_exists, parse?_eq_some_iff]

theorem not_garbled_of_isSome (h : (parse? value).isSome = true) : ¬ IsGarbled value := fun hgarbled ↦ by
  simp [hgarbled.parse?_eq_none] at h

end CommitValue

open CommitValue

namespace Store

variable {s : Store} {d : Document} {r : Revision} {value : String}

/-- What is recorded of a change at `r` on `d`: on the document itself, or if it has no record on its commit root. -/
inductive HasRecord (s : Store) (d : Document) (r : Revision) (value : String) : Prop
  | own : d.valueAt? Property.revisions r = some value → HasRecord s d r value
  | atRoot {root : Path} {e : Document} : d.valueAt? Property.revisions r = none →
      (d.valueAt? Property.commitRoot r).bind d.path.ancestorAtText? = some root → root ≠ d.path →
      s.findAt root = .ok (some e) → e.valueAt? Property.revisions r = some value → HasRecord s d r value

theorem committedValue?_eq_some_iff :
    d.committedValue? r = some value ↔ d.valueAt? Property.revisions r = some value ∧ recordsCommit value = true := by
  rw [Document.committedValue?, Option.filter_eq_some_iff]

theorem commitValue_eq_some_iff :
    s.commitValue d r = .ok (some value) ↔ s.HasRecord d r value ∧ recordsCommit value = true := by
  constructor
  · intro h
    unfold commitValue at h
    split at h
    next hown =>
      obtain ⟨hvalue, hcommit⟩ := committedValue?_eq_some_iff.1 (Except.ok.inj h)
      exact ⟨.own hvalue, hcommit⟩
    next hown =>
      split at h
      next => cases h
      next root hroot =>
        split at h
        next => cases h
        next hself =>
          cases hfound : s.findAt root with
          | error e => rw [hfound] at h; cases h
          | ok found =>
            rw [hfound] at h
            obtain ⟨e, rfl, he⟩ := Option.bind_eq_some_iff.1 (Except.ok.inj h)
            obtain ⟨hvalue, hcommit⟩ := committedValue?_eq_some_iff.1 he
            exact ⟨.atRoot hown hroot hself hfound hvalue, hcommit⟩
  · rintro ⟨h, hcommit⟩
    cases h with
    | own hvalue => simp only [commitValue, hvalue, committedValue?_eq_some_iff.2 ⟨hvalue, hcommit⟩]
    | atRoot hown hroot hself hfound hvalue =>
      simp [commitValue, hown, hroot, hself, hfound, Except.map, committedValue?_eq_some_iff.2 ⟨hvalue, hcommit⟩]

end Store

namespace CommitValue

/-- A value counts as a commit exactly if it can be read as one, unless it is garbled. No written value is. A store
gives commit values that cannot be read exactly where a record is garbled, and they stand for commits on trunk. -/
theorem counts_iff_readable (value : String) (s : Store) (d : Document) :
    (∀ v, parse? value = some v ↔ Denotes value v) ∧
    ((recordsCommit value = true ↔ (parse? value).isSome = true) ↔ ¬ IsGarbled value) ∧
    (∀ v : CommitValue, ¬ IsGarbled v.text) ∧
    ((∀ r v, s.commitValue d r = .ok (some v) → (parse? v).isSome = true) ↔
      ∀ r v, s.HasRecord d r v → ¬ IsGarbled v) ∧
    (IsGarbled value → recordsCommit value = true ∧ ∀ r, resolve r value = r) := by
  refine ⟨fun v ↦ parse?_eq_some_iff, ⟨fun h hgarbled ↦ ?_, recordsCommit_iff_isSome⟩, fun v ↦ ?_,
    ⟨fun h r v hrecord hgarbled ↦ ?_, fun h r v hv ↦ ?_⟩, fun hgarbled ↦ ⟨hgarbled.recordsCommit, fun r ↦ ?_⟩⟩
  · exact not_garbled_of_isSome (h.1 hgarbled.recordsCommit) hgarbled
  · exact not_garbled_of_isSome (by rw [parse?_text]; rfl)
  · have hv := Store.commitValue_eq_some_iff.2 ⟨hrecord, hgarbled.recordsCommit⟩
    exact not_garbled_of_isSome (h r v hv) hgarbled
  · obtain ⟨hrecord, hcommit⟩ := Store.commitValue_eq_some_iff.1 hv
    exact (recordsCommit_iff_isSome (h r v hrecord)).1 hcommit
  · rw [resolve, hgarbled.parse?_eq_none]
    rfl

def garbledRecord : Document := (Document.blank .root).insertEntry Property.revisions (.onTrunk 100 0 1) "c-garbage"

theorem exists_unreadable_commit :
    ¬ (∀ value, recordsCommit value = true ↔ (parse? value).isSome = true) ∧
      ¬ ∀ (s : Store) (d : Document) (r : Revision) (value : String),
        s.commitValue d r = .ok (some value) → (parse? value).isSome = true := by
  have hnone : parse? "c-garbage" = none := by decide +kernel
  have hvalue : Store.empty.commitValue garbledRecord (.onTrunk 100 0 1) = .ok (some "c-garbage") := by decide +kernel
  constructor
  · intro claim
    have hread := (claim "c-garbage").1 (by decide)
    simp [hnone] at hread
  · intro claim
    have hread := claim .empty garbledRecord (.onTrunk 100 0 1) "c-garbage" hvalue
    simp [hnone] at hread

end CommitValue

end NodeStore
