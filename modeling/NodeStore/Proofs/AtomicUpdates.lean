import NodeStore.Proofs.GuardedUpdates

namespace NodeStore

def Update.unconditional (u : Update) : Update := { u with isNew := true, conditions := .empty }

namespace Store

structure Changes (s : Store) (u : Update) (d : Document) : Prop where
  available : s.available = true
  stored : s.documents.get? u.id = some d
  meets : d.meets u = true

structure Makes (s : Store) (u : Update) (d : Document) : Prop where
  available : s.available = true
  missing : s.documents.get? u.id = none
  isNew : u.isNew = true
  empty : Document.ofId u.id = .ok d
  meets : d.meets u = true

/-- All that a conditional update can answer and do. -/
inductive Answers (s : Store) (u : Update) : Except StoreError (Option Document) × Store → Prop
  | changed {d : Document} : s.Changes u d → Answers s u (.ok (some d), s.put u.id (d.apply u))
  | made {d : Document} : s.Makes u d → Answers s u (.ok none, s.put u.id (d.apply u))
  | rejected : s.available = true → (∀ d, ¬ s.Changes u d) → (∀ d, ¬ s.Makes u d) → Answers s u (.ok none, s)
  | offline : s.available = false → Answers s u (.error offline, s)
  | unreadable {e : StoreError} : s.available = true → s.documents.get? u.id = none → u.isNew = true →
      Document.ofId u.id = .error e → Answers s u (.error e, s)

variable {s : Store} {u : Update} {d : Document}

theorem updateIf_answers (s : Store) (u : Update) : s.Answers u (s.updateIf u) := by
  unfold updateIf
  cases ha : s.available with
  | false => exact .offline ha
  | true =>
    rw [if_pos rfl]
    cases hd : s.documents.get? u.id with
    | some d =>
      dsimp only
      cases hm : d.meets u with
      | true => exact .changed ⟨ha, hd, hm⟩
      | false =>
        refine .rejected ha (fun e he ↦ ?_) fun e he ↦ ?_
        · obtain rfl := Option.some.inj (hd.symm.trans he.stored)
          cases hm.symm.trans he.meets
        · cases hd.symm.trans he.missing
    | none =>
      have hchanges : ∀ d, ¬ s.Changes u d := fun d h ↦ by cases hd.symm.trans h.stored
      cases hnew : u.isNew with
      | false => exact .rejected ha hchanges fun d h ↦ by cases hnew.symm.trans h.isNew
      | true =>
        cases hempty : Document.ofId u.id with
        | error e => exact .unreadable ha hd hnew hempty
        | ok d =>
          dsimp only
          cases hm : d.meets u with
          | true => exact .made ⟨ha, hd, hnew, hempty, hm⟩
          | false =>
            refine .rejected ha hchanges fun e he ↦ ?_
            obtain rfl := Except.ok.inj (hempty.symm.trans he.empty)
            cases hm.symm.trans he.meets

theorem upsert_eq_updateIf (s : Store) (u : Update) : s.upsert u = s.updateIf u.unconditional := by
  have hmeets (d : Document) : d.meets u.unconditional = true := rfl
  rw [upsert, updateIf]
  simp only [hmeets, if_true]
  rfl

/-- The document that a conditional update is made of: a stored or an empty one on which its conditions hold. -/
def target? (s : Store) (u : Update) : Option Document :=
  if s.available then
    ((s.documents.get? u.id).or (if u.isNew then (Document.ofId u.id).toOption else none)).filter (·.meets u)
  else none

theorem target?_eq_some_iff : s.target? u = some d ↔ s.Changes u d ∨ s.Makes u d := by
  have hempty {r : Except StoreError Document} {d : Document} : r.toOption = some d ↔ r = .ok d := by
    cases r <;> simp [Except.toOption]
  rw [target?]
  cases ha : s.available with
  | false =>
    simp only [Bool.false_eq_true, if_false, reduceCtorEq, false_iff, not_or]
    exact ⟨fun h ↦ (by cases ha.symm.trans h.available), fun h ↦ (by cases ha.symm.trans h.available)⟩
  | true =>
    rw [if_pos rfl, Option.filter_eq_some_iff, Option.or_eq_some_iff]
    constructor
    · rintro ⟨hd | ⟨hmissing, hd⟩, hm⟩
      · exact .inl ⟨ha, hd, hm⟩
      · cases hnew : u.isNew with
        | false => simp [hnew] at hd
        | true => exact .inr ⟨ha, hmissing, hnew, hempty.1 (by simpa [hnew] using hd), hm⟩
    · rintro (h | h)
      · exact ⟨.inl h.stored, h.meets⟩
      · exact ⟨.inr ⟨h.missing, by rw [if_pos h.isNew, h.empty]; rfl⟩, h.meets⟩

theorem updateIf_of_makes (h : s.Makes u d) : s.updateIf u = (.ok none, s.put u.id (d.apply u)) := by
  rw [updateIf, if_pos h.available, h.missing]
  simp [h.isNew, h.empty, h.meets]

theorem Answers.store_of_failed {answer : Except StoreError (Option Document) × Store} (h : s.Answers u answer)
    {e : StoreError} (he : answer.1 = .error e) : answer.2 = s := by
  cases h with
  | changed | made | rejected => cases he
  | offline | unreadable => rfl

theorem store_updateIf (s : Store) (u : Update) :
    (s.updateIf u).2 = (s.target? u).elim s fun d ↦ s.put u.id (d.apply u) := by
  cases ht : s.target? u with
  | some d =>
    rcases target?_eq_some_iff.1 ht with h | h
    · rw [updateIf_of_meets h.available h.stored h.meets]
      rfl
    · rw [updateIf_of_makes h]
      rfl
  | none =>
    have hanswer := s.updateIf_answers u
    generalize s.updateIf u = answer at hanswer
    cases hanswer with
    | changed h => cases ht.symm.trans (target?_eq_some_iff.2 (.inl h))
    | made h => cases ht.symm.trans (target?_eq_some_iff.2 (.inr h))
    | rejected | offline | unreadable => rfl

/-- An update changes one document as a whole, or the store stays as it is. -/
structure IsAtomic (s : Store) (u : Update) : Prop where
  answer : ∀ d, (s.updateIf u).1 = .ok (some d) ↔ s.Changes u d
  changed : ∀ d, s.Changes u d → (s.updateIf u).2 = s.put u.id (d.apply u)
  /-- A new document is answered like a rejection. -/
  made : ∀ d, s.Makes u d → s.updateIf u = (.ok none, s.put u.id (d.apply u))
  same : (∀ d, ¬ s.Changes u d) → (∀ d, ¬ s.Makes u d) → (s.updateIf u).2 = s
  failed : ∀ e, (s.updateIf u).1 = .error e → (s.updateIf u).2 = s
  failed_upsert : ∀ e, (s.upsert u).1 = .error e → (s.upsert u).2 = s

theorem isAtomic (s : Store) (u : Update) : s.IsAtomic u where
  answer d := by
    refine ⟨fun h ↦ ?_, fun h ↦ by rw [updateIf_of_meets h.available h.stored h.meets]⟩
    have hanswer := s.updateIf_answers u
    generalize s.updateIf u = answer at h hanswer
    cases hanswer with
    | changed hchanges => exact Option.some.inj (Except.ok.inj h) ▸ hchanges
    | made | rejected | offline | unreadable => cases h
  changed d h := by rw [updateIf_of_meets h.available h.stored h.meets]
  made _ := updateIf_of_makes
  same hchanges hmakes := by
    have hnone : s.target? u = none := by
      rw [Option.eq_none_iff_forall_ne_some]
      exact fun d hd ↦ (target?_eq_some_iff.1 hd).elim (hchanges d) (hmakes d)
    rw [store_updateIf, hnone]
    rfl
  failed _ := (s.updateIf_answers u).store_of_failed
  failed_upsert _ := by
    rw [upsert_eq_updateIf]
    exact (s.updateIf_answers _).store_of_failed

end Store

end NodeStore
