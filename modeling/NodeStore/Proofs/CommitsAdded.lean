import NodeStore.Proofs.MemberSweep
import NodeStore.Proofs.RevisionText

namespace NodeStore

namespace Document

/-- At the revision `r` the document `e` is as `d`, or has a commit record that `d` may lack. Checkpoints do not
count. -/
structure GainsAt (d e : Document) (r : Revision) : Prop where
  path : e.path = d.path
  entries : ∀ name, name ≠ Property.sweepRevision → e.valueAt? name r = d.valueAt? name r ∨
    name = Property.revisions ∧ (e.committedValue? r).isSome

def Gains (d e : Document) : Prop := ∀ r, d.GainsAt e r

variable {d e f : Document} {name : String} {r : Revision}

theorem isSome_of_committedValue? (h : (d.committedValue? r).isSome) :
    (d.valueAt? Property.revisions r).isSome := by
  obtain ⟨v, hv⟩ := Option.isSome_iff_exists.1 h
  rw [(Option.filter_eq_some_iff.1 hv).1]
  rfl

theorem Gains.refl (d : Document) : d.Gains d := fun _ ↦ ⟨rfl, fun _ _ ↦ .inl rfl⟩

namespace GainsAt

theorem valueAt?_eq (h : d.GainsAt e r) (hsweep : name ≠ Property.sweepRevision)
    (hname : name ≠ Property.revisions) : e.valueAt? name r = d.valueAt? name r :=
  (h.entries name hsweep).resolve_right fun hc ↦ hname hc.1

theorem isSome_valueAt? (h : d.GainsAt e r) (hsweep : name ≠ Property.sweepRevision)
    (hv : (d.valueAt? name r).isSome) : (e.valueAt? name r).isSome := by
  rcases h.entries name hsweep with heq | ⟨rfl, hc⟩
  · rwa [heq]
  · exact isSome_of_committedValue? hc

theorem isSome_committedValue? (h : d.GainsAt e r) (hc : (d.committedValue? r).isSome) :
    (e.committedValue? r).isSome := by
  rcases h.entries Property.revisions (by decide) with heq | ⟨-, hc'⟩
  · rwa [committedValue?, heq, ← committedValue?]
  · exact hc'

theorem trans (h : d.GainsAt e r) (h' : e.GainsAt f r) : d.GainsAt f r where
  path := h'.path.trans h.path
  entries name hsweep := by
    rcases h'.entries name hsweep with heq | hc
    · rcases h.entries name hsweep with heq' | ⟨hname, hc⟩
      · exact .inl (heq.trans heq')
      · exact .inr ⟨hname, h'.isSome_committedValue? hc⟩
    · exact .inr hc

theorem isMarked_eq (h : d.GainsAt e r) : Sweep.isMarked e r = Sweep.isMarked d r := by
  rw [Sweep.isMarked, h.valueAt?_eq (by decide) (by decide), Sweep.isMarked]

end GainsAt

theorem Gains.trans (h : d.Gains e) (h' : e.Gains f) : d.Gains f := fun r ↦ (h r).trans (h' r)

theorem gains_apply_checkpoint (d : Document) (x : Revision) : d.Gains (d.apply (.checkpoint x)) := fun r ↦
  ⟨d.path_apply _, fun _ hsweep ↦ .inl (d.valueAt?_apply_checkpoint_of_ne x hsweep r)⟩

end Document

namespace Store

variable {s t u : Store}

def KeepsCommits (s t : Store) : Prop := ∀ p r, (s.recordAt? p r).isSome → (t.recordAt? p r).isSome

theorem KeepsCommits.trans (h : s.KeepsCommits t) (h' : t.KeepsCommits u) : s.KeepsCommits u :=
  fun p r hr ↦ h' p r (h p r hr)

/-- The store `t` is `s` with commits and checkpoints added. -/
structure Gains (s t : Store) : Prop where
  available : t.available = s.available
  documents : ∀ id d, s.documents.get? id = some d → ∃ e, t.documents.get? id = some e ∧ d.Gains e

theorem Gains.refl (s : Store) : s.Gains s := ⟨rfl, fun _ d hd ↦ ⟨d, hd, .refl d⟩⟩

theorem Gains.trans (h : s.Gains t) (h' : t.Gains u) : s.Gains u where
  available := h'.available.trans h.available
  documents id d hd := by
    obtain ⟨e, he, hde⟩ := h.documents id d hd
    obtain ⟨f, hf, hef⟩ := h'.documents id e he
    exact ⟨f, hf, hde.trans hef⟩

theorem isSome_recordAt? {p : Path} {r : Revision} : (s.recordAt? p r).isSome ↔
    ∃ d, s.documents.get? p.id = some d ∧ (d.committedValue? r).isSome := by
  rw [recordAt?, Option.isSome_bind, Option.any_eq_true]

theorem Gains.keepsCommits (h : s.Gains t) : s.KeepsCommits t := by
  intro p r hr
  obtain ⟨d, hd, hc⟩ := isSome_recordAt?.1 hr
  obtain ⟨e, he, hde⟩ := h.documents _ d hd
  exact isSome_recordAt?.2 ⟨e, he, (hde r).isSome_committedValue? hc⟩

theorem isSome_commitOf_of_committed {d : Document} {r : Revision} (h : (d.committedValue? r).isSome) :
    (s.commitOf d r).isSome := by
  obtain ⟨v, hv⟩ := Option.isSome_iff_exists.1 (Document.isSome_of_committedValue? h)
  rwa [s.commitOf_own d r v hv]

theorem KeepsCommits.isSome_commitOf (h : s.KeepsCommits t) {d e : Document} {r : Revision}
    (hde : d.GainsAt e r) (hc : (s.commitOf d r).isSome) : (t.commitOf e r).isSome := by
  rcases hde.entries Property.revisions (by decide) with hrecord | ⟨-, hcommitted⟩
  · have hroot : e.valueAt? Property.commitRoot r = d.valueAt? Property.commitRoot r :=
      hde.valueAt?_eq (by decide) (by decide)
    have hvalue : e.committedValue? r = d.committedValue? r := by
      rw [Document.committedValue?, hrecord, Document.committedValue?]
    unfold commitOf at hc ⊢
    rw [hrecord, hroot, hvalue, hde.path]
    cases hv : d.valueAt? Property.revisions r with
    | some v =>
      rw [hv] at hc
      exact hc
    | none =>
      rw [hv] at hc
      cases hr : (d.valueAt? Property.commitRoot r).bind d.path.ancestorAtText? with
      | none =>
        rw [hr] at hc
        exact hc
      | some root =>
        rw [hr] at hc
        simp only at hc ⊢
        split at hc
        · cases hc
        next hself =>
          rw [if_neg hself]
          exact h root r hc
  · exact isSome_commitOf_of_committed hcommitted

theorem gains_withCheckpoint (s : Store) (x : Revision) : s.Gains (s.withCheckpoint x) where
  available := rfl
  documents id d hd := by
    rw [get?_withCheckpoint]
    split
    next hid =>
      rw [rootDocument, ← hid, hd]
      exact ⟨_, rfl, d.gains_apply_checkpoint x⟩
    next => exact ⟨d, hd, .refl d⟩

end Store

structure Commit where
  root : Path
  revision : Revision
  value : CommitValue

namespace Commit

def update (c : Commit) : Update := (Update.start c.root.id true).insertCommit c.revision c.value.text

theorem change?_update (c : Commit) (name : String) (r : Revision) : c.update.change? name (some r) =
    if name = Property.revisions ∧ r = c.revision then some (.insertEntry c.value.text) else none := by
  rw [update, Update.insertCommit, Update.change?_insertEntry]
  rfl

theorem gains_apply (c : Commit) (d : Document) : d.Gains (d.apply c.update) := by
  refine fun r ↦ ⟨d.path_apply _, fun name hsweep ↦ ?_⟩
  have hvalue := d.valueAt?_apply name r c.update
  rw [c.change?_update] at hvalue
  by_cases hk : name = Property.revisions ∧ r = c.revision
  · obtain ⟨rfl, rfl⟩ := hk
    rw [if_pos ⟨rfl, rfl⟩] at hvalue
    refine .inr ⟨rfl, ?_⟩
    rw [Document.committedValue?, hvalue]
    simp [Change.effect, CommitValue.recordsCommit_text]
  · rw [if_neg hk] at hvalue
    exact .inl hvalue

theorem valueAt?_apply_sweepRevision (c : Commit) (d : Document) (r : Revision) :
    (d.apply c.update).valueAt? Property.sweepRevision r = d.valueAt? Property.sweepRevision r := by
  rw [d.valueAt?_apply, c.change?_update, if_neg fun hk ↦ absurd hk.1 (by decide)]

end Commit

namespace Store

structure GainsCommits (s t : Store) : Prop extends s.Gains t where
  checkpoints : ∀ r, t.valueAt? Path.root.id Property.sweepRevision r =
    s.valueAt? Path.root.id Property.sweepRevision r

theorem GainsCommits.refl (s : Store) : s.GainsCommits s := ⟨.refl s, fun _ ↦ rfl⟩

theorem GainsCommits.trans {s t u : Store} (h : s.GainsCommits t) (h' : t.GainsCommits u) :
    s.GainsCommits u :=
  ⟨h.toGains.trans h'.toGains, fun r ↦ (h'.checkpoints r).trans (h.checkpoints r)⟩

def commit (s : Store) (c : Commit) : Store := (s.upsert c.update).2

def commitAll (s : Store) (cs : List Commit) : Store := cs.foldl commit s

theorem commit_cases (s : Store) (c : Commit) : s.commit c = s ∨ ∃ d,
    (s.documents.get? c.root.id = some d ∨ s.documents.get? c.root.id = none ∧ ∃ p, d = .blank p) ∧
      s.commit c = s.put c.root.id (d.apply c.update) := by
  have hid : c.update.id = c.root.id := rfl
  unfold commit upsert
  rw [hid]
  cases ha : s.available with
  | false => exact .inl rfl
  | true =>
    rw [if_pos rfl]
    cases hd : s.documents.get? c.root.id with
    | some d => exact .inr ⟨d, .inl rfl, rfl⟩
    | none =>
      unfold Document.ofId
      cases Path.ofId c.root.id with
      | error e => exact .inl rfl
      | ok p => exact .inr ⟨.blank p, .inr ⟨rfl, p, rfl⟩, rfl⟩

theorem gainsCommits_commit (s : Store) (c : Commit) : s.GainsCommits (s.commit c) := by
  rcases s.commit_cases c with hsame | ⟨d, hd, hput⟩
  · rw [hsame]
    exact .refl s
  · rw [hput]
    refine ⟨⟨rfl, fun id e he ↦ ?_⟩, fun r ↦ ?_⟩
    · rw [put, SortedMap.get?_insert]
      split
      next hid =>
        rw [hid] at he
        rcases hd with hd | ⟨hnone, -⟩
        · obtain rfl := Option.some.inj (hd.symm.trans he)
          exact ⟨_, rfl, c.gains_apply d⟩
        · cases hnone.symm.trans he
      next => exact ⟨e, he, .refl e⟩
    · rw [valueAt?, valueAt?, put, SortedMap.get?_insert]
      split
      next hid =>
        rw [hid, Option.bind_some, c.valueAt?_apply_sweepRevision]
        rcases hd with hd | ⟨hnone, p, rfl⟩
        · rw [hd, Option.bind_some]
        · rw [hnone]
          rfl
      next => rfl

theorem gainsCommits_commitAll (s : Store) (cs : List Commit) : s.GainsCommits (s.commitAll cs) := by
  induction cs generalizing s with
  | nil => exact .refl s
  | cons c cs ih => exact (s.gainsCommits_commit c).trans (ih (s.commit c))

end Store

namespace Sweep

variable {sw : Sweep} {head : Revision} {s t : Store} {d e : Document} {name : String} {r : Revision}

/-- A leftover that is found after commits were added was one before. -/
theorem leftover_before (hf : sw.filter Property.sweepRevision = false) (h : s.KeepsCommits t)
    (hde : d.GainsAt e r) (hvisit : sw.Visits e name r) (hleft : sw.IsLeftover head e (t.commitOf e) r) :
    sw.Visits d name r ∧ sw.IsLeftover head d (s.commitOf d) r := by
  obtain ⟨hname, hv, hown⟩ := hvisit
  obtain ⟨-, hnone, hmarked, hnew⟩ := hleft
  have hsweep : name ≠ Property.sweepRevision := fun heq ↦ by
    rw [heq, hf] at hname
    cases hname
  refine ⟨⟨hname, ?_, hown⟩, hown, ?_, by rwa [← hde.isMarked_eq], hnew⟩
  · rcases hde.entries name hsweep with heq | ⟨-, hc⟩
    · rwa [← heq]
    · have hsome := t.isSome_commitOf_of_committed hc
      rw [hnone] at hsome
      cases hsome
  · by_contra hc
    have hsome := h.isSome_commitOf hde (Option.isSome_iff_ne_none.2 hc)
    rw [hnone] at hsome
    cases hsome

end Sweep

end NodeStore
