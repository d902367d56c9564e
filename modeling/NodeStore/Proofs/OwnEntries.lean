import NodeStore.Proofs.Completeness
import NodeStore.Proofs.CorrectionCounts

namespace NodeStore

/-- The documents have the same entries of the member `c`. -/
structure Document.Agree (c : UInt32) (d e : Document) : Prop where
  id : e.id = d.id
  path : e.path = d.path
  entries : ∀ name r, r.clusterId = c → e.valueAt? name r = d.valueAt? name r

namespace Document.Agree

variable {c : UInt32} {d e : Document}

theorem refl (c : UInt32) (d : Document) : d.Agree c d := ⟨rfl, rfl, fun _ _ _ ↦ rfl⟩

theorem symm (h : d.Agree c e) : e.Agree c d :=
  ⟨h.id.symm, h.path.symm, fun name r hr ↦ (h.entries name r hr).symm⟩

theorem trans {f : Document} (h : d.Agree c e) (h' : e.Agree c f) : d.Agree c f where
  id := h'.id.trans h.id
  path := h'.path.trans h.path
  entries name r hr := (h'.entries name r hr).trans (h.entries name r hr)

theorem markerKey (h : d.Agree c e) {r : Revision} (hr : r.clusterId = c) : e.markerKey r = d.markerKey r := by
  rw [Document.markerKey, h.entries _ r hr, Document.markerKey]

theorem unchanged (h : d.Agree c e) {k : Key} {r : Revision} (hk : k.revision = some r) (hr : r.clusterId = c) :
    e.unchanged k = d.unchanged k := by
  rw [Document.unchanged, hk, Option.bind_some, h.entries _ r hr, Document.unchanged, hk, Option.bind_some]

end Document.Agree

namespace Sweep

variable {sw : Sweep} {head : Revision} {d e : Document} {commit commit' : Revision → Option String}

theorem correctionOf_congr {sw sw' : Sweep} (clusterId : sw.clusterId = sw'.clusterId)
    (filter : sw.filter = sw'.filter) (beyondHead : sw.config.beyondHead = sw'.config.beyondHead) :
    sw.correctionOf = sw'.correctionOf := by
  funext head d commit
  have hentries : sw.entries d.view = sw'.entries d.view := by simp only [entries, clusterId, filter]
  have hfinding : sw.findingOn head d commit = sw'.findingOn head d commit := by
    funext e
    simp only [findingOn, judge, beyondHead]
  rw [correctionOf, correctionOf, hentries, hfinding]

section Agree

variable (h : d.Agree sw.clusterId e) (hc : ∀ r, r.clusterId = sw.clusterId → commit' r = commit r)

include h

theorem visits_of_agree {name : String} {r : Revision} : sw.Visits e name r ↔ sw.Visits d name r :=
  and_congr_right fun _ ↦ and_congr_left fun hr ↦ by rw [h.entries name r hr]

theorem isMarked_of_agree {r : Revision} (hr : r.clusterId = sw.clusterId) : isMarked e r = isMarked d r := by
  rw [isMarked, h.entries _ r hr, isMarked]

include hc

theorem isLeftover_of_agree {r : Revision} : sw.IsLeftover head e commit' r ↔ sw.IsLeftover head d commit r :=
  and_congr_right fun hr ↦ by rw [hc r hr, isMarked_of_agree h hr]

theorem isUnmarkedMerge_of_agree {r : Revision} (hr : r.clusterId = sw.clusterId) :
    IsUnmarkedMerge e commit' r ↔ IsUnmarkedMerge d commit r := by
  rw [IsUnmarkedMerge, hc r hr, isMarked_of_agree h hr, IsUnmarkedMerge]

theorem TableChange.of_agree {k : Key} {c : Change} (hchange : sw.TableChange head d commit k c) :
    sw.TableChange head e commit' k c ∨ k = ⟨Property.deletedOnce, none⟩ ∧ e.deletedOnce = true := by
  cases hchange with
  | entry hvisit hleft => exact .inl (.entry ((visits_of_agree h).2 hvisit) ((isLeftover_of_agree h hc).2 hleft))
  | marker hvisit hleft =>
    rw [← h.markerKey hleft.1]
    exact .inl (.marker ((visits_of_agree h).2 hvisit) ((isLeftover_of_agree h hc).2 hleft))
  | mark hvisit hmerge =>
    exact .inl (.mark ((visits_of_agree h).2 hvisit) ((isUnmarkedMerge_of_agree h hc hvisit.2.2).2 hmerge))
  | flag hf _ hleft hcreated =>
    cases hflag : e.deletedOnce with
    | true => exact .inr ⟨rfl, rfl⟩
    | false =>
      rw [← h.entries _ _ hleft.1] at hcreated
      exact .inl (.flag hf hflag ((isLeftover_of_agree h hc).2 hleft) hcreated)

theorem TableCondition.of_agree {k : Key} {c : Condition} (hcondition : sw.TableCondition head d commit k c) :
    sw.TableCondition head e commit' k c := by
  cases hcondition with
  | entry hvisit hleft hne =>
    rw [← h.markerKey hleft.1] at hne
    exact .entry ((visits_of_agree h).2 hvisit) ((isLeftover_of_agree h hc).2 hleft) hne
  | @marker _ r hvisit hleft =>
    rw [← h.markerKey hleft.1, ← h.unchanged (e.markerKey_revision r) hleft.1]
    exact .marker ((visits_of_agree h).2 hvisit) ((isLeftover_of_agree h hc).2 hleft)
  | mark hvisit hmerge =>
    exact .mark ((visits_of_agree h).2 hvisit) ((isUnmarkedMerge_of_agree h hc hvisit.2.2).2 hmerge)

theorem change?_of_agree (name : String) (r : Revision) :
    (sw.correctionOf head e commit').update.change? name (some r) =
      (sw.correctionOf head d commit).update.change? name (some r) := by
  have hne : Key.mk name (some r) ≠ ⟨Property.deletedOnce, none⟩ := by simp
  have hc' (r : Revision) (hr : r.clusterId = sw.clusterId) : commit r = commit' r := (hc r hr).symm
  refine Option.ext fun c ↦ ?_
  rw [Update.change?, Update.change?, changes_correctionOf, changes_correctionOf]
  constructor
  · exact fun he ↦ (he.of_agree h.symm hc').resolve_right fun hflag ↦ hne hflag.1
  · exact fun hd ↦ (hd.of_agree h hc).resolve_right fun hflag ↦ hne hflag.1

theorem conditions_of_agree : (sw.correctionOf head e commit').update.conditions =
    (sw.correctionOf head d commit).update.conditions := by
  have hc' (r : Revision) (hr : r.clusterId = sw.clusterId) : commit r = commit' r := (hc r hr).symm
  refine SortedMap.ext_get? fun k ↦ Option.ext fun c ↦ ?_
  rw [conditions_correctionOf, conditions_correctionOf]
  exact ⟨fun he ↦ he.of_agree h.symm hc', fun hd ↦ hd.of_agree h hc⟩

theorem hasChanges_of_agree : (sw.correctionOf head e commit').update.hasChanges =
    (sw.correctionOf head d commit).update.hasChanges := by
  have hidle : (sw.correctionOf head e commit').update.hasChanges = false ↔
      (sw.correctionOf head d commit).update.hasChanges = false := by
    simp only [← Correction.update?_eq_none_iff, update?_correctionOf_eq_none_iff, no_change_iff,
      visits_of_agree h, isLeftover_of_agree h hc]
    exact forall₂_congr fun name r ↦ forall_congr' fun hvisit ↦ by
      rw [isUnmarkedMerge_of_agree h hc hvisit.2.2]
  rwa [Bool.eq_iff_iff, ← not_iff_not, Bool.not_eq_true, Bool.not_eq_true]

theorem reverted_of_agree :
    (sw.correctionOf head e commit').reverted = (sw.correctionOf head d commit).reverted := by
  rw [← Nat.cast_inj (R := ℕ∞), ← reverted_correctionOf, ← reverted_correctionOf]
  simp only [visits_of_agree h, isLeftover_of_agree h hc]

theorem marked_of_agree : (sw.correctionOf head e commit').marked = (sw.correctionOf head d commit).marked := by
  rw [← Nat.cast_inj (R := ℕ∞), ← marked_correctionOf, ← marked_correctionOf]
  congr 1
  ext r
  simp only [Set.mem_ofPred_eq, visits_of_agree h]
  refine and_congr_right fun hx ↦ ?_
  obtain ⟨name, hvisit⟩ := hx
  exact isUnmarkedMerge_of_agree h hc hvisit.2.2

end Agree

end Sweep

namespace Store

/-- The stores have the same documents, as far as the entries of the member `c` go. -/
structure Agree (c : UInt32) (s t : Store) : Prop where
  available : t.available = s.available
  stored : ∀ id d, s.documents.get? id = some d → ∃ e, t.documents.get? id = some e ∧ d.Agree c e
  added : ∀ id e, t.documents.get? id = some e → s.documents.get? id = none →
    ∀ name r, r.clusterId = c → e.valueAt? name r = none

theorem recordAt?_eq (s : Store) (p : Path) (r : Revision) :
    s.recordAt? p r = (s.valueAt? p.id Property.revisions r).filter CommitValue.recordsCommit := by
  rw [recordAt?, valueAt?]
  cases s.documents.get? p.id <;> rfl

theorem commitOf_congr_at {s t : Store} {d e : Document} {r : Revision} (path : e.path = d.path)
    (entries : ∀ name, e.valueAt? name r = d.valueAt? name r)
    (stored : ∀ id name, t.valueAt? id name r = s.valueAt? id name r) : t.commitOf e r = s.commitOf d r := by
  simp only [Store.commitOf, Document.committedValue?, entries, path, recordAt?_eq, stored]

namespace Agree

variable {c : UInt32} {s t : Store} {d e : Document}

theorem refl (c : UInt32) (s : Store) : s.Agree c s where
  available := rfl
  stored _ d hd := ⟨d, hd, .refl c d⟩
  added _ _ he hnone := by cases he.symm.trans hnone

theorem valueAt? (h : s.Agree c t) (id name : String) {r : Revision} (hr : r.clusterId = c) :
    t.valueAt? id name r = s.valueAt? id name r := by
  unfold Store.valueAt?
  cases hd : s.documents.get? id with
  | some d =>
    obtain ⟨e, he, hagree⟩ := h.stored id d hd
    rw [he, Option.bind_some, Option.bind_some, hagree.entries name r hr]
  | none =>
    cases he : t.documents.get? id with
    | some e => exact h.added id e he hd name r hr
    | none => rfl

theorem commitOf (h : s.Agree c t) (hd : d.Agree c e) {r : Revision} (hr : r.clusterId = c) :
    t.commitOf e r = s.commitOf d r :=
  commitOf_congr_at hd.path (fun name ↦ hd.entries name r hr) fun id name ↦ h.valueAt? id name hr

end Agree

end Store

namespace Sweep

variable {sw : Sweep} {head : Revision} {s t : Store} {d e : Document}

section Agree

variable (h : s.Agree sw.clusterId t) (hd : d.Agree sw.clusterId e)

include h hd

theorem refuses_of_agree : t.refuses e.path (sw.correctionIn head t e).update =
    s.refuses d.path (sw.correctionIn head s d).update := by
  have hroots : Receiver.namedRoots e.path (sw.correctionIn head t e).update =
      Receiver.namedRoots d.path (sw.correctionIn head s d).update := by
    rw [Receiver.namedRoots, correctionIn, conditions_of_agree hd fun r ↦ h.commitOf hd, hd.path]
    rfl
  rw [Store.refuses, hroots, Store.refuses, Bool.eq_iff_iff, List.any_eq_true, List.any_eq_true]
  refine exists_congr fun e ↦ and_congr_right fun hnamed ↦ ?_
  obtain ⟨r, root⟩ := e
  have hown := (mem_namedRoots_correctionOf.1 hnamed).2.1.1
  rw [Store.recordAt?_eq, h.valueAt? _ _ hown, Store.recordAt?_eq]

theorem accepts_of_agree : sw.accepts head t e = sw.accepts head s d := by
  rw [accepts, refuses_of_agree h hd, correctionIn, hasChanges_of_agree hd fun r ↦ h.commitOf hd]
  rfl

theorem isRefused_of_agree : sw.isRefused head t e = sw.isRefused head s d := by
  rw [isRefused, refuses_of_agree h hd, correctionIn, hasChanges_of_agree hd fun r ↦ h.commitOf hd]
  rfl

end Agree

theorem length_batchOf (sw : Sweep) (head : Revision) (s : Store) (ds : List Document) :
    (sw.batchOf head s ds).length = ds.countP fun d ↦ (sw.correctionIn head s d).update.hasChanges := by
  rw [batchOf, List.length_filterMap_eq_countP]
  refine List.countP_congr fun d _ ↦ ?_
  rw [Correction.update?]
  split <;> simp_all

end Sweep

namespace Member

variable {m : Member} {config : SweepConfig} {s t u v : Store} {head head' : Revision}
  {checkpoint next : RevisionVector} {o o' : MemberOutcome}

theorem isCandidate_of_agree {d e : Document} (hd : d.Agree m.clusterId e)
    (hbehind : ∀ r, r.clusterId = m.clusterId → next.isBehind r = checkpoint.isBehind r) :
    m.isCandidate next e = m.isCandidate checkpoint d := by
  rw [Bool.eq_iff_iff, isCandidate_iff, isCandidate_iff]
  refine exists_congr fun name ↦ exists_congr fun r ↦ and_congr_right fun _ ↦ ?_
  constructor
  · intro hx
    obtain ⟨hv, hr, hnew⟩ := hx
    exact ⟨by rwa [← hd.entries name r hr], hr, by rwa [← hbehind r hr]⟩
  · intro hx
    obtain ⟨hv, hr, hnew⟩ := hx
    exact ⟨by rwa [hd.entries name r hr], hr, by rwa [hbehind r hr]⟩

theorem not_isCandidate {d : Document} (h : ∀ name r, r.clusterId = m.clusterId → d.valueAt? name r = none)
    (checkpoint : RevisionVector) : m.isCandidate checkpoint d = false := by
  rw [← Bool.not_eq_true, isCandidate_iff]
  intro hx
  obtain ⟨name, r, -, hv, hr, -⟩ := hx
  rw [h name r hr] at hv
  cases hv

theorem candidates_perm (hs : s.WellFormed) (ht : t.WellFormed) (agree : s.Agree m.clusterId t)
    (hbehind : ∀ r, r.clusterId = m.clusterId → next.isBehind r = checkpoint.isBehind r) :
    (m.candidates t next).Perm ((m.candidates s checkpoint).map fun d ↦ (t.documents.get? d.id).getD d) := by
  have hnow {d : Document} (hd : d ∈ m.candidates s checkpoint) :
      ∃ e, t.documents.get? d.id = some e ∧ d.Agree m.clusterId e :=
    agree.stored d.id d ((mem_candidates hs).1 hd).1
  have hnodup : ((m.candidates s checkpoint).map fun d ↦ (t.documents.get? d.id).getD d).Nodup := by
    refine (candidates_nodup hs checkpoint).map_on fun d hd d' hd' heq ↦ ?_
    obtain ⟨e, he, hagree⟩ := hnow hd
    obtain ⟨e', he', hagree'⟩ := hnow hd'
    rw [he, he', Option.getD_some, Option.getD_some] at heq
    have hid : d.id = d'.id := by rw [← hagree.id, heq, hagree'.id]
    have hget := ((mem_candidates hs).1 hd).1
    rw [hid, ((mem_candidates hs).1 hd').1] at hget
    exact (Option.some.inj hget).symm
  rw [List.perm_ext_iff_of_nodup (candidates_nodup ht next) hnodup]
  intro e
  rw [mem_candidates ht, List.mem_map]
  constructor
  · intro hx
    obtain ⟨he, hcandidate⟩ := hx
    cases hd : s.documents.get? e.id with
    | none =>
      rw [not_isCandidate (agree.added e.id e he hd)] at hcandidate
      cases hcandidate
    | some d =>
      obtain ⟨e', he', hagree⟩ := agree.stored e.id d hd
      obtain rfl := Option.some.inj (he.symm.trans he')
      rw [isCandidate_of_agree hagree hbehind] at hcandidate
      refine ⟨d, (mem_candidates hs).2 ⟨hs.stored hd, hcandidate⟩, ?_⟩
      rw [← hagree.id, he, Option.getD_some]
  · intro hx
    obtain ⟨d, hd, rfl⟩ := hx
    obtain ⟨e, he, hagree⟩ := hnow hd
    rw [he, Option.getD_some, hagree.id, isCandidate_of_agree hagree hbehind]
    exact ⟨he, ((mem_candidates hs).1 hd).2⟩

/-- Sweeps of stores that agree on the entries of the member have the same outcome. -/
theorem Sweeps.outcome_eq (h : m.Sweeps config s head checkpoint o u) (h' : m.Sweeps config t head' next o' v)
    (hs : s.WellFormed) (ht : t.WellFormed) (agree : s.Agree m.clusterId t)
    (hbehind : ∀ r, r.clusterId = m.clusterId → next.isBehind r = checkpoint.isBehind r) : o' = o := by
  obtain rfl := Option.some.inj (h.component.symm.trans h'.component)
  have hperm := candidates_perm hs ht agree hbehind
  have hnow {d : Document} (hd : d ∈ m.candidates s checkpoint) :
      d.Agree m.clusterId ((t.documents.get? d.id).getD d) := by
    obtain ⟨e, he, hagree⟩ := agree.stored d.id d ((mem_candidates hs).1 hd).1
    rwa [he, Option.getD_some]
  have hcommit {d : Document} (hd : d ∈ m.candidates s checkpoint) (r : Revision) (hr : r.clusterId = m.clusterId) :
      t.commitOf ((t.documents.get? d.id).getD d) r = s.commitOf d r := agree.commitOf (hnow hd) hr
  have hcount {p q : Document → Bool} (hpq : ∀ d ∈ m.candidates s checkpoint,
      p ((t.documents.get? d.id).getD d) = q d) :
      (m.candidates t next).countP p = (m.candidates s checkpoint).countP q := by
    rw [hperm.countP_eq, List.countP_map]
    exact List.countP_congr fun d hd ↦ by rw [Function.comp_apply, hpq d hd]
  have hsum {f g : Document → Nat} (hfg : ∀ d ∈ m.candidates s checkpoint,
      f ((t.documents.get? d.id).getD d) = g d) :
      ((m.candidates t next).map f).sum = ((m.candidates s checkpoint).map g).sum := by
    rw [(hperm.map f).sum_eq, List.map_map]
    exact congrArg List.sum (List.map_congr_left hfg)
  have hscanned : o'.counts.scanned = o.counts.scanned := by
    rw [h'.scanned, hperm.length_eq, List.length_map, h.scanned]
  have hupdated : o'.counts.updated = o.counts.updated := by
    rw [h'.updated, h.updated, Sweep.length_batchOf, Sweep.length_batchOf]
    exact hcount fun d hd ↦ Sweep.hasChanges_of_agree (hnow hd) (hcommit hd)
  have hreverted : o'.counts.reverted = o.counts.reverted := by
    rw [h'.reverted, h.reverted]
    exact hsum fun d hd ↦ Sweep.reverted_of_agree (hnow hd) (hcommit hd)
  have hmarked : o'.counts.marked = o.counts.marked := by
    rw [h'.marked, h.marked]
    exact hsum fun d hd ↦ Sweep.marked_of_agree (hnow hd) (hcommit hd)
  have hbatches : o'.counts.batches = o.counts.batches := by rw [h'.batches, hupdated, h.batches]
  have htally : o'.tally = o.tally := by
    rw [h'.tally, h.tally, hcount fun d hd ↦ Sweep.accepts_of_agree agree (hnow hd),
      hcount fun d hd ↦ Sweep.isRefused_of_agree agree (hnow hd)]
  have hrevision := h'.sweepRevision.trans h.sweepRevision.symm
  obtain ⟨_, ⟨⟩, _⟩ := o
  obtain ⟨_, ⟨⟩, _⟩ := o'
  simp_all

end Member

end NodeStore
