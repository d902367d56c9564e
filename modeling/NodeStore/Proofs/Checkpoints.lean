import NodeStore.Proofs.MemberSweep
import NodeStore.Proofs.RevisionText

namespace NodeStore

namespace Revision

variable {a b c : Revision}

theorem isAfter_iff : a.isAfter b = true ↔ compareTime a b = .gt := by
  rw [isAfter, beq_iff_eq]

theorem isAfter_trans (hab : a.isAfter b = true) (hbc : b.isAfter c = true) : a.isAfter c = true := by
  rw [isAfter_iff] at *
  exact Std.TransCmp.gt_trans hab hbc

theorem isAfter_of_isAfter_of_not (hab : a.isAfter b = true) (hcb : c.isAfter b = false) :
    a.isAfter c = true := by
  have hle : compareTime c b ≠ .gt := fun h ↦ by
    rw [isAfter_iff.2 h] at hcb
    cases hcb
  rw [isAfter_iff] at *
  exact Std.TransCmp.gt_of_gt_of_isGE hab (by
    rw [Std.OrientedCmp.isGE_iff_isLE, Ordering.isLE_iff_ne_gt]
    exact hle)

theorem isAfter_self (a : Revision) : a.isAfter a = false := by
  have h : compareTime a a = .eq := Std.ReflCmp.compare_self
  rw [isAfter, h]
  rfl

end Revision

namespace RevisionVector

theorem isBehind_update (v : RevisionVector) (x r : Revision) : (v.update x).isBehind r =
    if x.clusterId = r.clusterId then r.isAfter x else v.isBehind r := by
  by_cases hc : x.clusterId = r.clusterId
  · simp [isBehind, revision?, update, hc]
  · simp [isBehind, revision?, update, SortedMap.get?_insert, hc, Ne.symm hc]

theorem isBehind_observe (v : RevisionVector) (x r : Revision) : (v.observe x).isBehind r = true ↔
    v.isBehind r = true ∧ (x.clusterId = r.clusterId → r.isAfter x = true) := by
  rw [observe]
  by_cases hc : x.clusterId = r.clusterId
  · cases hv : v.revision? r.clusterId with
    | none =>
      have hx : v.isBehind x = true := by rw [isBehind, hc, hv]
      have hr : v.isBehind r = true := by rw [isBehind, hv]
      rw [if_pos hx, isBehind_update, if_pos hc, hr]
      simp [hc]
    | some current =>
      have hx : v.isBehind x = x.isAfter current := by rw [isBehind, hc, hv]
      have hr : v.isBehind r = r.isAfter current := by rw [isBehind, hv]
      rw [hx, hr]
      split
      next h =>
        rw [isBehind_update, if_pos hc]
        exact ⟨fun ha ↦ ⟨Revision.isAfter_trans ha h, fun _ ↦ ha⟩, fun ha ↦ ha.2 hc⟩
      next h =>
        rw [hr]
        exact ⟨fun ha ↦ ⟨ha, fun _ ↦ Revision.isAfter_of_isAfter_of_not ha (by simpa using h)⟩, And.left⟩
  · rw [and_iff_left fun h ↦ absurd h hc]
    split
    · rw [isBehind_update, if_neg hc]
    · rfl

theorem isBehind_foldl_observe (v : RevisionVector) (xs : List Revision) (r : Revision) :
    (xs.foldl observe v).isBehind r = true ↔
      v.isBehind r = true ∧ ∀ x ∈ xs, x.clusterId = r.clusterId → r.isAfter x = true := by
  induction xs generalizing v with
  | nil => simp
  | cons x xs ih => rw [List.foldl_cons, ih, isBehind_observe, List.forall_mem_cons, and_assoc]

theorem isBehind_ofRevisions (xs : List Revision) (r : Revision) : (ofRevisions xs).isBehind r = true ↔
    ∀ x ∈ xs, x.clusterId = r.clusterId → r.isAfter x = true := by
  rw [ofRevisions, isBehind_foldl_observe]
  exact and_iff_right rfl

end RevisionVector

theorem mapM_eq_ok_iff {α β ε : Type} {f : α → Except ε β} {l : List α} {ys : List β} :
    l.mapM f = .ok ys ↔ l.map f = ys.map .ok := by
  induction l generalizing ys with
  | nil => cases ys <;> simp [Pure.pure, Except.pure]
  | cons a l ih =>
    rw [List.mapM_cons, List.map_cons]
    cases ha : f a with
    | error e => cases ys <;> simp [bind, Except.bind]
    | ok b =>
      cases ys with
      | nil => cases hl : l.mapM f <;> simp [bind, Except.bind, Pure.pure, Except.pure]
      | cons y ys =>
        rw [List.map_cons, List.cons_eq_cons, ← ih]
        cases hl : l.mapM f <;> simp [bind, Except.bind, Pure.pure, Except.pure]

theorem Change.effect_raiseEntry (x : Revision) (old : Option String) : ∃ v y,
    (Change.raiseEntry x).effect old = some v ∧ Revision.parse? v = some y ∧ x.isAfter y = false := by
  cases hold : old.bind Revision.parse? with
  | none =>
    exact ⟨x.text, x, by simp only [Change.effect, hold], Revision.parse?_text x, Revision.isAfter_self x⟩
  | some y =>
    obtain ⟨v, rfl, hv⟩ := Option.bind_eq_some_iff.1 hold
    cases hx : x.isAfter y with
    | true =>
      refine ⟨x.text, x, ?_, Revision.parse?_text x, Revision.isAfter_self x⟩
      simp only [Change.effect, hold, hx, if_true]
    | false =>
      refine ⟨v, y, ?_, hv, hx⟩
      simp only [Change.effect, hold, hx, Bool.false_eq_true, if_false]

namespace Document

theorem mem_values_sweepRevision {d : Document} {v : String} :
    v ∈ (((d.map? Property.sweepRevision).map (·.values)).getD []) ↔
      ∃ k, d.valueAt? Property.sweepRevision k = some v := by
  unfold valueAt?
  cases d.map? Property.sweepRevision with
  | none => simp
  | some m => simpa using SortedMap.mem_values_iff

theorem apply_checkpoint_of_not_after {d : Document} {x y : Revision} {v : String}
    (hv : d.valueAt? Property.sweepRevision (.onTrunk 0 0 x.clusterId) = some v)
    (hy : Revision.parse? v = some y) (hx : x.isAfter y = false) :
    d.apply (.checkpoint x) = { d with modCount := d.modCount + 1 } := by
  have hraise : d.raiseEntry Property.sweepRevision (.onTrunk 0 0 x.clusterId) x = d := by
    simp only [raiseEntry, hv, Option.bind_some, hy, hx, Bool.false_eq_true, if_false]
  have hentries : (Update.checkpoint x).changes.entries =
      [(.entry Property.sweepRevision (.onTrunk 0 0 x.clusterId), .raiseEntry x)] := rfl
  have hchange : d.applyChange (.entry Property.sweepRevision (.onTrunk 0 0 x.clusterId)) (.raiseEntry x) = d :=
    hraise
  simp only [apply, hentries, List.foldl_cons, List.foldl_nil, hchange]

end Document

namespace Store

variable {s : Store}

theorem valueAt?_rootDocument (s : Store) (name : String) (r : Revision) :
    s.rootDocument.valueAt? name r = s.valueAt? Path.root.id name r := by
  rw [rootDocument, valueAt?]
  cases s.documents.get? Path.root.id <;> rfl

def HasCheckpoint (s : Store) (v : String) : Prop :=
  ∃ k, s.valueAt? Path.root.id Property.sweepRevision k = some v

def Readable (s : Store) : Prop := s.available = true ∧ ∃ checkpoint, s.checkpoints = .ok checkpoint

theorem checkpoints_of_available (h : s.available = true) {v : RevisionVector} :
    s.checkpoints = .ok v ↔ checkpointsOf s.rootDocument = .ok v := by
  rw [checkpoints, findAt, find_of_available h, rootDocument]
  cases s.documents.get? Path.root.id with
  | none =>
    have hblank : checkpointsOf (.blank .root) = .ok .empty := rfl
    simp [hblank]
  | some d =>
    cases hd : checkpointsOf d <;> simp [hd]

theorem checkpointsOf_eq_ok_iff {d : Document} {v : RevisionVector} : checkpointsOf d = .ok v ↔
    ∃ rs, (((d.map? Property.sweepRevision).map (·.values)).getD []).mapM Revision.parse = .ok rs ∧
      .ofRevisions rs = v := by
  rw [checkpointsOf]
  cases (((d.map? Property.sweepRevision).map (·.values)).getD []).mapM Revision.parse <;> simp [Except.map]

theorem mem_values_rootDocument {v : String} :
    v ∈ (((s.rootDocument.map? Property.sweepRevision).map (·.values)).getD []) ↔ s.HasCheckpoint v := by
  rw [Document.mem_values_sweepRevision, HasCheckpoint]
  simp only [valueAt?_rootDocument]

theorem exists_revisions_of_checkpoints (h : s.available = true) {checkpoint : RevisionVector}
    (hc : s.checkpoints = .ok checkpoint) : ∃ rs, .ofRevisions rs = checkpoint ∧
      (∀ v, s.HasCheckpoint v → ∃ x, Revision.parse v = .ok x) ∧
      ∀ x, x ∈ rs ↔ ∃ v, s.HasCheckpoint v ∧ Revision.parse v = .ok x := by
  obtain ⟨rs, hrs, rfl⟩ := checkpointsOf_eq_ok_iff.1 ((checkpoints_of_available h).1 hc)
  have hmap := mapM_eq_ok_iff.1 hrs
  refine ⟨rs, rfl, fun v hv ↦ ?_, fun x ↦ ?_⟩
  · have hparse := List.mem_map_of_mem (f := Revision.parse) (mem_values_rootDocument.2 hv)
    rw [hmap, List.mem_map] at hparse
    obtain ⟨x, -, hx⟩ := hparse
    exact ⟨x, hx.symm⟩
  · have hmem : x ∈ rs ↔ (.ok x : Except RevisionError Revision) ∈ rs.map Except.ok := by simp
    rw [hmem, ← hmap, List.mem_map]
    simp only [mem_values_rootDocument]

/-- Stored checkpoints that can be read are behind exactly the revisions after all of their member. -/
theorem checkpoints_spec (h : s.available = true) {checkpoint : RevisionVector}
    (hc : s.checkpoints = .ok checkpoint) :
    (∀ v, s.HasCheckpoint v → ∃ x, Revision.parse v = .ok x) ∧
      ∀ r, checkpoint.isBehind r = true ↔
        ∀ v x, s.HasCheckpoint v → Revision.parse v = .ok x → x.clusterId = r.clusterId →
          r.isAfter x = true := by
  obtain ⟨rs, rfl, hparse, hmem⟩ := exists_revisions_of_checkpoints h hc
  refine ⟨hparse, fun r ↦ ?_⟩
  rw [RevisionVector.isBehind_ofRevisions]
  constructor
  · exact fun hall v x hv hx ↦ hall x ((hmem x).2 ⟨v, hv, hx⟩)
  · intro hall x hx
    obtain ⟨v, hv, hparse⟩ := (hmem x).1 hx
    exact hall v x hv hparse

theorem exists_checkpoints (h : s.available = true)
    (hparse : ∀ v, s.HasCheckpoint v → ∃ x, Revision.parse v = .ok x) :
    ∃ checkpoint, s.checkpoints = .ok checkpoint := by
  simp only [checkpoints_of_available h, checkpointsOf_eq_ok_iff, mapM_eq_ok_iff]
  have hall : ∀ v ∈ (((s.rootDocument.map? Property.sweepRevision).map (·.values)).getD []),
      ∃ x, Revision.parse v = .ok x := fun v hv ↦ hparse v (mem_values_rootDocument.1 hv)
  generalize (((s.rootDocument.map? Property.sweepRevision).map (·.values)).getD []) = vs at hall ⊢
  induction vs with
  | nil => exact ⟨_, [], rfl, rfl⟩
  | cons v vs ih =>
    obtain ⟨x, hx⟩ := hall v List.mem_cons_self
    obtain ⟨_, xs, hxs, -⟩ := ih fun w hw ↦ hall w (List.mem_cons_of_mem _ hw)
    exact ⟨_, x :: xs, by rw [List.map_cons, List.map_cons, hx, hxs], rfl⟩

theorem valueAt?_withCheckpoint (s : Store) (x k : Revision) :
    (s.withCheckpoint x).valueAt? Path.root.id Property.sweepRevision k =
      if k = .onTrunk 0 0 x.clusterId
      then (Change.raiseEntry x).effect (s.valueAt? Path.root.id Property.sweepRevision k)
      else s.valueAt? Path.root.id Property.sweepRevision k := by
  rw [valueAt?, get?_withCheckpoint, if_pos rfl, Option.bind_some, Document.valueAt?_apply_checkpoint,
    valueAt?_rootDocument]
  simp

/-- In the store `t` the checkpoint that `s` has for the member of `x` is moved up to `x`. -/
structure Advances (s : Store) (x : Revision) (t : Store) : Prop where
  before : s.available = true
  after : t.available = true
  checkpoints : ∀ k, t.valueAt? Path.root.id Property.sweepRevision k =
    if k = .onTrunk 0 0 x.clusterId
    then (Change.raiseEntry x).effect (s.valueAt? Path.root.id Property.sweepRevision k)
    else s.valueAt? Path.root.id Property.sweepRevision k

namespace Advances

variable {t : Store} {x : Revision}

theorem hasCheckpoint_of_after (h : s.Advances x t) {v : String} (hv : t.HasCheckpoint v) :
    s.HasCheckpoint v ∨ v = x.text := by
  obtain ⟨k, hk⟩ := hv
  rw [h.checkpoints] at hk
  split at hk
  · simp only [Change.effect] at hk
    split at hk
    · split at hk
      · exact .inr (Option.some.inj hk).symm
      · exact .inl ⟨k, hk⟩
    · exact .inr (Option.some.inj hk).symm
  · exact .inl ⟨k, hk⟩

theorem hasCheckpoint_after (h : s.Advances x t) {v : String} {y : Revision} (hv : s.HasCheckpoint v)
    (hy : Revision.parse v = .ok y) : t.HasCheckpoint v ∨ t.HasCheckpoint x.text ∧ x.isAfter y = true := by
  obtain ⟨k, hk⟩ := hv
  have hparse : Revision.parse? v = some y := by rw [Revision.parse?, hy]; rfl
  have hafter := h.checkpoints k
  rw [hk] at hafter
  split at hafter
  · simp only [Change.effect, Option.bind_some, hparse] at hafter
    split at hafter
    next hlater => exact .inr ⟨⟨k, hafter⟩, hlater⟩
    next => exact .inl ⟨k, hafter⟩
  · exact .inl ⟨k, hafter⟩

theorem isBehind_after (h : s.Advances x t) {checkpoint next : RevisionVector} (hc : s.checkpoints = .ok checkpoint)
    (hnext : t.checkpoints = .ok next) {r : Revision} (hr : r.clusterId = x.clusterId → r.isAfter x = true)
    (hold : checkpoint.isBehind r = true) : next.isBehind r = true := by
  refine ((checkpoints_spec h.after hnext).2 r).2 fun v y hv hy hmember ↦ ?_
  rcases h.hasCheckpoint_of_after hv with hv | rfl
  · exact ((checkpoints_spec h.before hc).2 r).1 hold v y hv hy hmember
  · obtain rfl := Except.ok.inj ((Revision.parse_text x).symm.trans hy)
    exact hr hmember.symm

theorem exists_checkpoints (h : s.Advances x t) {checkpoint : RevisionVector}
    (hc : s.checkpoints = .ok checkpoint) : ∃ next, t.checkpoints = .ok next ∧
      (∀ r, r.isAfter x = true → checkpoint.isBehind r = true → next.isBehind r = true) ∧
      ∀ r, r.clusterId = x.clusterId → next.isBehind r = true → checkpoint.isBehind r = true := by
  obtain ⟨hparse, hbehind⟩ := checkpoints_spec h.before hc
  obtain ⟨next, hnext⟩ := Store.exists_checkpoints h.after fun v hv ↦ by
    rcases h.hasCheckpoint_of_after hv with hv | rfl
    · exact hparse v hv
    · exact ⟨x, Revision.parse_text x⟩
  refine ⟨next, hnext, fun r hr ↦ h.isBehind_after hc hnext fun _ ↦ hr,
    fun r hr hr' ↦ (hbehind r).2 fun v y hv hy hmember ↦ ?_⟩
  have hlater := ((checkpoints_spec h.after hnext).2 r).1 hr'
  rcases h.hasCheckpoint_after hv hy with hkept | ⟨hx, hafter⟩
  · exact hlater v y hkept hy hmember
  · exact Revision.isAfter_trans (hlater x.text x hx (Revision.parse_text x) hr.symm) hafter

end Advances

end Store

namespace Member.Sweeps

variable {m : Member} {config : SweepConfig} {s t : Store} {head : Revision} {checkpoint : RevisionVector}
  {outcome : MemberOutcome}

theorem advances (h : m.Sweeps config s head checkpoint outcome t) : s.Advances head t where
  before := h.available
  after := h.available_after
  checkpoints k := by
    rw [Store.valueAt?, h.get?_after, if_pos rfl, Option.bind_some, Document.valueAt?_apply_checkpoint,
      Store.valueAt?]
    cases s.documents.get? Path.root.id with
    | none => simp [Document.blank, Document.valueAt?, Document.map?]
    | some d => simp [valueAt?_swept_sweepRevision]

theorem checkpoints_after (h : m.Sweeps config s head checkpoint outcome t) :
    ∃ next, t.checkpoints = .ok next ∧
      ∀ r, r.clusterId = m.clusterId → next.isBehind r = true → checkpoint.isBehind r = true := by
  obtain ⟨next, hnext, -, hmonotone⟩ := h.advances.exists_checkpoints h.since
  exact ⟨next, hnext, fun r hr ↦ hmonotone r (hr.trans h.clusterId_head.symm)⟩

theorem withCheckpoint_again (h : m.Sweeps config s head checkpoint outcome t) : ∃ root,
    t.documents.get? Path.root.id = some root ∧
      t.withCheckpoint head = t.put Path.root.id { root with modCount := root.modCount + 1 } := by
  obtain ⟨v, y, hv, hy, hnot⟩ := Change.effect_raiseEntry head
    (s.valueAt? Path.root.id Property.sweepRevision (.onTrunk 0 0 m.clusterId))
  have hvalue := h.advances.checkpoints (.onTrunk 0 0 m.clusterId)
  rw [h.clusterId_head, if_pos rfl, hv] at hvalue
  obtain ⟨root, hroot, hentry⟩ := Option.bind_eq_some_iff.1 hvalue
  refine ⟨root, hroot, ?_⟩
  rw [← h.clusterId_head] at hentry
  rw [Store.withCheckpoint, Store.rootDocument, hroot, Option.getD_some,
    Document.apply_checkpoint_of_not_after hentry hy hnot]

end Member.Sweeps

end NodeStore
