import NodeStore.Proofs.RacingCorrections

namespace NodeStore

namespace Receiver

variable {others : Nat → Store → Store} {w : Store}

theorem committedSince_among (hothers : ∀ k (s : Store), s.GainsCommits (others k s)) (path : Path)
    (roots : List (Revision × Path)) (k : Nat) (ha : w.available = true) : ∃ committed t,
      (committedSince path roots).runAmong others k w = (.ok committed, t) ∧ w.GainsCommits t ∧
        (committed = true → ∃ e ∈ roots, (t.recordAt? e.2 e.1).isSome) := by
  induction roots generalizing k w with
  | nil => exact ⟨false, w, rfl, .refl w, fun h ↦ (by cases h)⟩
  | cons e roots ih =>
    obtain ⟨r, root⟩ := e
    have hgains := hothers k w
    have ha' : (others k w).available = true := hgains.available.trans ha
    simp only [committedSince, Client.runAmong, Store.find_of_available ha']
    cases hrecord : (((others k w).documents.get? root.id).bind (·.committedValue? r)).isSome with
    | true => exact ⟨true, others k w, by simp [Client.runAmong], hgains,
        fun _ ↦ ⟨(r, root), List.mem_cons_self, hrecord⟩⟩
    | false =>
      obtain ⟨committed, t, hrun, ht, hcommitted⟩ := ih (k + 1) ha'
      refine ⟨committed, t, by simpa using hrun, hgains.trans ht, fun h ↦ ?_⟩
      obtain ⟨e, he, hc⟩ := hcommitted h
      exact ⟨e, List.mem_cons_of_mem _ he, hc⟩

theorem receiveOne_among (hothers : ∀ k (s : Store), s.GainsCommits (others k s)) (path : Path) {u : Update}
    (hnew : u.isNew = false) (tally : Tally) (k : Nat) (ha : w.available = true) : ∃ tally' mid t,
      (receiveOne path u tally).runAmong others k w = (.ok tally', t) ∧ w.GainsCommits mid ∧
        (mid.refuses path u = true ∧ t = mid ∨ t = (mid.updateIf u).2) := by
  obtain ⟨committed, s, hrun, hs, hcommitted⟩ := committedSince_among hothers path (namedRoots path u) k ha
  rw [receiveOne, Client.runAmong_bind, hrun]
  generalize k + _ = k'
  cases committed with
  | true => exact ⟨_, s, s, rfl, hs, .inl ⟨List.any_eq_true.2 (hcommitted rfl), rfl⟩⟩
  | false =>
    have hgains := hs.trans (hothers k' s)
    obtain ⟨found, hu⟩ : ∃ found, ((others k' s).updateIf u).1 = .ok found := by
      rcases Store.updateIf_of_available (hgains.available.trans ha) hnew with ⟨e, -, -, hu⟩ | ⟨-, hu⟩ <;>
        exact ⟨_, congrArg Prod.fst hu⟩
    simp only [Client.runAmong, hu]
    cases found <;> exact ⟨_, others k' s, _, rfl, hgains, .inr rfl⟩

end Receiver

namespace Sweep

/-- The store `w` became of `s` by commits and the delivery of the corrections of the documents `delivered`. -/
structure Racing (sw : Sweep) (head : Revision) (s : Store) (delivered : List Document) (w : Store) : Prop where
  available : w.available = true
  keeps : s.KeepsCommits w
  checkpoints : ∀ r, w.valueAt? Path.root.id Property.sweepRevision r =
    s.valueAt? Path.root.id Property.sweepRevision r
  documents : ∀ id d, s.documents.get? id = some d → ∃ e, w.documents.get? id = some e ∧
    (d ∉ delivered → d.Gains e) ∧ (d ∈ delivered → sw.Clears head s d w e)

variable {sw : Sweep} {head : Revision} {s t w : Store} {delivered : List Document} {d e : Document}

theorem Racing.start (sw : Sweep) (head : Revision) (ha : s.available = true) : sw.Racing head s [] s where
  available := ha
  keeps _ _ h := h
  checkpoints _ := rfl
  documents _ d hd := ⟨d, hd, fun _ ↦ .refl d, fun h ↦ (by cases h)⟩

theorem Racing.gains (hf : sw.filter Property.sweepRevision = false) (h : sw.Racing head s delivered t)
    (hgains : t.GainsCommits w) : sw.Racing head s delivered w where
  available := hgains.available.trans h.available
  keeps := h.keeps.trans hgains.keepsCommits
  checkpoints r := (hgains.checkpoints r).trans (h.checkpoints r)
  documents id d hd := by
    obtain ⟨e, he, hwaits, hdone⟩ := h.documents id d hd
    obtain ⟨e', he', hee'⟩ := hgains.documents id e he
    exact ⟨e', he', fun hd ↦ (hwaits hd).trans hee',
      fun hd ↦ (hdone hd).gains hf hgains.keepsCommits hee'⟩

theorem Racing.settle (hs : s.WellFormed) (hf : sw.filter Property.sweepRevision = false)
    (h : sw.Racing head s delivered t) (hd : s.documents.get? d.id = some d) (ha : w.available = true)
    (hk : t.KeepsCommits w)
    (hcheckpoints : ∀ r, w.valueAt? Path.root.id Property.sweepRevision r =
      t.valueAt? Path.root.id Property.sweepRevision r)
    (hothers : ∀ id, id ≠ d.id → w.documents.get? id = t.documents.get? id)
    (he : w.documents.get? d.id = some e) (hclears : sw.Clears head s d w e) :
    sw.Racing head s (delivered ++ [d]) w where
  available := ha
  keeps := h.keeps.trans hk
  checkpoints r := (hcheckpoints r).trans (h.checkpoints r)
  documents id d' hd' := by
    by_cases hid : id = d.id
    · subst hid
      obtain rfl := Option.some.inj (hd.symm.trans hd')
      exact ⟨e, he, fun hnot ↦ absurd (List.mem_append_right _ List.mem_cons_self) hnot, fun _ ↦ hclears⟩
    · have hne : d' ≠ d := fun heq ↦ hid (heq ▸ (hs id d' hd').1).symm
      obtain ⟨e', he', hwaits, hdone⟩ := h.documents id d' hd'
      refine ⟨e', (hothers id hid).trans he', fun hnot ↦ hwaits fun hmem ↦ hnot (List.mem_append_left _ hmem),
        fun hmem ↦ (hdone ?_).gains hf hk (.refl e')⟩
      simpa [hne] using hmem

theorem Racing.settle_same (hs : s.WellFormed) (hf : sw.filter Property.sweepRevision = false)
    (h : sw.Racing head s delivered t) (hd : s.documents.get? d.id = some d) (hnew : d ∉ delivered)
    (hclears : ∀ e, t.documents.get? d.id = some e → d.Gains e → sw.Clears head s d t e) :
    sw.Racing head s (delivered ++ [d]) t := by
  obtain ⟨e, he, hwaits, -⟩ := h.documents _ d hd
  exact h.settle hs hf hd h.available (fun _ _ hr ↦ hr) (fun _ ↦ rfl) (fun _ _ ↦ rfl) he
    (hclears e he (hwaits hnew))

theorem Racing.settle_applied (hs : s.WellFormed) (hf : sw.filter Property.sweepRevision = false)
    (h : sw.Racing head s delivered t) (hd : s.documents.get? d.id = some d) (hnew : d ∉ delivered)
    (once : d.MarksOnce sw.clusterId) {start : Store} (hstart : start.KeepsCommits t)
    (he : t.documents.get? d.id = some e) (hm : e.meets (sw.correctionIn head start d).update = true) :
    let w := t.put d.id (e.apply (sw.correctionIn head start d).update)
    sw.Racing head s (delivered ++ [d]) w ∧ t.KeepsCommits w := by
  intro w
  obtain ⟨e', he', hwaits, -⟩ := h.documents _ d hd
  obtain rfl := Option.some.inj (he.symm.trans he')
  have hget (id : String) : w.documents.get? id =
      if id = d.id then some (e.apply (sw.correctionIn head start d).update) else t.documents.get? id :=
    SortedMap.get?_insert ..
  have hk : t.KeepsCommits w := fun p r hr ↦ by
    obtain ⟨f, hget', hc⟩ := Store.isSome_recordAt?.1 hr
    rw [Store.isSome_recordAt?, hget]
    split
    next hid =>
      rw [hid] at hget'
      obtain rfl := Option.some.inj (he.symm.trans hget')
      exact ⟨_, rfl, isSome_committedValue?_apply once hm hc⟩
    next => exact ⟨f, hget', hc⟩
  refine ⟨h.settle hs hf hd h.available hk (fun r ↦ ?_) (fun id hid ↦ by rw [hget, if_neg hid])
    (by rw [hget, if_pos rfl]) (clears_apply hf (hstart.trans hk) (hwaits hnew)), hk⟩
  have hkept : ∀ c, ¬ sw.TableChange head d (start.commitOf d) (.entry Property.sweepRevision r) c :=
    no_change_of_unselected hf (by decide) r
  have hsweep := valueAt?_apply_of_no_change e hkept
  rw [Store.valueAt?, hget, Store.valueAt?]
  split
  next hid => rw [hid, he, Option.bind_some, Option.bind_some, ← hsweep, correctionIn]
  next => rfl

theorem Racing.receiveOne (hs : s.WellFormed) (hf : sw.filter Property.sweepRevision = false)
    (h : sw.Racing head s delivered t) (hd : s.documents.get? d.id = some d) (hnew : d ∉ delivered)
    (once : d.MarksOnce sw.clusterId) {start : Store} (hsince : s.KeepsCommits start)
    (hstart : start.KeepsCommits t) {others : Nat → Store → Store}
    (hothers : ∀ k (s : Store), s.GainsCommits (others k s)) (tally : Tally) (k : Nat) : ∃ tally' w,
      (Receiver.receiveOne d.path (sw.correctionIn head start d).update tally).runAmong others k t =
        (.ok tally', w) ∧
      sw.Racing head s (delivered ++ [d]) w ∧ t.KeepsCommits w := by
  have hisNew : (sw.correctionIn head start d).update.isNew = false := sw.isNew_correctionOf head d _
  have hid : (sw.correctionIn head start d).update.id = d.id := sw.id_correctionOf head d _
  obtain ⟨tally', mid, w, hrun, hgains, hw⟩ :=
    Receiver.receiveOne_among hothers d.path hisNew tally k h.available
  have hmid := h.gains hf hgains
  have hk := hstart.trans hgains.keepsCommits
  refine ⟨tally', w, hrun, ?_⟩
  have hraced (hrace : ∀ e, mid.documents.get? d.id = some e → d.Gains e → sw.Raced head s d mid e) :
      sw.Racing head s (delivered ++ [d]) mid ∧ t.KeepsCommits mid :=
    ⟨hmid.settle_same hs hf hd hnew fun e he hde _ _ _ _ ↦ hrace e he hde, hgains.keepsCommits⟩
  rcases hw with ⟨hrefuses, rfl⟩ | rfl
  · refine hraced fun e he hde ↦ raced_of_refuses hf once hsince hde ?_ hrefuses
    rw [(hs d.id d hd).2, he]
  · rcases Store.updateIf_of_available hmid.available hisNew with ⟨e, he, hm, hu⟩ | ⟨hnot, hu⟩
    · rw [hu, hid]
      rw [hid] at he
      obtain ⟨hsettled, hk'⟩ := hmid.settle_applied hs hf hd hnew once hk he hm
      exact ⟨hsettled, hgains.keepsCommits.trans hk'⟩
    · rw [hu]
      refine hraced fun e he hde ↦ raced_of_not_meets hf hsince hde (hnot e ?_)
      rw [hid, he]

/-- A delivery among commits settles its documents. -/
theorem Racing.receive (hs : s.WellFormed) (hf : sw.filter Property.sweepRevision = false)
    (once : s.MarksOnce sw.clusterId) {start : Store} (hsince : s.KeepsCommits start)
    {others : Nat → Store → Store} (hothers : ∀ k (s : Store), s.GainsCommits (others k s)) (ds : List Document)
    (stored : ∀ d ∈ ds, s.documents.get? d.id = some d) (distinct : (delivered ++ ds).Nodup)
    (h : sw.Racing head s delivered t) (hstart : start.KeepsCommits t) (tally : Tally) (k : Nat) :
    ∃ tally' w, (Receiver.receive (sw.batchOf head start ds) tally).runAmong others k t =
        ((none, tally'), w) ∧ sw.Racing head s (delivered ++ ds) w := by
  induction ds generalizing delivered t tally k with
  | nil => exact ⟨tally, t, rfl, by simpa using h⟩
  | cons d ds ih =>
    have hd := stored d List.mem_cons_self
    have hds := fun e he ↦ stored e (List.mem_cons_of_mem _ he)
    have distinct' : (delivered ++ [d] ++ ds).Nodup := by simpa using distinct
    have hnew : d ∉ delivered := fun hmem ↦
      (List.nodup_append.1 distinct).2.2 d hmem d List.mem_cons_self rfl
    rw [← List.singleton_append, batchOf_append, batchOf_singleton, ← List.append_assoc]
    cases hc : (sw.correctionIn head start d).update.hasChanges with
    | false =>
      have hsettled := h.settle_same hs hf hd hnew fun e _ hde ↦ clears_of_no_correction hf hc hstart hde
      simpa using ih hds distinct' hsettled hstart tally k
    | true =>
      obtain ⟨tally', w, hrun, hsettled, hk⟩ := h.receiveOne hs hf hd hnew
        (fun r hr hroot ↦ once _ d r hd hr hroot) hsince hstart hothers tally k
      rw [if_pos rfl, List.singleton_append, Receiver.receive, Client.runAmong_bind, hrun]
      exact ih hds distinct' hsettled (hstart.trans hk) tally' _

end Sweep

end NodeStore
