import NodeStore.Proofs.CrashRecovery
import NodeStore.Proofs.OwnEntries

namespace NodeStore

theorem Revision.isAfter_of_timestamp {a b : Revision} (h : b.timestamp < a.timestamp) : a.isAfter b = true := by
  have hcompare : compare a.timestamp b.timestamp = .gt := Std.compare_eq_gt.2 h
  simp [isAfter, compareTime, compareLex, compareOn, hcompare]

/-- The revision is uncommitted, or merged with another one, and it has no mark. -/
def Store.IsOpen (s : Store) (d : Document) (r : Revision) : Prop :=
  Sweep.isMarked d r = false ∧ ∀ value, s.commitOf d r = some value → CommitValue.resolve r value ≠ r

namespace Sweep

variable {sw : Sweep} {head : Revision} {s t : Store} {d : Document} {r : Revision} {ds : List Document}

theorem IsLeftover.isOpen (h : sw.IsLeftover head d (s.commitOf d) r) : s.IsOpen d r :=
  ⟨h.2.2.1, fun _ hvalue ↦ by cases h.2.1.symm.trans hvalue⟩

theorem IsUnmarkedMerge.isOpen (h : IsUnmarkedMerge d (s.commitOf d) r) : s.IsOpen d r := by
  obtain ⟨hmarked, value, hvalue, hresolve⟩ := h
  refine ⟨hmarked, fun value' hvalue' ↦ ?_⟩
  obtain rfl := Option.some.inj (hvalue.symm.trans hvalue')
  exact hresolve

theorem isAfter_of_isOpen (h : s.IsOpen d r) (hown : r.clusterId = sw.clusterId)
    (hleft : ¬ sw.IsLeftover head d (s.commitOf d) r) (hmerge : ¬ IsUnmarkedMerge d (s.commitOf d) r) :
    r.isAfter head = true := by
  obtain ⟨hmarked, hresolve⟩ := h
  cases hvalue : s.commitOf d r with
  | some value => exact absurd ⟨hmarked, value, hvalue, hresolve value hvalue⟩ hmerge
  | none =>
    by_contra hafter
    rw [Bool.not_eq_true] at hafter
    exact hleft ⟨hown, hvalue, hmarked, .inl hafter⟩

theorem run_idle (sw : Sweep) (hs : s.WellFormed) (ha : s.available = true)
    (hh : sw.head.revision? sw.clusterId = some head) (hfits : sw.config.fits = true)
    (stored : ∀ d ∈ ds, s.documents.get? d.id = some d) (once : ds.Nodup)
    (idle : ∀ d ∈ ds, ∀ k c, ¬ sw.TableChange head d (s.commitOf d) k c) (clock : Nat → Nat) :
    (sw.run .ofStore clock (ds.map Document.view) ⟨s, .zero⟩).value =
      ⟨.ok (some head), ⟨s, .zero⟩, ⟨ds.length, 0, 0, 0, 0⟩, ds.length⟩ := by
  obtain ⟨t, counts, hrun, ht, hscanned, hupdated, hreverted, hmarked⟩ :=
    sw.run_value hs ha hh hfits ds stored once clock
  have hbatches := sw.batches_of_success .ofStore clock (ds.map Document.view) ⟨s, .zero⟩
    (congrArg SweepResult.result hrun)
  have hchanges (d : Document) (hd : d ∈ ds) : (sw.correctionIn head s d).update.hasChanges = false :=
    Correction.update?_eq_none_iff.1 ((sw.update?_correctionOf_eq_none_iff head d _).2 (idle d hd))
  have haccepts := fun d hd ↦ accepts_of_idle (hchanges d hd)
  have hrefused := fun d hd ↦ isRefused_of_idle (hchanges d hd)
  have hcounts := fun d hd ↦ counts_of_no_change (idle d hd)
  have hnoUpdates : counts.updated = 0 := by
    rw [hupdated, batchOf_eq_nil hchanges]
    rfl
  have hnoReverts : counts.reverted = 0 := by
    rw [hreverted]
    exact List.sum_eq_zero (List.forall_mem_map.2 fun d hd ↦ (hcounts d hd).1)
  have hnoMarks : counts.marked = 0 := by
    rw [hmarked]
    exact List.sum_eq_zero (List.forall_mem_map.2 fun d hd ↦ (hcounts d hd).2)
  rw [hrun, hnoUpdates, Nat.div_eq_of_lt (by omega)] at hbatches
  rw [hrun, ht.idle haccepts, List.countP_eq_zero.2 (by simpa using haccepts),
    List.countP_eq_zero.2 (by simpa using hrefused)]
  obtain ⟨⟩ := counts
  simp_all [Tally.zero]

end Sweep

namespace Member.Sweeps

variable {m : Member} {config : SweepConfig} {s t : Store} {head : Revision} {checkpoint : RevisionVector}
  {outcome : MemberOutcome} {id name : String} {d e : Document} {r : Revision}

theorem valueAt?_of_name_ne (h : m.Sweeps config s head checkpoint outcome t) (id name : String) (r : Revision)
    (hname : name ≠ Property.branchCommits ∧ name ≠ Property.sweepRevision) :
    t.valueAt? id name r = s.valueAt? id name r ∨ t.valueAt? id name r = none := by
  have hfate := h.fate id name r
  generalize t.valueAt? id name r = after at hfate
  cases hfate with
  | kept hkept => exact .inl hkept.symm
  | reverted => exact .inr rfl
  | marked _ hmark => exact absurd hmark hname.1
  | raised _ hsweep => exact absurd hsweep hname.2

theorem marksOnce (h : m.Sweeps config s head checkpoint outcome t) {c : UInt32} (once : s.MarksOnce c) :
    t.MarksOnce c := by
  intro id e r he hr hroot
  rw [← Store.valueAt?_of_stored he] at hroot ⊢
  rcases h.valueAt?_of_name_ne id Property.commitRoot r (by decide) with hkept | hnone
  · rw [hkept, Option.isSome_iff_exists] at hroot
    obtain ⟨depth, hdepth⟩ := hroot
    obtain ⟨d, hd, hdepth⟩ := Option.bind_eq_some_iff.1 hdepth
    have hrecord := once id d r hd hr (by rw [hdepth]; rfl)
    refine (h.valueAt?_of_name_ne id Property.revisions r (by decide)).elim (fun hkept ↦ ?_) fun hnone ↦ hnone
    rw [hkept, Store.valueAt?_of_stored hd, hrecord]
  · rw [hnone] at hroot
    cases hroot

theorem isMarked_after (h : m.Sweeps config s head checkpoint outcome t) (hd : s.documents.get? id = some d)
    (he : t.documents.get? id = some e) (hmarked : Sweep.isMarked d r = true) : Sweep.isMarked e r = true := by
  have hfate := h.fate id Property.branchCommits r
  rw [Store.valueAt?_of_stored he] at hfate
  rw [Sweep.isMarked]
  generalize e.valueAt? Property.branchCommits r = after at hfate
  cases hfate with
  | kept hkept =>
    rw [← hkept, Store.valueAt?_of_stored hd]
    exact hmarked
  | reverted hd' hleft =>
    obtain rfl := Option.some.inj (hd.symm.trans hd')
    cases hmarked.symm.trans hleft.2.2.1
  | marked => rfl
  | raised _ hsweep => exact absurd hsweep (by decide)

theorem isOpen_before (h : m.Sweeps config s head checkpoint outcome t) (he : t.documents.get? id = some e)
    (hname : PropertyFilter.relevant name = true) (hv : (e.valueAt? name r).isSome = true) (hopen : t.IsOpen e r) :
    ∃ d, s.documents.get? id = some d ∧ (d.valueAt? name r).isSome = true ∧ s.IsOpen d r := by
  have hne : name ≠ Property.branchCommits ∧ name ≠ Property.sweepRevision := by
    constructor <;> exact fun heq ↦ absurd (heq ▸ hname) (by decide)
  have hafter := Store.valueAt?_of_stored he name r
  have hkept : s.valueAt? id name r = e.valueAt? name r := by
    rcases h.valueAt?_of_name_ne id name r hne with hkept | hnone
    · exact hkept.symm.trans hafter
    · rw [← hafter, hnone] at hv
      cases hv
  obtain ⟨v, hv⟩ := Option.isSome_iff_exists.1 hv
  obtain ⟨d, hd, hdv⟩ := Option.bind_eq_some_iff.1 (hkept.trans hv)
  refine ⟨d, hd, by rw [hdv]; rfl, ?_, fun value hvalue ↦ hopen.2 value ?_⟩
  · rw [← Bool.not_eq_true]
    intro hmarked
    cases (h.isMarked_after hd he hmarked).symm.trans hopen.1
  · rw [h.commitOf_stored hd he, hvalue]

end Member.Sweeps

namespace WriteCall

variable {c : WriteCall} {s : Store} {id name : String} {e : Document} {r : Revision}

theorem valueAt?_written_of_ne (hr : r ≠ c.revision) : (c.written s).valueAt? id name r = s.valueAt? id name r :=
  Option.ext fun v ↦ by
    rw [valueAt?_written]
    simp [hr]

theorem stored_before (hs : s.WellFormed) (he : (c.written s).documents.get? id = some e) (hr : r ≠ c.revision)
    (hv : (e.valueAt? name r).isSome = true) : ∃ d, s.documents.get? id = some d ∧ e.path = d.path ∧
      ∀ name, e.valueAt? name r = d.valueAt? name r := by
  have hold (name : String) : e.valueAt? name r = s.valueAt? id name r :=
    ((Store.valueAt?_of_stored he name r).symm).trans (valueAt?_written_of_ne hr)
  rw [hold, Option.isSome_iff_exists] at hv
  obtain ⟨v, hv⟩ := hv
  obtain ⟨d, hd, -⟩ := Option.bind_eq_some_iff.1 hv
  have hpath : e.path.id = d.path.id := (c.wellFormed_written hs id e he).2.trans (hs id d hd).2.symm
  exact ⟨d, hd, Path.id_injective hpath, fun name ↦ (hold name).trans (Store.valueAt?_of_stored hd name r)⟩

theorem checkpoints_written (c : WriteCall) (s : Store) : (c.written s).checkpoints = s.checkpoints := by
  have hroot : (c.written s).documents.get? Path.root.id = s.documents.get? Path.root.id := by
    rw [get?_written, if_neg c.documentId_ne_root.symm]
  rw [Store.checkpoints, Store.findAt, Store.find, hroot]
  rfl

/-- A write that its member can make next: later than the writes `ws` before and than the checkpoint of the member. -/
structure IsNext (ws : List WriteCall) (s : Store) (c : WriteCall) : Prop where
  afterStart : 1 < c.timestamp
  afterWrites : ∀ c' ∈ ws, c'.clusterId = c.clusterId → c'.timestamp < c.timestamp
  afterCheckpoint : ∀ checkpoint x, s.checkpoints = .ok checkpoint → checkpoint.revision? c.clusterId = some x →
    x.timestamp < c.timestamp

end WriteCall

/-- The store of a cluster whose members made the writes `ws`, and swept in between. -/
structure IsTended (ws : List WriteCall) (s : Store) : Prop where
  wellFormed : s.WellFormed
  readable : s.Readable
  marksOnce : ∀ c, s.MarksOnce c
  written : ∀ id name r, name ≠ Property.sweepRevision → (s.valueAt? id name r).isSome = true →
    r = .onTrunk 1 0 1 ∨ ∃ c ∈ ws, r = c.revision
  ahead : ∀ checkpoint id d name r, s.checkpoints = .ok checkpoint → s.documents.get? id = some d →
    PropertyFilter.relevant name = true → (d.valueAt? name r).isSome = true → s.IsOpen d r →
    checkpoint.isBehind r = true

namespace IsTended

variable {ws : List WriteCall} {s t : Store} {m : Member} {config : SweepConfig} {head : Revision}
  {checkpoint : RevisionVector} {outcome : MemberOutcome} {id name : String} {d e : Document} {r : Revision}
  {c : WriteCall}

theorem start : IsTended [] Recovery.initialStore := by
  have hs := WriteCall.reflects_initialStore
  have hcreated {id name : String} {r : Revision} (hname : name ≠ Property.sweepRevision)
      (hv : (Recovery.initialStore.valueAt? id name r).isSome = true) : id = Path.root.id ∧ r = .onTrunk 1 0 1 := by
    obtain ⟨v, hv⟩ := Option.isSome_iff_exists.1 hv
    cases (hs.entries id name r v hname).1 hv with
    | created | committed => exact ⟨rfl, rfl⟩
    | written hc | marked hc => cases hc
  have hreadable := Store.exists_checkpoints hs.available fun v hv ↦ (hs.checkpoints v hv).imp fun _ hx ↦ hx.1
  refine ⟨hs.wellFormed, ⟨hs.available, hreadable⟩, hs.marksOnce ⟨by simp, by simp⟩,
    fun id name r hname hv ↦ .inl (hcreated hname hv).2, fun _ id d name r _ hd hrelevant hv hopen ↦ ?_⟩
  have hname : name ≠ Property.sweepRevision := fun heq ↦ absurd (heq ▸ hrelevant) (by decide)
  obtain ⟨rfl, rfl⟩ := hcreated hname (by rwa [Store.valueAt?_of_stored hd])
  exact absurd (CommitValue.resolve_text _ .trunk) (hopen.2 _ (hs.commitOf_start hd))

section Write

variable (hs : IsTended ws s) (hc : c.IsNext ws s)

include hs hc

theorem fresh (hname : name ≠ Property.sweepRevision) : s.valueAt? id name c.revision = none := by
  rw [← Option.not_isSome_iff_eq_none]
  intro hv
  rcases hs.written id name _ hname hv with hr | ⟨c', hc', hr⟩
  · have hlater := hc.afterStart
    rw [show c.timestamp = 1 from congrArg Revision.timestamp hr] at hlater
    exact absurd hlater (by decide)
  · have hcluster : c.clusterId = c'.clusterId := congrArg Revision.clusterId hr
    have htimestamp : c.timestamp = c'.timestamp := congrArg Revision.timestamp hr
    have hearlier := hc.afterWrites c' hc' hcluster.symm
    rw [htimestamp] at hearlier
    exact absurd hearlier (UInt64.lt_irrefl _)

theorem valueAt?_written_self (hname : name ≠ Property.sweepRevision) {v : String}
    (hv : (c.written s).valueAt? id name c.revision = some v) : (name, v) ∈ c.entries := by
  rcases (c.valueAt?_written s id name c.revision v).1 hv with ⟨-, -, he⟩ | ⟨-, hold⟩
  · exact he
  · rw [hs.fresh hc hname] at hold
    cases hold

theorem marksOnce_written (m : UInt32) : (c.written s).MarksOnce m := by
  intro id e r he hown hroot
  by_cases hr : r = c.revision
  · subst hr
    rw [← Store.valueAt?_of_stored he, Option.isSome_iff_exists] at hroot
    obtain ⟨depth, hdepth⟩ := hroot
    have hpending := WriteCall.mem_entries_commitRoot.1 (hs.valueAt?_written_self hc (by decide) hdepth)
    refine Option.eq_none_iff_forall_ne_some.2 fun v hv ↦ ?_
    rw [← Store.valueAt?_of_stored he] at hv
    obtain ⟨w, hw, -⟩ := WriteCall.mem_entries_revisions.1 (hs.valueAt?_written_self hc (by decide) hv)
    cases hpending.1.symm.trans hw
  · obtain ⟨d, hd, -, hentries⟩ := WriteCall.stored_before hs.wellFormed he hr hroot
    rw [hentries] at hroot ⊢
    exact hs.marksOnce m id d r hd hown hroot

theorem ahead_written (hcheckpoint : (c.written s).checkpoints = .ok checkpoint)
    (he : (c.written s).documents.get? id = some e) (hrelevant : PropertyFilter.relevant name = true)
    (hv : (e.valueAt? name r).isSome = true) (hopen : (c.written s).IsOpen e r) : checkpoint.isBehind r = true := by
  rw [c.checkpoints_written] at hcheckpoint
  by_cases hr : r = c.revision
  · subst hr
    rw [RevisionVector.isBehind]
    split
    next x hx => exact Revision.isAfter_of_timestamp (hc.afterCheckpoint checkpoint x hcheckpoint hx)
    next => rfl
  · obtain ⟨d, hd, hpath, hentries⟩ := WriteCall.stored_before hs.wellFormed he hr hv
    have hcommit : (c.written s).commitOf e r = s.commitOf d r :=
      Store.commitOf_congr_at hpath hentries fun _ _ ↦ WriteCall.valueAt?_written_of_ne hr
    rw [Store.IsOpen, Sweep.isMarked, hentries, hcommit] at hopen
    rw [hentries] at hv
    exact hs.ahead checkpoint id d name r hcheckpoint hd hrelevant hv hopen

theorem write : IsTended (ws ++ [c]) (c.written s) where
  wellFormed := c.wellFormed_written hs.wellFormed
  readable := ⟨hs.readable.1, by rw [c.checkpoints_written]; exact hs.readable.2⟩
  marksOnce := hs.marksOnce_written hc
  written id name r hname hv := by
    by_cases hr : r = c.revision
    · exact .inr ⟨c, List.mem_append_right _ List.mem_cons_self, hr⟩
    · rw [WriteCall.valueAt?_written_of_ne hr] at hv
      refine (hs.written id name r hname hv).imp_right fun hx ↦ ?_
      obtain ⟨c', hc', hr'⟩ := hx
      exact ⟨c', List.mem_append_left _ hc', hr'⟩
  ahead _ _ _ _ _ := hs.ahead_written hc

end Write

/-- After a sweep no document needs a correction by its member, whether it was swept or not. -/
theorem no_change (hs : IsTended ws s) (h : m.Sweeps config s head checkpoint outcome t)
    (he : t.documents.get? id = some e) (k : Key) (ch : Change) :
    ¬ (m.toSweep config).TableChange head e (t.commitOf e) k ch := by
  refine Sweep.no_change_iff.2 (fun name r hvisit ↦ ?_) k ch
  have hswept (hopen : t.IsOpen e r) : ¬ (m.toSweep config).IsLeftover head e (t.commitOf e) r ∧
      ¬ Sweep.IsUnmarkedMerge e (t.commitOf e) r := by
    obtain ⟨d, hd, hv, hbefore⟩ := h.isOpen_before he hvisit.1 hvisit.2.1 hopen
    have hcandidate : m.isCandidate checkpoint d = true := Member.isCandidate_iff.2 ⟨name, r, hvisit.name_ne rfl, hv,
      hvisit.2.2, hs.ahead checkpoint id d name r h.since hd hvisit.1 hv hbefore⟩
    exact Sweep.no_change_iff.1 (h.no_change_after hs.wellFormed (hs.marksOnce _) hd hcandidate he) name r hvisit
  exact ⟨fun hleft ↦ (hswept hleft.isOpen).1 hleft, fun hmerge ↦ (hswept hmerge.isOpen).2 hmerge⟩

theorem sweep (hs : IsTended ws s) (h : m.Sweeps config s head checkpoint outcome t) : IsTended ws t where
  wellFormed := h.wellFormed hs.wellFormed
  readable := by
    obtain ⟨next, hnext, -⟩ := h.checkpoints_after
    exact ⟨h.available_after, next, hnext⟩
  marksOnce c := h.marksOnce (hs.marksOnce c)
  written id name r hname hv := by
    have hfate := h.fate id name r
    generalize t.valueAt? id name r = after at hfate hv
    cases hfate with
    | kept hkept => exact hs.written id name r hname (hkept ▸ hv)
    | reverted => cases hv
    | @marked d name' hd _ _ hvisit =>
      exact hs.written id name' r (hvisit.name_ne rfl) (by rw [Store.valueAt?_of_stored hd]; exact hvisit.2.1)
    | raised _ hsweep => exact absurd hsweep hname
  ahead next id e name r hnext he hrelevant hv hopen := by
    obtain ⟨d, hd, hdv, hbefore⟩ := h.isOpen_before he hrelevant hv hopen
    have hold := hs.ahead checkpoint id d name r h.since hd hrelevant hdv hbefore
    refine h.advances.isBehind_after h.since hnext (fun hown ↦ ?_) hold
    have hvisit : (m.toSweep config).Visits e name r := ⟨hrelevant, hv, hown.trans h.clusterId_head⟩
    obtain ⟨hleft, hmerge⟩ := Sweep.no_change_iff.1 (hs.no_change h he) name r hvisit
    exact Sweep.isAfter_of_isOpen hopen hvisit.2.2 hleft hmerge

theorem exists_sweeps (hs : IsTended ws s) (hb : 0 < config.batchSize) (hfits : config.fits = true)
    (hh : m.head.revision? m.clusterId = some head) (clock : Nat → Nat) : ∃ checkpoint outcome t,
      (m.sweep config clock s).value = (.ok outcome, t) ∧ m.Sweeps config s head checkpoint outcome t := by
  obtain ⟨ha, checkpoint, hc⟩ := hs.readable
  exact ⟨checkpoint, Member.sweep_value hs.wellFormed (SweepConfig.validate_of_pos hb) hfits ha hh hc clock⟩

theorem sweep_of_oversized (hs : IsTended ws s) (hb : 0 < config.batchSize) (hfits : config.fits = false)
    (hh : m.head.revision? m.clusterId = some head) (clock : Nat → Nat) :
    (m.sweep config clock s).value = (.error .oversized, s) := by
  obtain ⟨ha, checkpoint, hc⟩ := hs.readable
  exact Member.sweep_of_oversized (SweepConfig.validate_of_pos hb) hfits ha hh hc clock

end IsTended

namespace Recovery

/-- The stores that a cluster reaches when its members make the writes `ws`, and sweep in between from any heads. -/
inductive Reaches : List WriteCall → Store → Prop
  | start : Reaches [] initialStore
  | write {ws : List WriteCall} {s : Store} {c : WriteCall} : Reaches ws s → c.IsNext ws s →
      Reaches (ws ++ [c]) (c.apply s).2
  | sweep {ws : List WriteCall} {s : Store} {config : SweepConfig} (clusterId : UInt32) (ts : UInt64)
      (clock : Nat → Nat) : Reaches ws s → 0 < config.batchSize →
      Reaches ws ((memberAt clusterId ts).sweep config clock s).value.2

variable {ws : List WriteCall} {s : Store} {config : SweepConfig}

theorem Reaches.isTended (h : Reaches ws s) : IsTended ws s := by
  induction h with
  | start => exact .start
  | @write _ _ c _ hc ih =>
    rw [c.apply_of_available ih.readable.1]
    exact ih.write hc
  | @sweep _ _ config clusterId ts clock _ hb ih =>
    cases hfits : config.fits with
    | false =>
      rw [ih.sweep_of_oversized hb hfits (component_memberAt clusterId ts)]
      exact ih
    | true =>
      obtain ⟨_, _, t, hrun, hsweeps⟩ := ih.exists_sweeps hb hfits (component_memberAt clusterId ts) clock
      rw [hrun]
      exact ih.sweep hsweeps

/-- After a sweep, a sweep of all documents of its member from the same head delivers nothing. If no batch can be
reserved, then neither of them gets any further. -/
theorem sweep_misses_nothing (h : Reaches ws s) (hb : 0 < config.batchSize) (clusterId : UInt32) (ts : UInt64)
    (clock again : Nat → Nat) : ∃ result t ds,
      ((memberAt clusterId ts).sweep config clock s).value = (result, t) ∧ t.changedBy clusterId = .ok ds ∧
      let fresh := (((memberAt clusterId ts).toSweep config).run .ofStore again (ds.map Document.view) ⟨t, .zero⟩).value
      (config.fits = true → (∃ outcome, result = .ok outcome) ∧
        fresh = ⟨.ok (some (.onTrunk ts 0 clusterId)), ⟨t, .zero⟩, ⟨ds.length, 0, 0, 0, 0⟩, ds.length⟩) ∧
      (config.fits = false → result = .error .oversized ∧ t = s ∧
        fresh = ⟨.error .oversized, ⟨t, .zero⟩, .zero, 0⟩) := by
  have hs := h.isTended
  have hh := component_memberAt clusterId ts
  have hchanged {t : Store} (ht : t.available = true) : t.changedBy clusterId =
      .ok (t.documents.values.filter fun d ↦ !(d.revisionsBy clusterId).isEmpty) := by rw [Store.changedBy, if_pos ht]
  cases hfits : config.fits with
  | false =>
    refine ⟨_, _, _, hs.sweep_of_oversized hb hfits hh clock, hchanged hs.readable.1, fun htrue ↦ ?_, fun _ ↦ ?_⟩
    · cases htrue
    · rw [((memberAt clusterId ts).toSweep config).run_of_oversized hh hfits, Logged.value_pure]
      exact ⟨rfl, rfl, rfl⟩
  | true =>
    obtain ⟨checkpoint, outcome, t, hrun, hsweeps⟩ := hs.exists_sweeps hb hfits hh clock
    have ht := hs.sweep hsweeps
    refine ⟨_, _, _, hrun, hchanged ht.readable.1, fun _ ↦ ⟨⟨outcome, rfl⟩, ?_⟩, fun hfalse ↦ ?_⟩
    · have hstored : ∀ d ∈ t.documents.values.filter fun d ↦ !(d.revisionsBy clusterId).isEmpty,
          t.documents.get? d.id = some d := fun d hd ↦ by
        obtain ⟨id, hget⟩ := SortedMap.mem_values_iff.1 (List.mem_filter.1 hd).1
        exact ht.wellFormed.stored hget
      exact ((memberAt clusterId ts).toSweep config).run_idle ht.wellFormed ht.readable.1 hh hfits hstored
        (ht.wellFormed.values_nodup.filter _) (fun d hd ↦ hs.no_change hsweeps (hstored d hd)) again
    · cases hfalse

def pendingCall : WriteCall := ⟨1, 12, 0, .uncommitted⟩

def mergedCall : WriteCall := ⟨1, 14, 0, .mergedBranch⟩

def sweptEarly : Store :=
  ((memberAt 1 10).sweep .standard (fun _ ↦ 0) (pendingCall.apply initialStore).2).value.2

theorem reaches_sweptEarly : Reaches ([] ++ [pendingCall] ++ [mergedCall]) (mergedCall.apply sweptEarly).2 := by
  have hstart : initialStore.checkpoints = .ok .empty := by decide +kernel
  have hearly : sweptEarly.checkpoints = .ok (RevisionVector.empty.update (.onTrunk 10 0 1)) := by decide +kernel
  refine .write (.sweep 1 10 (fun _ ↦ 0) (.write .start ⟨by decide, by simp, ?_⟩) (by decide))
    ⟨by decide, by decide, ?_⟩
  · intro checkpoint x hcheckpoint hx
    obtain rfl := Except.ok.inj (hstart.symm.trans hcheckpoint)
    cases hx
  · intro checkpoint x hcheckpoint hx
    obtain rfl := Except.ok.inj (hearly.symm.trans hcheckpoint)
    obtain rfl := Option.some.inj hx
    decide

theorem sweep_misses_nothing_sweptEarly :
    Reaches ([] ++ [pendingCall] ++ [mergedCall]) (mergedCall.apply sweptEarly).2 ∧
      0 < SweepConfig.standard.batchSize ∧
      (∃ outcome t ds,
        ((memberAt 1 20).sweep .standard (fun _ ↦ 0) (mergedCall.apply sweptEarly).2).value = (.ok outcome, t) ∧
        t.changedBy 1 = .ok ds ∧
        (((memberAt 1 20).toSweep .standard).run .ofStore (fun _ ↦ 0) (ds.map Document.view) ⟨t, .zero⟩).value =
          ⟨.ok (some (.onTrunk 20 0 1)), ⟨t, .zero⟩, ⟨ds.length, 0, 0, 0, 0⟩, ds.length⟩) ∧
      ((memberAt 1 20).sweep .standard (fun _ ↦ 0) (mergedCall.apply sweptEarly).2).value.1 =
        .ok ⟨some (.onTrunk 20 0 1), ⟨1, 1, 2, 1, 1⟩, ⟨1, 0⟩⟩ := by
  have hb : 0 < SweepConfig.standard.batchSize := by decide
  obtain ⟨_, t, ds, hrun, hds, hfits, -⟩ :=
    sweep_misses_nothing reaches_sweptEarly hb 1 20 (fun _ ↦ 0) (fun _ ↦ 0)
  obtain ⟨⟨outcome, rfl⟩, hfresh⟩ := hfits (by decide)
  exact ⟨reaches_sweptEarly, hb, ⟨outcome, t, ds, hrun, hds, hfresh⟩, by decide +kernel⟩

end Recovery

end NodeStore
