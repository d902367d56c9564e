import NodeStore.Proofs.Completeness
import NodeStore.Proofs.CorrectionCounts
import NodeStore.Proofs.WriteHistory

namespace NodeStore.WriteCall

variable {ws : List WriteCall} {recovered : List UInt32} {s t : Store} {id name v : String} {r : Revision}
  {c : WriteCall} {d : Document}

theorem encard_entries (c : WriteCall) : {e : String × String × Revision |
    (c.documentId = e.1 ∧ c.revision = e.2.2) ∧ ∃ v, (e.2.1, v) ∈ c.entries}.encard = (2 : Nat) := by
  have hpair : {e : String × String × Revision |
      (c.documentId = e.1 ∧ c.revision = e.2.2) ∧ ∃ v, (e.2.1, v) ∈ c.entries} =
      {(c.documentId, c.write.property, c.revision), (c.documentId, c.marker.1, c.revision)} := by
    ext e
    obtain ⟨id, name, r⟩ := e
    simp only [Set.mem_ofPred_eq, mem_entries, Prod.ext_iff, Set.mem_insert_iff, Set.mem_singleton_iff]
    grind
  have hne : (c.documentId, c.write.property, c.revision) ≠ (c.documentId, c.marker.1, c.revision) := fun heq ↦
    c.property_ne_marker (congrArg (·.2.1) heq)
  rw [hpair, Set.encard_pair hne]
  rfl

theorem encard_revision (c : WriteCall) :
    {e : String × Revision | c.documentId = e.1 ∧ c.revision = e.2}.encard = (1 : Nat) := by
  have hsingle : {e : String × Revision | c.documentId = e.1 ∧ c.revision = e.2} =
      {(c.documentId, c.revision)} := by
    ext e
    simp [Prod.ext_iff, eq_comm]
  rw [hsingle, Set.encard_singleton]
  rfl

namespace Reflects

variable (hs : Reflects ws recovered s)

include hs

theorem valueAt?_iff (hd : s.documents.get? id = some d) (hname : name ≠ Property.sweepRevision) :
    d.valueAt? name r = some v ↔ Stands ws recovered id name r v := by
  rw [← hs.entries id name r v hname, Store.valueAt?_of_stored hd]

theorem path_eq (hd : s.documents.get? c.documentId = some d) : d.path = c.path :=
  Path.id_injective ((hs.wellFormed _ d hd).2.trans c.id_path.symm)

theorem commitOf_start (hd : s.documents.get? Path.root.id = some d) :
    s.commitOf d (.onTrunk 1 0 1) = some CommitValue.trunk.text := by
  have hrecord := (hs.valueAt?_iff hd (by decide)).2 .committed
  rw [s.commitOf_own d _ _ hrecord, Document.committedValue?, hrecord]
  rfl

theorem commitOf_call (h : IsHistory ws) (hc : c ∈ ws) (hd : s.documents.get? c.documentId = some d)
    (hkept : c.clusterId ∈ recovered → c.commit? ≠ none) :
    s.commitOf d c.revision = c.commit?.map CommitValue.text := by
  have hrecords (v : String) : d.valueAt? Property.revisions c.revision = some v ↔
      ∃ w, c.commit? = some w ∧ v = w.text := by
    have hne : Property.revisions ≠ Property.branchCommits := by decide
    rw [hs.valueAt?_iff hd (by decide), stands_iff h hc, mem_entries_revisions, and_iff_right hkept]
    simp [hne]
  cases hcommit : c.commit? with
  | some w =>
    have hrecord := (hrecords w.text).2 ⟨w, hcommit, rfl⟩
    rw [s.commitOf_own d _ _ hrecord, Document.committedValue?, hrecord,
      Option.filter_some_pos (CommitValue.recordsCommit_text w), Option.map_some]
  | none =>
    have hnone : d.valueAt? Property.revisions c.revision = none := by
      refine Option.eq_none_iff_forall_ne_some.2 fun v hv ↦ ?_
      obtain ⟨w, hw, -⟩ := (hrecords v).1 hv
      cases hcommit.symm.trans hw
    have hroot : d.valueAt? Property.commitRoot c.revision = some "0" :=
      (hs.valueAt?_iff hd (by decide)).2 (.written hc hkept (mem_entries_commitRoot.2 ⟨hcommit, rfl⟩))
    have hrecord : s.recordAt? .root c.revision = none := by
      refine Option.eq_none_iff_forall_ne_some.2 fun v hv ↦ ?_
      obtain ⟨root, hget, hvalue⟩ := Option.bind_eq_some_iff.1 hv
      have hstands := (hs.valueAt?_iff hget (by decide)).1 (Option.filter_eq_some_iff.1 hvalue).1
      exact c.documentId_ne_root ((stands_iff h hc).1 hstands).1.symm
    have hancestor : d.path.ancestorAtText? "0" = some .root := by rw [hs.path_eq hd, c.ancestorAtText?_path]
    have hne : Path.root ≠ d.path := by
      rw [hs.path_eq hd]
      exact c.path_ne_root.symm
    simp only [Store.commitOf, hnone, hroot, Option.bind_some, hancestor, if_neg hne, hrecord, Option.map_none]

theorem isMarked_iff (h : IsHistory ws) (hc : c ∈ ws) (hd : s.documents.get? c.documentId = some d) :
    Sweep.isMarked d c.revision = true ↔ c.clusterId ∈ recovered ∧ c.write = .mergedBranch := by
  have hne : Property.branchCommits ≠ Property.sweepRevision := by decide
  rw [Sweep.isMarked, Option.isSome_iff_exists]
  simp [hs.valueAt?_iff hd hne, stands_iff h hc, branchCommits_not_mem]

theorem isMarked_of_fresh (h : IsHistory ws) (hc : c ∈ ws) (hd : s.documents.get? c.documentId = some d)
    (hfresh : c.clusterId ∉ recovered) : Sweep.isMarked d c.revision = false := by
  rw [← Bool.not_eq_true, hs.isMarked_iff h hc hd]
  exact fun hmarked ↦ hfresh hmarked.1

section Found

variable {sw : Sweep} {head : Revision} (hf : sw.filter = .relevant)

include hf

theorem visits_iff (hd : s.documents.get? id = some d) : sw.Visits d name r ↔
    r.clusterId = sw.clusterId ∧ ((∃ c ∈ ws, c.documentId = id ∧ c.revision = r ∧
      (c.clusterId ∈ recovered → c.commit? ≠ none) ∧ ∃ v, (name, v) ∈ c.entries) ∨
        id = Path.root.id ∧ r = .onTrunk 1 0 1 ∧ (name = Property.deleted ∨ name = Property.revisions)) := by
  rw [Sweep.Visits, hf, Option.isSome_iff_exists]
  constructor
  · intro hx
    obtain ⟨hrelevant, ⟨v, hv⟩, hown⟩ := hx
    have hname : name ≠ Property.sweepRevision := fun hname ↦ by
      rw [hname] at hrelevant
      exact absurd hrelevant (by decide)
    refine ⟨hown, ?_⟩
    cases (hs.valueAt?_iff hd hname).1 hv with
    | created => exact .inr ⟨rfl, rfl, .inl rfl⟩
    | committed => exact .inr ⟨rfl, rfl, .inr rfl⟩
    | written hc hkept he => exact .inl ⟨_, hc, rfl, rfl, hkept, _, he⟩
    | marked => exact absurd hrelevant (by decide)
  · intro hx
    have hvalue {name v : String} {r : Revision} (hstands : Stands ws recovered id name r v) :
        ∃ v, d.valueAt? name r = some v := ⟨v, (hs.valueAt?_iff hd hstands.name_ne).2 hstands⟩
    obtain ⟨hown, ⟨c, hc, rfl, rfl, hkept, v, he⟩ | ⟨rfl, rfl, rfl | rfl⟩⟩ := hx
    · exact ⟨relevant_of_mem he, hvalue (.written hc hkept he), hown⟩
    · exact ⟨by decide, hvalue .created, hown⟩
    · exact ⟨by decide, hvalue .committed, hown⟩

theorem leftover_iff (h : IsHistory ws) (hb : sw.config.beyondHead = true) (hd : s.documents.get? id = some d) :
    sw.Visits d name r ∧ sw.IsLeftover head d (s.commitOf d) r ↔ ∃ c ∈ ws, (c.documentId = id ∧ c.revision = r) ∧
      (c.clusterId = sw.clusterId ∧ c.clusterId ∉ recovered ∧ c.commit? = none) ∧ ∃ v, (name, v) ∈ c.entries := by
  rw [hs.visits_iff hf hd]
  constructor
  · intro hx
    obtain ⟨⟨hown, ⟨c, hc, rfl, rfl, hkept, he⟩ | ⟨rfl, rfl, -⟩⟩, hleft⟩ := hx
    · have hcommit := hleft.2.1
      rw [hs.commitOf_call h hc hd hkept, Option.map_eq_none_iff] at hcommit
      exact ⟨c, hc, ⟨rfl, rfl⟩, ⟨hown, fun hmem ↦ hkept hmem hcommit, hcommit⟩, he⟩
    · cases (hs.commitOf_start hd).symm.trans hleft.2.1
  · intro hx
    obtain ⟨c, hc, ⟨rfl, rfl⟩, ⟨hown, hfresh, hcommit⟩, he⟩ := hx
    have hkept (hmem : c.clusterId ∈ recovered) : c.commit? ≠ none := absurd hmem hfresh
    refine ⟨⟨hown, .inl ⟨c, hc, rfl, rfl, hkept, he⟩⟩, hown, ?_, hs.isMarked_of_fresh h hc hd hfresh, .inr hb⟩
    rw [hs.commitOf_call h hc hd hkept, hcommit]
    rfl

theorem merge_iff (h : IsHistory ws) (hd : s.documents.get? id = some d) :
    (∃ name, sw.Visits d name r) ∧ Sweep.IsUnmarkedMerge d (s.commitOf d) r ↔
      ∃ c ∈ ws, (c.documentId = id ∧ c.revision = r) ∧
        c.clusterId = sw.clusterId ∧ c.clusterId ∉ recovered ∧ c.write = .mergedBranch := by
  simp only [hs.visits_iff hf hd]
  constructor
  · intro hx
    obtain ⟨⟨name, hown, ⟨c, hc, rfl, rfl, hkept, -⟩ | ⟨rfl, rfl, -⟩⟩, hunmarked, value, hvalue, hresolve⟩ := hx
    · rw [hs.commitOf_call h hc hd hkept, Option.map_eq_some_iff] at hvalue
      obtain ⟨w, hw, rfl⟩ := hvalue
      rw [CommitValue.resolve_text] at hresolve
      have hmerged := (commitRevision_ne_iff hw).1 hresolve
      refine ⟨c, hc, ⟨rfl, rfl⟩, hown, fun hmem ↦ ?_, hmerged⟩
      rw [(hs.isMarked_iff h hc hd).2 ⟨hmem, hmerged⟩] at hunmarked
      cases hunmarked
    · rw [hs.commitOf_start hd] at hvalue
      obtain rfl := Option.some.inj hvalue
      exact absurd (CommitValue.resolve_text _ _) hresolve
  · intro hx
    obtain ⟨c, hc, ⟨rfl, rfl⟩, hown, hfresh, hmerged⟩ := hx
    have hkept (hmem : c.clusterId ∈ recovered) : c.commit? ≠ none := absurd hmem hfresh
    obtain ⟨w, hcommit⟩ : ∃ w, c.commit? = some w := by rw [commit?, hmerged]; exact ⟨_, rfl⟩
    refine ⟨⟨c.write.property, hown, .inl ⟨c, hc, rfl, rfl, hkept, c.content, List.mem_cons_self⟩⟩,
      hs.isMarked_of_fresh h hc hd hfresh, w.text, ?_, ?_⟩
    · rw [hs.commitOf_call h hc hd hkept, hcommit, Option.map_some]
    · rw [CommitValue.resolve_text]
      exact (commitRevision_ne_iff hcommit).2 hmerged

theorem exists_visit (h : IsHistory ws) (hb : sw.config.beyondHead = true) (hd : s.documents.get? id = some d)
    {k : Key} {ch : Change} (hc : sw.TableChange head d (s.commitOf d) k ch) :
    sw.clusterId ∉ recovered ∧ ∃ name r, sw.Visits d name r := by
  by_contra hnot
  refine Sweep.no_change_iff.2 (fun name r hvisit ↦ ⟨fun hleft ↦ hnot ?_, fun hmerge ↦ hnot ?_⟩) k ch hc
  · obtain ⟨c, -, -, ⟨hown, hfresh, -⟩, -⟩ := (hs.leftover_iff hf h hb hd).1 ⟨hvisit, hleft⟩
    exact ⟨hown ▸ hfresh, name, r, hvisit⟩
  · obtain ⟨c, -, -, hown, hfresh, -⟩ := (hs.merge_iff hf h hd).1 ⟨⟨name, hvisit⟩, hmerge⟩
    exact ⟨hown ▸ hfresh, name, r, hvisit⟩

theorem stands_of_no_change (h : IsHistory ws) (hb : sw.config.beyondHead = true)
    (hd : s.documents.get? id = some d) (none : ∀ ch, ¬ sw.TableChange head d (s.commitOf d) (.entry name r) ch) :
    Stands ws recovered id name r v ↔ Stands ws (sw.clusterId :: recovered) id name r v := by
  constructor
  · intro hstands
    cases hstands with
    | created => exact .created
    | committed => exact .committed
    | @written c _ _ hc hkept he =>
      refine .written hc (fun hmem hcommit ↦ ?_) he
      have hfresh : c.clusterId ∉ recovered := fun hmem ↦ hkept hmem hcommit
      have hown := (List.mem_cons.1 hmem).resolve_right hfresh
      have hfound : sw.Visits d name c.revision ∧ sw.IsLeftover head d (s.commitOf d) c.revision :=
        (hs.leftover_iff hf h hb hd).2 ⟨c, hc, ⟨rfl, rfl⟩, ⟨hown, hfresh, hcommit⟩, _, he⟩
      exact none _ (.entry hfound.1 hfound.2)
    | marked hc hmem hmerged => exact .marked hc (List.mem_cons_of_mem _ hmem) hmerged
  · intro hstands
    cases hstands with
    | created => exact .created
    | committed => exact .committed
    | written hc hkept he => exact .written hc (fun hmem ↦ hkept (List.mem_cons_of_mem _ hmem)) he
    | @marked c hc hmem hmerged =>
      refine .marked hc (by_contra fun hfresh ↦ ?_) hmerged
      have hown := (List.mem_cons.1 hmem).resolve_right hfresh
      have hfound : (∃ name, sw.Visits d name c.revision) ∧
          Sweep.IsUnmarkedMerge d (s.commitOf d) c.revision :=
        (hs.merge_iff hf h hd).2 ⟨c, hc, ⟨rfl, rfl⟩, hown, hfresh, hmerged⟩
      obtain ⟨⟨_, hvisit⟩, hmerge⟩ := hfound
      exact none _ (.mark hvisit hmerge)

theorem valueAt?_corrected_iff (h : IsHistory ws) (hb : sw.config.beyondHead = true)
    (hd : s.documents.get? id = some d) (hname : name ≠ Property.sweepRevision) :
    (sw.corrected head d (s.commitOf d)).valueAt? name r = some v ↔
      Stands ws (sw.clusterId :: recovered) id name r v := by
  by_cases hchange : ∃ ch, sw.TableChange head d (s.commitOf d) (.entry name r) ch
  · obtain ⟨ch, hch⟩ := hchange
    rw [Sweep.valueAt?_corrected_of_change hch]
    rcases hch.at_entry with ⟨rfl, hleft, name', hvisit⟩ | ⟨rfl, rfl, hmerge, hvisit⟩
    · obtain ⟨c, hc, ⟨rfl, rfl⟩, ⟨hown, -, hcommit⟩, -⟩ := (hs.leftover_iff hf h hb hd).1 ⟨hvisit, hleft⟩
      have hmem : c.clusterId ∈ sw.clusterId :: recovered := List.mem_cons.2 (.inl hown)
      have hmerged : c.write ≠ .mergedBranch := fun hmerged ↦ by
        rw [commit?, hmerged] at hcommit
        cases hcommit
      rw [stands_iff h hc]
      simp [Change.effect, hmem, hcommit, hmerged]
    · obtain ⟨c, hc, ⟨rfl, rfl⟩, hown, -, hmerged⟩ := (hs.merge_iff hf h hd).1 ⟨hvisit, hmerge⟩
      have hmem : c.clusterId ∈ sw.clusterId :: recovered := List.mem_cons.2 (.inl hown)
      rw [stands_iff h hc]
      simp [Change.effect, hmem, branchCommits_not_mem, hmerged, eq_comm]
  · have hunchanged := fun ch hch ↦ hchange ⟨ch, hch⟩
    rw [Sweep.corrected, Sweep.valueAt?_apply_of_no_change d hunchanged, hs.valueAt?_iff hd hname,
      hs.stands_of_no_change hf h hb hd hunchanged]

end Found

theorem exists_call_of_commitRoot (hd : s.documents.get? id = some d)
    (hroot : (d.valueAt? Property.commitRoot r).isSome) :
    ∃ c ∈ ws, c.revision = r ∧ c.clusterId ∉ recovered ∧ c.commit? = none := by
  obtain ⟨depth, hdepth⟩ := Option.isSome_iff_exists.1 hroot
  have hstands := (hs.valueAt?_iff hd (by decide)).1 hdepth
  generalize hname : Property.commitRoot = name at hstands
  cases hstands with
  | created | committed | marked => exact absurd hname (by decide)
  | written hc hkept he =>
    rw [← hname, mem_entries_commitRoot] at he
    exact ⟨_, hc, rfl, fun hmem ↦ hkept hmem he.1, he.1⟩

theorem marksOnce (h : IsHistory ws) (m : UInt32) : s.MarksOnce m := by
  intro id d r hd _ hroot
  obtain ⟨c, hc, rfl, -, hcommit⟩ := hs.exists_call_of_commitRoot hd hroot
  refine Option.eq_none_iff_forall_ne_some.2 fun v hv ↦ ?_
  rcases ((stands_iff h hc).1 ((hs.valueAt?_iff hd (by decide)).1 hv)).2 with ⟨-, he⟩ | ⟨-, hmark, -⟩
  · obtain ⟨w, hw, -⟩ := mem_entries_revisions.1 he
    cases hcommit.symm.trans hw
  · exact absurd hmark (by decide)

theorem get?_of_stands (hstands : Stands ws recovered id name r v) : ∃ d, s.documents.get? id = some d := by
  obtain ⟨d, hd, -⟩ := Option.bind_eq_some_iff.1 ((hs.entries id name r v hstands.name_ne).2 hstands)
  exact ⟨d, hd⟩

theorem get?_of_call (hc : c ∈ ws) (hkept : c.clusterId ∈ recovered → c.commit? ≠ none) :
    ∃ d, s.documents.get? c.documentId = some d :=
  hs.get?_of_stands (.written hc hkept List.mem_cons_self)

theorem get?_of_stands_cons {m : UInt32} (hstands : Stands ws (m :: recovered) id name r v) :
    ∃ d, s.documents.get? id = some d := by
  cases hstands with
  | created => exact hs.get?_of_stands .created
  | committed => exact hs.get?_of_stands .committed
  | written hc hkept => exact hs.get?_of_call hc fun hmem ↦ hkept (List.mem_cons_of_mem _ hmem)
  | marked hc _ hmerged =>
    refine hs.get?_of_call hc fun _ ↦ ?_
    rw [commit?, hmerged]
    simp

variable {m : Member} {config : SweepConfig} {head : Revision} {checkpoint : RevisionVector}
  {outcome : MemberOutcome}

theorem isBehind_checkpoint (hsweeps : m.Sweeps config s head checkpoint outcome t)
    (hr : r.clusterId ∉ recovered) : checkpoint.isBehind r = true := by
  refine ((Store.checkpoints_spec hs.available hsweeps.since).2 r).2 fun v x hv hx hmember ↦ ?_
  obtain ⟨y, hy, hrecovered⟩ := hs.checkpoints v hv
  obtain rfl := Except.ok.inj (hx.symm.trans hy)
  exact absurd (hmember ▸ hrecovered) hr

theorem isCandidate (h : IsHistory ws) (hb : config.beyondHead = true)
    (hsweeps : m.Sweeps config s head checkpoint outcome t) (hd : s.documents.get? id = some d)
    (hchange : ∃ k c, (m.toSweep config).TableChange head d (s.commitOf d) k c) :
    m.isCandidate checkpoint d = true := by
  obtain ⟨k, c, hc⟩ := hchange
  obtain ⟨hfresh, name, r, hvisit⟩ := hs.exists_visit rfl h hb hd hc
  have hown : r.clusterId = m.clusterId := hvisit.2.2
  have hr : r.clusterId ∉ recovered := hown ▸ hfresh
  exact Member.isCandidate_iff.2
    ⟨name, r, hvisit.name_ne rfl, hvisit.2.1, hown, hs.isBehind_checkpoint hsweeps hr⟩

/-- The recovery of a member takes away its pending writes and marks its merged branches. -/
theorem sweep (h : IsHistory ws) (hb : config.beyondHead = true)
    (hsweeps : m.Sweeps config s head checkpoint outcome t) : Reflects ws (m.clusterId :: recovered) t where
  available := hsweeps.available_after
  wellFormed := hsweeps.wellFormed hs.wellFormed
  entries id name r v hname := by
    cases hd : s.documents.get? id with
    | none =>
      have hroot : id ≠ Path.root.id := fun hid ↦ by
        obtain ⟨_, hget⟩ := hs.get?_of_stands .created
        cases hd.symm.trans (hid ▸ hget)
      rw [Store.valueAt?, hsweeps.get?_eq_none hroot hd]
      refine ⟨fun hv ↦ (by cases hv), fun hstands ↦ ?_⟩
      obtain ⟨_, hget⟩ := hs.get?_of_stands_cons hstands
      cases hd.symm.trans hget
    | some d =>
      rw [hsweeps.valueAt?_after hs.wellFormed (hs.marksOnce h _) hd (hs.isCandidate h hb hsweeps hd) hname]
      exact hs.valueAt?_corrected_iff rfl h hb hd hname
  checkpoints v hv := by
    rcases hsweeps.advances.hasCheckpoint_of_after hv with hold | rfl
    · obtain ⟨x, hx, hmem⟩ := hs.checkpoints v hold
      exact ⟨x, hx, List.mem_cons_of_mem _ hmem⟩
    · exact ⟨head, Revision.parse_text head, hsweeps.clusterId_head ▸ List.mem_cons_self⟩

theorem updated_eq_zero (h : IsHistory ws) (hb : config.beyondHead = true)
    (hsweeps : m.Sweeps config s head checkpoint outcome t) (hrecovered : m.clusterId ∈ recovered) :
    outcome.counts.updated = 0 := by
  refine (hsweeps.idle fun d hd ↦ ?_).2.1
  have hstored := ((Member.mem_candidates hs.wellFormed).1 hd).1
  rw [← Correction.update?_eq_none_iff, Sweep.correctionIn, Sweep.update?_correctionOf_eq_none_iff]
  exact fun k c hc ↦ (hs.exists_visit rfl h hb hstored hc).1 hrecovered

theorem reverted_eq (h : IsHistory ws) (hb : config.beyondHead = true)
    (hsweeps : m.Sweeps config s head checkpoint outcome t) (hfresh : m.clusterId ∉ recovered) :
    outcome.counts.reverted = 2 * ws.countP fun c ↦ c.clusterId == m.clusterId && c.write.isPending := by
  have hset : {e : String × String × Revision | ∃ d, s.documents.get? e.1 = some d ∧
      m.isCandidate checkpoint d = true ∧ (m.toSweep config).Visits d e.2.1 e.2.2 ∧
        (m.toSweep config).IsLeftover head d (s.commitOf d) e.2.2} =
      {e | ∃ c ∈ ws.filter fun c ↦ c.clusterId == m.clusterId && c.write.isPending,
        (c.documentId = e.1 ∧ c.revision = e.2.2) ∧ ∃ v, (e.2.1, v) ∈ c.entries} := by
    ext e
    obtain ⟨id, name, r⟩ := e
    simp only [Set.mem_ofPred_eq, List.mem_filter, Bool.and_eq_true, beq_iff_eq, ← commit?_eq_none_iff]
    constructor
    · intro hx
      obtain ⟨d, hd, -, hleft⟩ := hx
      obtain ⟨c, hc, hat, ⟨hown, -, hcommit⟩, he⟩ := (hs.leftover_iff rfl h hb hd).1 hleft
      exact ⟨c, ⟨hc, hown, hcommit⟩, hat, he⟩
    · intro hx
      obtain ⟨c, ⟨hc, hown, hcommit⟩, ⟨rfl, rfl⟩, he⟩ := hx
      have hfresh : c.clusterId ∉ recovered := hown ▸ hfresh
      obtain ⟨d, hd⟩ := hs.get?_of_call hc fun hmem ↦ absurd hmem hfresh
      have hleft : (m.toSweep config).Visits d name c.revision ∧
          (m.toSweep config).IsLeftover head d (s.commitOf d) c.revision :=
        (hs.leftover_iff rfl h hb hd).2 ⟨c, hc, ⟨rfl, rfl⟩, ⟨hown, hfresh, hcommit⟩, he⟩
      exact ⟨d, hd, hs.isCandidate h hb hsweeps hd ⟨_, _, .entry hleft.1 hleft.2⟩, hleft⟩
  have hsum := hsweeps.encard_reverted hs.wellFormed
  rw [hset, encard_mul (h.nodup.filter _) ?_ encard_entries, ← List.countP_eq_length_filter] at hsum
  · exact_mod_cast hsum.symm
  · intro c hc c' hc' e he he'
    exact h.eq_of_revision (List.mem_of_mem_filter hc) (List.mem_of_mem_filter hc') (he.1.2.trans he'.1.2.symm)

theorem marked_eq (h : IsHistory ws) (hb : config.beyondHead = true)
    (hsweeps : m.Sweeps config s head checkpoint outcome t) (hfresh : m.clusterId ∉ recovered) :
    outcome.counts.marked = ws.countP fun c ↦ c.clusterId == m.clusterId && c.write == .mergedBranch := by
  have hset : {e : String × Revision | ∃ d, s.documents.get? e.1 = some d ∧
      m.isCandidate checkpoint d = true ∧ (∃ name, (m.toSweep config).Visits d name e.2) ∧
        Sweep.IsUnmarkedMerge d (s.commitOf d) e.2} =
      {e | ∃ c ∈ ws.filter fun c ↦ c.clusterId == m.clusterId && c.write == .mergedBranch,
        c.documentId = e.1 ∧ c.revision = e.2} := by
    ext e
    obtain ⟨id, r⟩ := e
    simp only [Set.mem_ofPred_eq, List.mem_filter, Bool.and_eq_true, beq_iff_eq]
    constructor
    · intro hx
      obtain ⟨d, hd, -, hmerge⟩ := hx
      obtain ⟨c, hc, hat, hown, -, hmerged⟩ := (hs.merge_iff rfl h hd).1 hmerge
      exact ⟨c, ⟨hc, hown, hmerged⟩, hat⟩
    · intro hx
      obtain ⟨c, ⟨hc, hown, hmerged⟩, rfl, rfl⟩ := hx
      have hfresh : c.clusterId ∉ recovered := hown ▸ hfresh
      obtain ⟨d, hd⟩ := hs.get?_of_call hc fun hmem ↦ absurd hmem hfresh
      have hmerge : (∃ name, (m.toSweep config).Visits d name c.revision) ∧
          Sweep.IsUnmarkedMerge d (s.commitOf d) c.revision :=
        (hs.merge_iff rfl h hd).2 ⟨c, hc, ⟨rfl, rfl⟩, hown, hfresh, hmerged⟩
      obtain ⟨name, hvisit⟩ := hmerge.1
      exact ⟨d, hd, hs.isCandidate h hb hsweeps hd ⟨_, _, .mark hvisit hmerge.2⟩, hmerge⟩
  have hsum := hsweeps.encard_marked hs.wellFormed
  rw [hset, encard_mul (h.nodup.filter _) ?_ encard_revision, ← List.countP_eq_length_filter, Nat.one_mul] at hsum
  · exact_mod_cast hsum.symm
  · intro c hc c' hc' e he he'
    exact h.eq_of_revision (List.mem_of_mem_filter hc) (List.mem_of_mem_filter hc') (he.2.trans he'.2.symm)

theorem leftovers_eq_zero {m : UInt32} (hrecovered : m ∈ recovered) :
    Recovery.leftovers s m = .ok 0 := by
  have hchanged : s.changedBy m = .ok (s.documents.values.filter fun d ↦ !(d.revisionsBy m).isEmpty) := by
    rw [Store.changedBy, if_pos hs.available]
  have hroots : ((s.documents.values.filter fun d ↦ !(d.revisionsBy m).isEmpty).flatMap fun d ↦
      (d.commitRoots?.map (·.keys)).getD []).filter (·.clusterId == m) = [] := by
    rw [List.filter_eq_nil_iff]
    intro r hr hown
    obtain ⟨d, hd, hkey⟩ := List.mem_flatMap.1 hr
    obtain ⟨id, hget⟩ := SortedMap.mem_values_iff.1 (List.mem_of_mem_filter hd)
    obtain ⟨c, -, rfl, hfresh, -⟩ := hs.exists_call_of_commitRoot hget (Document.mem_keys_map?_iff.1 hkey)
    have hown : c.clusterId = m := beq_iff_eq.1 hown
    exact hfresh (hown ▸ hrecovered)
  simp only [Recovery.leftovers, Store.findAt, Store.find_of_available hs.available, hchanged, hroots,
    List.countP_nil]

theorem exists_sweeps (hv : config.validate = .ok ()) (hfits : config.fits = true)
    (hh : m.head.revision? m.clusterId = some head) (clock : Nat → Nat) : ∃ checkpoint outcome t,
      (m.sweep config clock s).value = (.ok outcome, t) ∧ m.Sweeps config s head checkpoint outcome t := by
  obtain ⟨checkpoint, hcheckpoint⟩ := Store.exists_checkpoints hs.available fun v hv ↦
    (hs.checkpoints v hv).imp fun _ hx ↦ hx.1
  exact ⟨checkpoint, Member.sweep_value hs.wellFormed hv hfits hs.available hh hcheckpoint clock⟩

end Reflects

end NodeStore.WriteCall
