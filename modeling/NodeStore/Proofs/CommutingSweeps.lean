import NodeStore.Proofs.BatchSize
import NodeStore.Proofs.PointwiseUpdates

namespace NodeStore

theorem Update.isOwn_checkpoint (x : Revision) : (Update.checkpoint x).IsOwn x.clusterId where
  entries name r ch h := by
    rw [Update.change?_checkpoint] at h
    split at h
    next hk => rw [hk.2]; rfl
    next => cases h
  flag k value h := by cases Update.changes_checkpoint h

namespace Document

variable {c c' : UInt32} {d e : Document} {u : Update} {us : List Update}

theorem agree_apply (hne : c ≠ c') (hu : u.IsOwn c) (d : Document) : d.Agree c' (d.apply u) where
  id := d.id_apply u
  path := d.path_apply u
  entries name r hr := by
    rw [valueAt?_apply]
    cases hc : u.change? name (some r) with
    | none => rfl
    | some ch => exact absurd ((hu.entries name r ch hc).symm.trans hr) hne

theorem agree_foldl (hne : c ≠ c') (hus : ∀ u ∈ us, u.IsOwn c) (d : Document) :
    d.Agree c' (us.foldl apply d) := by
  induction us generalizing d with
  | nil => exact .refl c' d
  | cons u us ih =>
    rw [List.forall_mem_cons] at hus
    exact (agree_apply hne hus.1 d).trans (ih hus.2 (d.apply u))

theorem deletedOnce_foldl (hus : ∀ u ∈ us, u.IsOwn c) (h : d.deletedOnce = true) :
    (us.foldl apply d).deletedOnce = true := by
  induction us generalizing d with
  | nil => exact h
  | cons u us ih =>
    rw [List.forall_mem_cons] at hus
    exact ih hus.2 ((d.deletedOnce_apply_iff hus.1.flag).2 (.inl h))

end Document

namespace Sweep

variable {sw : Sweep} {head : Revision} {d e : Document} {commit commit' : Revision → Option String}

theorem isOwn_correctionOf (sw : Sweep) (head : Revision) (d : Document) (commit : Revision → Option String) :
    (sw.correctionOf head d commit).update.IsOwn sw.clusterId where
  entries name r ch h := by
    rcases ((sw.changes_correctionOf head d commit _ ch).1 h).at_entry with ⟨-, hleft, -⟩ | ⟨-, -, -, _, hvisit⟩
    · exact hleft.1
    · exact hvisit.2.2
  flag k value h := by
    cases (sw.changes_correctionOf head d commit k _).1 h
    rfl

/-- The corrections of a document and of one that agrees with it have the same effect on the latter. If only one of
them sets the flag, it is set already. -/
theorem apply_of_agree (h : d.Agree sw.clusterId e) (hc : ∀ r, r.clusterId = sw.clusterId → commit' r = commit r)
    (hflag : d.deletedOnce = true → e.deletedOnce = true) :
    e.apply (sw.correctionOf head e commit').update = e.apply (sw.correctionOf head d commit).update := by
  have hc' (r : Revision) (hr : r.clusterId = sw.clusterId) : commit r = commit' r := (hc r hr).symm
  refine Document.apply_congr (change?_of_agree h hc) ?_
  rw [Bool.eq_iff_iff, Document.deletedOnce_apply_iff _ (sw.isOwn_correctionOf ..).flag,
    Document.deletedOnce_apply_iff _ (sw.isOwn_correctionOf ..).flag]
  simp only [Update.Raises, changes_correctionOf]
  constructor
  · intro hx
    rcases hx with he | ⟨k, hk, hchange⟩
    · exact .inl he
    · exact (hchange.of_agree h.symm hc').elim (fun hd ↦ .inr ⟨k, hk, hd⟩) fun hd ↦ .inl (hflag hd.2)
  · intro hx
    rcases hx with he | ⟨k, hk, hchange⟩
    · exact .inl he
    · exact (hchange.of_agree h hc).elim (fun he ↦ .inr ⟨k, hk, he⟩) fun he ↦ .inl he.2

end Sweep

namespace Store

def base? (s : Store) (id : String) : Option Document :=
  if id = Path.root.id then some s.rootDocument else s.documents.get? id

/-- The checkpoints are as sweeps write them: each holds a revision of the member that it belongs to. -/
def HasOwnCheckpoints (s : Store) : Prop :=
  ∀ k v, s.valueAt? Path.root.id Property.sweepRevision k = some v →
    ∃ x, Revision.parse v = .ok x ∧ k = .onTrunk 0 0 x.clusterId

theorem hasOwnCheckpoints_iff (s : Store) : s.HasOwnCheckpoints ↔
    ∀ e ∈ ((s.rootDocument.map? Property.sweepRevision).map (·.entries)).getD [],
      ∃ x ∈ Revision.parse? e.2, e.1 = .onTrunk 0 0 x.clusterId := by
  have hentry (k : Revision) (v : String) : s.valueAt? Path.root.id Property.sweepRevision k = some v ↔
      (k, v) ∈ ((s.rootDocument.map? Property.sweepRevision).map (·.entries)).getD [] := by
    rw [← valueAt?_rootDocument, Document.valueAt?]
    cases s.rootDocument.map? Property.sweepRevision with
    | none => simp
    | some m => exact SortedMap.mem_entries_iff.symm
  have hparse (v : String) (x : Revision) : x ∈ Revision.parse? v ↔ Revision.parse v = .ok x := by
    rw [Option.mem_def, Revision.parse?]
    cases Revision.parse v <;> simp [Except.toOption]
  simp only [HasOwnCheckpoints, hentry, hparse, Prod.forall]

instance (s : Store) : Decidable s.HasOwnCheckpoints := decidable_of_iff _ s.hasOwnCheckpoints_iff.symm

section

variable {s : Store} {id : String} {d : Document}

theorem HasOwnCheckpoints.readable (h : s.HasOwnCheckpoints) (ha : s.available = true) : s.Readable := by
  refine ⟨ha, exists_checkpoints ha fun v hv ↦ ?_⟩
  obtain ⟨k, hk⟩ := hv
  obtain ⟨x, hx, -⟩ := h k v hk
  exact ⟨x, hx⟩

theorem base?_of_stored (hd : s.documents.get? id = some d) : s.base? id = some d := by
  rw [base?]
  split
  next hid => rw [rootDocument, ← hid, hd, Option.getD_some]
  next => exact hd

theorem base?_of_not_stored (hd : s.documents.get? id = none) :
    s.base? id = if id = Path.root.id then some (.blank .root) else none := by
  rw [base?]
  split
  next hid => rw [rootDocument, ← hid, hd, Option.getD_none]
  next => exact hd

end

end Store

namespace Member

variable {m m' : Member} {config config' : SweepConfig} {s t u v : Store} {head head' : Revision}
  {checkpoint checkpoint' next : RevisionVector} {o o' : MemberOutcome} {d e : Document}

/-- What a sweep makes of a document: its correction, if there is one to apply, and the checkpoint. -/
def edits (m : Member) (config : SweepConfig) (s : Store) (head : Revision) (checkpoint : RevisionVector)
    (d : Document) : List Update :=
  (if m.isCandidate checkpoint d && (m.toSweep config).accepts head s d
    then [((m.toSweep config).correctionIn head s d).update] else []) ++
  if d.id = Path.root.id then [.checkpoint head] else []

theorem isOwn_edits (hh : head.clusterId = m.clusterId) : ∀ u ∈ m.edits config s head checkpoint d,
    u.IsOwn m.clusterId := by
  intro u hu
  rw [edits, List.mem_append] at hu
  rcases hu with hu | hu
  · split at hu
    · rw [List.mem_singleton.1 hu]
      exact (m.toSweep config).isOwn_correctionOf head d _
    · cases hu
  · split at hu
    · rw [List.mem_singleton.1 hu, ← hh]
      exact Update.isOwn_checkpoint head
    · cases hu

theorem edits_of_agree (h : s.Agree m.clusterId t) (hd : d.Agree m.clusterId e)
    (hflag : d.deletedOnce = true → e.deletedOnce = true)
    (hbehind : ∀ r, r.clusterId = m.clusterId → next.isBehind r = checkpoint.isBehind r) :
    (m.edits config t head next e).foldl Document.apply e =
      (m.edits config s head checkpoint d).foldl Document.apply e := by
  have hcorrection : e.apply ((m.toSweep config).correctionIn head t e).update =
      e.apply ((m.toSweep config).correctionIn head s d).update :=
    Sweep.apply_of_agree hd (fun r hr ↦ h.commitOf hd hr) hflag
  rw [edits, edits, isCandidate_of_agree hd hbehind, Sweep.accepts_of_agree h hd, hd.id]
  cases m.isCandidate checkpoint d && (m.toSweep config).accepts head s d with
  | false => rfl
  | true =>
    rw [if_pos rfl, if_pos rfl, List.foldl_append, List.foldl_append, List.foldl_cons, List.foldl_cons, hcorrection]

namespace Sweeps

theorem get?_eq_edits (h : m.Sweeps config s head checkpoint o t) (hs : s.WellFormed) (id : String) :
    t.documents.get? id =
      (s.base? id).map fun d ↦ (m.edits config s head checkpoint d).foldl Document.apply d := by
  cases hd : s.documents.get? id with
  | none =>
    rw [h.get?_after, hd, Store.base?_of_not_stored hd]
    split
    next hid =>
      have hcandidate : m.isCandidate checkpoint (.blank .root) = false := not_isCandidate (fun _ _ _ ↦ rfl) _
      rw [Option.map_some, edits, hcandidate]
      rfl
    next => rfl
  | some d =>
    have hmem : d ∈ m.candidates s checkpoint ↔ m.isCandidate checkpoint d = true :=
      (mem_candidates hs).trans (and_iff_right (hs.stored hd))
    have hswept : m.swept config s head checkpoint d =
        (if m.isCandidate checkpoint d && (m.toSweep config).accepts head s d
          then [((m.toSweep config).correctionIn head s d).update] else []).foldl Document.apply d := by
      simp only [swept, hmem, Sweep.settled]
      cases m.isCandidate checkpoint d <;> cases (m.toSweep config).accepts head s d <;> rfl
    rw [h.get?_stored hd, Store.base?_of_stored hd, Option.map_some, edits, List.foldl_append, ← hswept, (hs id d hd).1]
    split <;> rfl

theorem base?_after (h : m.Sweeps config s head checkpoint o t) (id : String) : t.base? id = t.documents.get? id := by
  rw [Store.base?]
  split
  next hid => rw [hid, Store.rootDocument, h.get?_after, if_pos rfl, Option.getD_some]
  next => rfl

theorem agree (h : m.Sweeps config s head checkpoint o t) {c : UInt32} (hc : c ≠ m.clusterId) : s.Agree c t where
  available := h.available_after.trans h.available.symm
  stored id d hd := by
    have hget := h.get?_stored hd
    refine ⟨_, hget, by split <;> simp, by split <;> simp, fun name r hr ↦ ?_⟩
    have hvalue := h.valueAt?_of_ne id name (ne_of_eq_of_ne hr hc)
    rwa [Store.valueAt?_of_stored hget, Store.valueAt?_of_stored hd] at hvalue
  added id e he hnone name r hr := by
    have hvalue := h.valueAt?_of_ne id name (ne_of_eq_of_ne hr hc)
    rwa [Store.valueAt?_of_stored he, Store.valueAt?, hnone, Option.bind_none] at hvalue

theorem isBehind_of_ne (h : m.Sweeps config s head checkpoint o t) (hown : s.HasOwnCheckpoints)
    (hs : s.checkpoints = .ok checkpoint') (ht : t.checkpoints = .ok next) {r : Revision}
    (hr : r.clusterId ≠ m.clusterId) : next.isBehind r = checkpoint'.isBehind r := by
  rw [Bool.eq_iff_iff]
  constructor
  · intro hnext
    refine ((Store.checkpoints_spec h.available hs).2 r).2 fun v x hv hx hmember ↦ ?_
    obtain ⟨k, hk⟩ := hv
    obtain ⟨x', hx', hkey⟩ := hown k v hk
    obtain rfl := Except.ok.inj (hx.symm.trans hx')
    have hne : k ≠ .onTrunk 0 0 head.clusterId := fun heq ↦ by
      have hcluster : x.clusterId = head.clusterId := (Revision.mk.inj (hkey.symm.trans heq)).2.2.1
      exact hr (hmember.symm.trans (hcluster.trans h.clusterId_head))
    have hkept : t.HasCheckpoint v := ⟨k, by rw [h.advances.checkpoints, if_neg hne, hk]⟩
    exact ((Store.checkpoints_spec h.available_after ht).2 r).1 hnext v x hkept hx hmember
  · exact h.advances.isBehind_after hs ht fun hcluster ↦ absurd (hcluster.trans h.clusterId_head) hr

theorem after_other (h : m.Sweeps config s head checkpoint o t) (hs : s.WellFormed) (hown : s.HasOwnCheckpoints)
    (hne : m.clusterId ≠ m'.clusterId) {o'' : MemberOutcome} {head'' : Revision}
    (h' : m'.Sweeps config' s head' checkpoint' o' u) (h'' : m'.Sweeps config' t head'' next o'' v) :
    o'' = o' ∧ v.available = true ∧ ∀ id, v.documents.get? id = (s.base? id).map fun d ↦
      (m'.edits config' s head' checkpoint' d).foldl Document.apply
        ((m.edits config s head checkpoint d).foldl Document.apply d) := by
  obtain rfl := Option.some.inj (h'.component.symm.trans h''.component)
  have hagree : s.Agree m'.clusterId t := h.agree hne.symm
  have hbehind (r : Revision) (hr : r.clusterId = m'.clusterId) : next.isBehind r = checkpoint'.isBehind r :=
    h.isBehind_of_ne hown h'.since h''.since (ne_of_eq_of_ne hr hne.symm)
  have hedits (d : Document) : ∀ u ∈ m.edits config s head checkpoint d, u.IsOwn m.clusterId :=
    isOwn_edits h.clusterId_head
  refine ⟨h'.outcome_eq h'' hs (h.wellFormed hs) hagree hbehind, h''.available_after, fun id ↦ ?_⟩
  rw [h''.get?_eq_edits (h.wellFormed hs), h.base?_after, h.get?_eq_edits hs]
  cases s.base? id with
  | none => rfl
  | some d =>
    have hflag := Document.deletedOnce_foldl (hedits d) (d := d)
    rw [Option.map_some, Option.map_some, Option.map_some,
      edits_of_agree hagree (Document.agree_foldl hne (hedits d) d) hflag hbehind]

theorem comm (h : m.Sweeps config s head checkpoint o t) (h' : m'.Sweeps config' s head' checkpoint' o' u)
    (hs : s.WellFormed) (hown : s.HasOwnCheckpoints) (hne : m.clusterId ≠ m'.clusterId)
    {again again' : MemberOutcome} {w w' : Store} {first first' : Revision} {next next' : RevisionVector}
    (h₂ : m'.Sweeps config' t first' next' again' w') (h₂' : m.Sweeps config u first next again w) :
    w' = w ∧ o = again ∧ again' = o' := by
  obtain ⟨hsame', havailable', hdocuments'⟩ := h.after_other hs hown hne h' h₂
  obtain ⟨hsame, havailable, hdocuments⟩ := h'.after_other hs hown hne.symm h h₂'
  refine ⟨Store.ext_get? (havailable'.trans havailable.symm) fun id ↦ ?_, hsame.symm, hsame'⟩
  rw [hdocuments', hdocuments]
  cases s.base? id with
  | none => rfl
  | some d =>
    rw [Option.map_some, Option.map_some,
      Document.foldl_apply_comm hne (isOwn_edits h.clusterId_head) (isOwn_edits h'.clusterId_head)]

end Sweeps

theorem sweep_of_unavailable (ha : s.available = false) (m : Member) (config : SweepConfig) :
    ∃ e, ∀ clock, (m.sweep config clock s).value = (.error e, s) := by
  cases hv : config.validate with
  | error e => exact ⟨.failed e, fun clock ↦ by simp only [sweep, sweepAmid, hv, Logged.value_pure]⟩
  | ok _ =>
    have hc : s.checkpoints = .error (.store Store.offline) := by
      rw [Store.checkpoints, Store.findAt, Store.find, ha]
      rfl
    exact ⟨.failed (.store Store.offline), fun clock ↦ by simp only [sweep, sweepAmid, hv, hc, Logged.value_pure]⟩

theorem sweep_idle (m : Member) (config : SweepConfig) :
    (∃ result, ∀ s clock, s.Readable → (m.sweep config clock s).value = (result, s)) ∨
      ∃ head, config.validate = .ok () ∧ config.fits = true ∧ m.head.revision? m.clusterId = some head := by
  cases hv : config.validate with
  | error e => exact .inl ⟨.error (.failed e), fun s clock _ ↦ by simp only [sweep, sweepAmid, hv, Logged.value_pure]⟩
  | ok _ =>
    cases hh : m.head.revision? m.clusterId with
    | none =>
      refine .inl ⟨.ok ⟨none, .zero, .zero⟩, fun s clock hs ↦ ?_⟩
      obtain ⟨ha, checkpoint, hc⟩ := hs
      exact sweep_of_no_head hv ha hh hc clock
    | some head =>
      cases hfits : config.fits with
      | false =>
        refine .inl ⟨.error .oversized, fun s clock hs ↦ ?_⟩
        obtain ⟨ha, checkpoint, hc⟩ := hs
        exact sweep_of_oversized hv hfits ha hh hc clock
      | true => exact .inr ⟨head, rfl, rfl, rfl⟩

theorem readable_after (hs : s.WellFormed) (hr : s.Readable) (m : Member) (config : SweepConfig)
    (clock : Nat → Nat) : (m.sweep config clock s).value.2.Readable := by
  rcases sweep_cases hs m config clock with ⟨_, h⟩ | ⟨-, h⟩ | ⟨head, checkpoint, outcome, t, h, ht⟩
  · rwa [h]
  · rwa [h]
  · obtain ⟨next, hnext, -⟩ := ht.checkpoints_after
    rw [h]
    exact ⟨ht.available_after, next, hnext⟩

theorem sweep_comm_of_idle (hs : s.WellFormed) (hr : s.Readable) {result : Except SweepHalt MemberOutcome}
    (idle : ∀ s clock, s.Readable → (m.sweep config clock s).value = (result, s))
    (m' : Member) (config' : SweepConfig) (clock₁ clock₂ clock₃ clock₄ : Nat → Nat) :
    let first := (m.sweep config clock₁ s).value
    let second := (m'.sweep config' clock₂ first.2).value
    let first' := (m'.sweep config' clock₃ s).value
    let second' := (m.sweep config clock₄ first'.2).value
    second.2 = second'.2 ∧ first.1 = second'.1 ∧ second.1 = first'.1 := by
  have hagain := idle _ clock₄ (readable_after hs hr m' config' clock₃)
  simp only [idle s clock₁ hr, hagain, sweep_clock hs m' config' clock₂ clock₃, and_self]

/-- The sweeps of two members have the same outcomes in both orders, and leave the same store. -/
theorem sweep_comm (hs : s.WellFormed) (hown : s.HasOwnCheckpoints) (hne : m.clusterId ≠ m'.clusterId)
    (config config' : SweepConfig) (clock₁ clock₂ clock₃ clock₄ : Nat → Nat) :
    let first := (m.sweep config clock₁ s).value
    let second := (m'.sweep config' clock₂ first.2).value
    let first' := (m'.sweep config' clock₃ s).value
    let second' := (m.sweep config clock₄ first'.2).value
    second.2 = second'.2 ∧ first.1 = second'.1 ∧ second.1 = first'.1 := by
  cases ha : s.available with
  | false =>
    obtain ⟨e, h⟩ := sweep_of_unavailable ha m config
    obtain ⟨e', h'⟩ := sweep_of_unavailable ha m' config'
    simp only [h, h', and_self]
  | true =>
    have hr := hown.readable ha
    obtain ⟨-, checkpoint, hc⟩ := id hr
    rcases sweep_idle m config with ⟨result, idle⟩ | ⟨head, hv, hfits, hh⟩
    · exact sweep_comm_of_idle hs hr idle m' config' clock₁ clock₂ clock₃ clock₄
    · rcases sweep_idle m' config' with ⟨result, idle'⟩ | ⟨head', hv', hfits', hh'⟩
      · obtain ⟨hstore, hfirst, hsecond⟩ :=
          sweep_comm_of_idle hs hr idle' m config clock₃ clock₄ clock₁ clock₂
        exact ⟨hstore.symm, hsecond.symm, hfirst.symm⟩
      · obtain ⟨o₁, t, hrun₁, h₁⟩ := sweep_value hs hv hfits ha hh hc clock₁
        obtain ⟨o₃, u, hrun₃, h₃⟩ := sweep_value hs hv' hfits' ha hh' hc clock₃
        obtain ⟨next, hnext, -⟩ := h₁.checkpoints_after
        obtain ⟨next', hnext', -⟩ := h₃.checkpoints_after
        obtain ⟨o₂, w, hrun₂, h₂⟩ :=
          sweep_value (h₁.wellFormed hs) hv' hfits' h₁.available_after hh' hnext clock₂
        obtain ⟨o₄, w', hrun₄, h₄⟩ :=
          sweep_value (h₃.wellFormed hs) hv hfits h₃.available_after hh hnext' clock₄
        obtain ⟨rfl, rfl, rfl⟩ := h₁.comm h₃ hs hown hne h₂ h₄
        simp only [hrun₁, hrun₂, hrun₃, hrun₄, and_self]

def twoCreations : Store := .ofDocuments [
  { Document.blank .root with maps := .ofList [
      (Property.sweepRevision, .ofList [(.onTrunk 0 0 2, "r10-0-2")])] },
  { Document.blank ⟨["home"], by decide⟩ with maps := .ofList [
      (Property.deleted, .ofList [(.onTrunk 100 0 1, Property.notDeleted), (.onTrunk 100 0 2, Property.notDeleted)]),
      (Property.commitRoot, .ofList [(.onTrunk 100 0 1, "0"), (.onTrunk 100 0 2, "0")])] }]

def secondMember : Member := ⟨2, RevisionVector.empty.update (.onTrunk 300 0 2)⟩

theorem sweep_comm_twoCreations :
    twoCreations.WellFormed ∧ twoCreations.HasOwnCheckpoints ∧ firstMember.clusterId ≠ secondMember.clusterId ∧
      (let first := (firstMember.sweep .standard (fun _ ↦ 0) twoCreations).value
      let second := (secondMember.sweep .recovery (fun _ ↦ 0) first.2).value
      let first' := (secondMember.sweep .recovery (fun _ ↦ 0) twoCreations).value
      let second' := (firstMember.sweep .standard (fun _ ↦ 0) first'.2).value
      second.2 = second'.2 ∧ first.1 = second'.1 ∧ second.1 = first'.1) ∧
      (firstMember.sweep .standard (fun _ ↦ 0) twoCreations).value.1 =
        .ok ⟨some (.onTrunk 200 0 1), ⟨1, 1, 2, 0, 1⟩, ⟨1, 0⟩⟩ ∧
      (secondMember.sweep .recovery (fun _ ↦ 0) twoCreations).value.1 =
        .ok ⟨some (.onTrunk 300 0 2), ⟨1, 1, 2, 0, 1⟩, ⟨1, 0⟩⟩ := by
  have hs : twoCreations.WellFormed := by decide +kernel
  have hown : twoCreations.HasOwnCheckpoints := by decide +kernel
  have hne : firstMember.clusterId ≠ secondMember.clusterId := by decide
  refine ⟨hs, hown, hne, sweep_comm hs hown hne _ _ _ _ _ _, ?_, ?_⟩
  · decide +kernel
  · decide +kernel

end Member

end NodeStore
