import NodeStore.Proofs.RacingDelivery

namespace NodeStore

/-- A store where other clients commit while corrections are received: `others tally k` before the call number
`k` of the delivery that begins with this tally. -/
def Surroundings.amid (others : Tally → Nat → Store → List Commit) : Surroundings Receiving where
  lookup := Surroundings.ofStore.lookup
  deliver world batch :=
    let reply := (Receiver.receive batch world.tally).runAmong
      (fun k s ↦ s.commitAll (others world.tally k s)) 0 world.store
    pure (reply.1.1.elim (.ok ()) .error, ⟨reply.2, reply.1.2⟩)

namespace Sweep

variable {sw : Sweep} {head : Revision} {s : Store} {seen : List Document} {run : SweepRun Receiving}

/-- The run has examined the documents `seen`. The corrections that wait were all found in the present store. -/
structure InRace (sw : Sweep) (head : Revision) (s : Store) (seen : List Document)
    (run : SweepRun Receiving) : Prop where
  failure : run.failure = none
  delivered : ∃ delivered waiting, seen = delivered ++ waiting ∧
    sw.Racing head s delivered run.world.store ∧ run.pending = sw.batchOf head run.world.store waiting

theorem InRace.deliver (hs : s.WellFormed) (hf : sw.filter Property.sweepRevision = false)
    (once : s.MarksOnce sw.clusterId) (stored : ∀ d ∈ seen, s.documents.get? d.id = some d)
    (distinct : seen.Nodup) (others : Tally → Nat → Store → List Commit) (h : sw.InRace head s seen run) :
    (run.deliver (.amid others)).value.failure = none ∧
      sw.Racing head s seen (run.deliver (.amid others)).value.world.store ∧
      (run.deliver (.amid others)).value.pending = [] := by
  obtain ⟨delivered, waiting, rfl, hrace, hpending⟩ := h.delivered
  obtain ⟨tally, t, hrun, ht⟩ := hrace.receive hs hf once hrace.keeps
    (fun k s ↦ s.gainsCommits_commitAll (others run.world.tally k s)) waiting
    (fun d hd ↦ stored d (List.mem_append_right _ hd)) distinct (fun _ _ hr ↦ hr) run.world.tally 0
  have hdeliver : ((Surroundings.amid others).deliver run.world run.pending).value = (.ok (), ⟨t, tally⟩) := by
    rw [hpending]
    simp only [Surroundings.amid, hrun, Logged.value_pure]
    rfl
  rw [run.deliver_value (.amid others) hdeliver]
  exact ⟨h.failure, ht, rfl⟩

theorem InRace.scan (hs : s.WellFormed) (hf : sw.filter Property.sweepRevision = false)
    (once : s.MarksOnce sw.clusterId) {d : Document}
    (stored : ∀ e ∈ seen ++ [d], s.documents.get? e.id = some e) (distinct : (seen ++ [d]).Nodup)
    (others : Tally → Nat → Store → List Commit) (clock : Nat → Nat) (h : sw.InRace head s seen run) :
    sw.InRace head s (seen ++ [d]) (run.scan sw (.amid others) head clock d.view).value := by
  obtain ⟨delivered, waiting, hseen, hrace, hpending⟩ := h.delivered
  have hcorrect : (sw.correct ((Surroundings.amid others).lookup run.world) head d.view).value =
      (sw.correctionIn head run.world.store d, none) :=
    sw.correct_value head d _ fun r ↦ Store.commitValue_eq_ok hrace.available d r
  have hexamined (now : Nat) : sw.InRace head s (seen ++ [d])
      (run.examined d (sw.correctionIn head run.world.store d) now) := by
    refine ⟨rfl, delivered, waiting ++ [d], by rw [hseen, List.append_assoc], hrace, ?_⟩
    rw [SweepRun.examined, batchOf_append, hpending, batchOf_singleton]
    rfl
  obtain ⟨now, value | value⟩ := run.scan_value sw head clock hcorrect
  · rw [value]
    exact hexamined now
  · obtain ⟨hfailure, hall, hempty⟩ := (hexamined now).deliver hs hf once stored distinct others
    rw [value]
    exact ⟨hfailure, seen ++ [d], [], by simp, hall, hempty⟩

theorem InRace.finish (hs : s.WellFormed) (hf : sw.filter Property.sweepRevision = false)
    (once : s.MarksOnce sw.clusterId) (stored : ∀ d ∈ seen, s.documents.get? d.id = some d)
    (distinct : seen.Nodup) (others : Tally → Nat → Store → List Commit) (h : sw.InRace head s seen run) :
    (run.finish (.amid others)).value.failure = none ∧
      sw.Racing head s seen (run.finish (.amid others)).value.world.store := by
  rcases run.finish_cases (.amid others) h.failure with ⟨hp, value⟩ | value
  · obtain ⟨delivered, waiting, rfl, hrace, hpending⟩ := h.delivered
    -- nothing waits, so a delivery would do nothing
    obtain ⟨tally, t, hrun, ht⟩ := hrace.receive hs hf once hrace.keeps (fun _ s ↦ .refl s) waiting
      (fun d hd ↦ stored d (List.mem_append_right _ hd)) distinct (fun _ _ hr ↦ hr) run.world.tally 0
    rw [← hpending, hp] at hrun
    obtain ⟨-, rfl⟩ := Prod.mk.inj hrun
    rw [value]
    exact ⟨h.failure, ht⟩
  · rw [value]
    obtain ⟨hfailure, hall, -⟩ := h.deliver hs hf once stored distinct others
    exact ⟨hfailure, hall⟩

theorem run_racing (sw : Sweep) (hs : s.WellFormed) (ha : s.available = true)
    (hf : sw.filter Property.sweepRevision = false) (once : s.MarksOnce sw.clusterId)
    (hh : sw.head.revision? sw.clusterId = some head) (hfits : sw.config.fits = true)
    (ds : List Document) (stored : ∀ d ∈ ds, s.documents.get? d.id = some d) (distinct : ds.Nodup)
    (others : Tally → Nat → Store → List Commit) (clock : Nat → Nat) : ∃ result : SweepResult Receiving,
      (sw.run (.amid others) clock (ds.map Document.view) ⟨s, .zero⟩).value = result ∧
        result.result = .ok (some head) ∧ sw.Racing head s ds result.world.store := by
  have hstart : sw.InRace head s [] (.start sw ⟨s, .zero⟩ (clock 0)) :=
    ⟨rfl, [], [], rfl, .start sw head ha, rfl⟩
  have hscan := SweepRun.scanAll_induction (I := sw.InRace head s) sw (.amid others) head clock
    (fun _ _ ↦ InRace.failure) (fun seen d run hpart h ↦ h.scan hs hf once
      (fun e he ↦ stored e (hpart.subset he)) (distinct.sublist hpart.sublist) others clock) ds rfl hstart
  obtain ⟨hfailure, hrace⟩ := hscan.finish hs hf once stored distinct others
  refine ⟨_, rfl, ?_⟩
  unfold Sweep.run
  simp only [hh, hfits, if_true, Logged.value_bind, hfailure, Logged.value_pure, true_and]
  exact hrace

end Sweep

namespace Member

/-- An own change on the document that is neither committed nor marked and not newer than the head. -/
def HoldsLeftover (m : Member) (head : Revision) (t : Store) (e : Document) : Prop :=
  ∃ name r, PropertyFilter.relevant name = true ∧ (e.valueAt? name r).isSome ∧ r.clusterId = m.clusterId ∧
    t.commitValue e r = .ok none ∧ Sweep.isMarked e r = false ∧ r.isAfter head = false

/-- An own change that was not committed on the document `d` of the store `s`, and is on the document `e` of the
store `t`. -/
def CommittedSince (m : Member) (s : Store) (d : Document) (t : Store) (e : Document) : Prop :=
  ∃ name r v, PropertyFilter.relevant name = true ∧ (d.valueAt? name r).isSome ∧ (e.valueAt? name r).isSome ∧
    r.clusterId = m.clusterId ∧ Sweep.isMarked d r = false ∧ s.commitValue d r = .ok none ∧
    t.commitValue e r = .ok (some v)

variable {m : Member} {config : SweepConfig} {s t : Store} {head : Revision} {checkpoint : RevisionVector}
  {outcome : MemberOutcome} {others : Tally → Nat → Store → List Commit} {d e : Document}

theorem HoldsLeftover.isLeftover (ha : t.available = true) (h : m.HoldsLeftover head t e) (config : SweepConfig) :
    ∃ name r, (m.toSweep config).Visits e name r ∧ (m.toSweep config).IsLeftover head e (t.commitOf e) r := by
  obtain ⟨name, r, hname, hv, hown, hc, hmarked, hnew⟩ := h
  rw [Store.commitValue_eq_ok ha] at hc
  exact ⟨name, r, ⟨hname, hv, hown⟩, hown, Except.ok.inj hc, hmarked, .inl hnew⟩

theorem committedSince_of_raced (hs : s.available = true) (ht : t.available = true)
    (h : (m.toSweep config).Raced head s d t e) : m.CommittedSince s d t e := by
  obtain ⟨name, r, hvisit, hleft, hv, hc⟩ := h
  obtain ⟨v, hc⟩ := Option.isSome_iff_exists.1 hc
  refine ⟨name, r, v, hvisit.1, hvisit.2.1, hv, hvisit.2.2, hleft.2.2.1, ?_, ?_⟩
  · rw [Store.commitValue_eq_ok hs, hleft.2.1]
  · rw [Store.commitValue_eq_ok ht, hc]

/-- A document that was swept from `s` to `t` while other clients committed, and the checkpoints before and
after. -/
structure SweptAmid (m : Member) (head : Revision) (s : Store) (d : Document) (checkpoint : RevisionVector)
    (t : Store) (e : Document) (next : RevisionVector) : Prop where
  leftover : m.HoldsLeftover head t e → m.CommittedSince s d t e
  again : ∀ name r, name ≠ Property.sweepRevision → (e.valueAt? name r).isSome → r.clusterId = m.clusterId →
    checkpoint.isBehind r = true → r.isAfter head = true → m.isCandidate next e = true

theorem sweepAmid_racing (hs : s.WellFormed) (once : s.MarksOnce m.clusterId) {clock : Nat → Nat}
    (hrun : (m.sweepAmid (.amid others) config clock s).value = (.ok outcome, t))
    (hhead : outcome.sweepRevision = some head) : ∃ checkpoint mid, s.checkpoints = .ok checkpoint ∧
      s.available = true ∧ m.head.revision? m.clusterId = some head ∧
      (m.toSweep config).Racing head s (m.candidates s checkpoint) mid ∧ t = mid.withCheckpoint head := by
  unfold sweepAmid at hrun
  cases hv : config.validate with
  | error e => simp [hv] at hrun
  | ok _ =>
    cases hc : s.checkpoints with
    | error e => simp [hv, hc] at hrun
    | ok checkpoint =>
      cases ha : s.available with
      | false => simp [hv, hc, Store.changedBy, ha] at hrun
      | true =>
        simp only [hv, hc, Store.changedBy, if_pos ha, sweepSince, Logged.value_bind] at hrun
        cases hh : m.head.revision? m.clusterId with
        | none =>
          simp only [(m.toSweep config).run_value_of_no_head hh, Logged.value_pure] at hrun
          obtain ⟨houtcome, -⟩ := Prod.mk.inj hrun
          obtain rfl := Except.ok.inj houtcome
          cases hhead
        | some head' =>
          cases hfits : config.fits with
          | false =>
            simp only [(m.toSweep config).run_of_oversized hh hfits, Logged.value_pure] at hrun
            cases (Prod.mk.inj hrun).1
          | true =>
            obtain ⟨result, hresult, hok, hrace⟩ := (m.toSweep config).run_racing hs ha rfl once hh hfits
              (m.candidates s checkpoint) (fun d hd ↦ ((mem_candidates hs).1 hd).1)
              (candidates_nodup hs checkpoint) others clock
            rw [candidates] at hresult
            simp only [hresult, hok, Store.persistCheckpoint_of_available hrace.available, Logged.value_bind,
              Logged.value_pure] at hrun
            obtain ⟨houtcome, rfl⟩ := Prod.mk.inj hrun
            obtain rfl := Except.ok.inj houtcome
            obtain rfl := Option.some.inj hhead
            exact ⟨checkpoint, _, rfl, rfl, rfl, hrace, rfl⟩

/-- After a sweep among commits a document keeps leftovers only if one that it had was committed meanwhile. The
next sweep takes it up again if it has a revision after the new checkpoint. -/
theorem sweepAmid_sweptAmid (hs : s.WellFormed) (once : s.MarksOnce m.clusterId) {clock : Nat → Nat}
    (hrun : (m.sweepAmid (.amid others) config clock s).value = (.ok outcome, t))
    (hhead : outcome.sweepRevision = some head) : ∃ checkpoint next, s.checkpoints = .ok checkpoint ∧
      t.checkpoints = .ok next ∧ ∀ id d, s.documents.get? id = some d → m.isCandidate checkpoint d = true →
        ∃ e, t.documents.get? id = some e ∧ m.SweptAmid head s d checkpoint t e next := by
  obtain ⟨checkpoint, mid, hc, ha, -, hrace, rfl⟩ := sweepAmid_racing hs once hrun hhead
  have hadvances : s.Advances head (mid.withCheckpoint head) :=
    ⟨ha, hrace.available, fun k ↦ by rw [Store.valueAt?_withCheckpoint, hrace.checkpoints]⟩
  obtain ⟨next, hnext, hbehind, -⟩ := hadvances.exists_checkpoints hc
  refine ⟨checkpoint, next, hc, hnext, fun id d hd hcandidate ↦ ?_⟩
  obtain ⟨e', he', -, hclears⟩ := hrace.documents id d hd
  obtain ⟨e, he, hgains⟩ := (mid.gains_withCheckpoint head).documents id e' he'
  have hclears' := (hclears ((mem_candidates hs).2 ⟨hs.stored hd, hcandidate⟩)).gains rfl
    (mid.gains_withCheckpoint head).keepsCommits hgains
  refine ⟨e, he, fun hleft ↦ ?_, fun name r hname hv hown hold hnew ↦ ?_⟩
  · obtain ⟨name, r, hvisit, hleft⟩ := hleft.isLeftover hadvances.after config
    exact committedSince_of_raced ha hadvances.after (hclears' name r hvisit hleft)
  · exact isCandidate_iff.2 ⟨name, r, hname, hv, hown, hbehind r hnew hold⟩

def pendingPair : Document :=
  { Document.blank Receiver.pendingWrite.path with maps := .ofList [
      ("p", .ofList [(.onTrunk 100 0 1, "one"), (.onTrunk 101 0 1, "two")]),
      (Property.commitRoot, .ofList [(.onTrunk 100 0 1, "0"), (.onTrunk 101 0 1, "0")])] }

def pairStore : Store := .ofDocuments [.blank .root, pendingPair]

def commitsFirst (_ : Tally) (k : Nat) (_ : Store) : List Commit :=
  if k = 0 then [⟨.root, .onTrunk 100 0 1, .trunk⟩] else []

def pairOutcome : MemberOutcome := ⟨some (.onTrunk 200 0 1), ⟨1, 1, 4, 0, 1⟩, ⟨0, 1⟩⟩

def pairSwept : Store := (firstMember.sweepAmid (.amid commitsFirst) .standard (fun _ ↦ 0) pairStore).value.2

theorem sweepAmid_pairStore :
    (firstMember.sweepAmid (.amid commitsFirst) .standard (fun _ ↦ 0) pairStore).value = (.ok pairOutcome, pairSwept) :=
  Prod.ext (by decide +kernel) rfl

theorem sweepAmid_sweptAmid_pairStore :
    pairStore.WellFormed ∧ pairStore.MarksOnce 1 ∧
      (firstMember.sweepAmid (.amid commitsFirst) .standard (fun _ ↦ 0) pairStore).value =
        (.ok pairOutcome, pairSwept) ∧
      pairOutcome.sweepRevision = some (.onTrunk 200 0 1) ∧
      ∃ checkpoint next, pairStore.checkpoints = .ok checkpoint ∧ pairSwept.checkpoints = .ok next ∧
        ∀ id d, pairStore.documents.get? id = some d → firstMember.isCandidate checkpoint d = true →
          ∃ e, pairSwept.documents.get? id = some e ∧
            firstMember.SweptAmid (.onTrunk 200 0 1) pairStore d checkpoint pairSwept e next :=
  ⟨by decide, by decide, sweepAmid_pairStore, rfl,
    sweepAmid_sweptAmid (by decide) (by decide) sweepAmid_pairStore rfl⟩

/-- The commit of an own change on the commit root that its document names. -/
def IsOwnCommit (m : Member) (s : Store) (c : Commit) : Prop :=
  c.revision.clusterId = m.clusterId ∧ ∃ id d, s.documents.get? id = some d ∧
    (d.valueAt? Property.commitRoot c.revision).bind d.path.ancestorAtText? = some c.root

/-- The second write is not taken back by this sweep, and the document is no candidate of the next one. -/
theorem exists_lost_leftover : ¬ ∀ (m : Member) (config : SweepConfig) (clock : Nat → Nat)
    (others : Tally → Nat → Store → List Commit) (s t : Store) (outcome : MemberOutcome) (head : Revision)
    (checkpoint next : RevisionVector) (id : String) (d e : Document), s.WellFormed →
      (∀ tally k w, ∀ c ∈ others tally k w, m.IsOwnCommit s c) →
      (m.sweepAmid (.amid others) config clock s).value = (.ok outcome, t) →
      outcome.sweepRevision = some head → s.checkpoints = .ok checkpoint → t.checkpoints = .ok next →
      s.documents.get? id = some d → m.isCandidate checkpoint d = true → t.documents.get? id = some e →
      m.HoldsLeftover head t e → m.isCandidate next e = true := by
  intro claim
  have hmissed : pairSwept.checkpoints.toOption.map (firstMember.isCandidate · pendingPair) = some false := by
    decide +kernel
  have hleft : firstMember.HoldsLeftover (.onTrunk 200 0 1) pairSwept pendingPair :=
    ⟨"p", .onTrunk 101 0 1, by decide, by decide, rfl, by decide +kernel, by decide, by decide⟩
  have hown : ∀ tally k w, ∀ c ∈ commitsFirst tally k w, firstMember.IsOwnCommit pairStore c := by
    intro tally k w c hc
    unfold commitsFirst at hc
    split at hc
    · obtain rfl := List.mem_singleton.1 hc
      exact ⟨rfl, "1:/a", pendingPair, by decide, by decide⟩
    · cases hc
  cases hnext : pairSwept.checkpoints with
  | error e => simp [hnext, Except.toOption] at hmissed
  | ok next =>
    have hcandidate := claim firstMember .standard (fun _ ↦ 0) commitsFirst pairStore pairSwept pairOutcome
      (.onTrunk 200 0 1) .empty next "1:/a" pendingPair pendingPair (by decide) hown sweepAmid_pairStore rfl rfl
      hnext (by decide) (by decide) (by decide +kernel) hleft
    simp [hnext, Except.toOption, hcandidate] at hmissed

end Member

end NodeStore
