import NodeStore.Proofs.CommitRecords
import NodeStore.Sweep.Member

namespace NodeStore

namespace Client

variable {α β : Type}

theorem run_bind (c : Client α) (f : α → Client β) (s : Store) :
    ((c.bind f).run s).value = ((f (c.run s).value.1).run (c.run s).value.2).value := by
  induction c generalizing s with
  | done a => rfl
  | find id next ih => exact ih _ s
  | updateIf u next ih => exact ih _ _
  | note line next ih => exact ih s

end Client

namespace Store

variable {s t : Store}

theorem find_of_available (h : s.available = true) (id : String) : s.find id = .ok (s.documents.get? id) := by
  rw [find, if_pos h]

theorem updateIf_of_meets (h : s.available = true) {u : Update} {d : Document}
    (hd : s.documents.get? u.id = some d) (hm : d.meets u = true) :
    s.updateIf u = (.ok (some d), s.put u.id (d.apply u)) := by
  rw [updateIf, if_pos h, hd]
  exact if_pos hm

/-- Whether one of the commit roots that a correction names has a committed record. -/
def refuses (s : Store) (path : Path) (u : Update) : Bool :=
  (Receiver.namedRoots path u).any fun e ↦ (s.recordAt? e.2 e.1).isSome

end Store

namespace Receiver

variable {s : Store}

theorem mem_namedRoots {path root : Path} {u : Update} {r : Revision} : (r, root) ∈ namedRoots path u ↔
    ∃ depth, u.conditions.get? (.entry Property.commitRoot r) = some (.equals depth) ∧
      path.ancestorAtText? depth = some root := by
  simp only [namedRoots, List.mem_filterMap, Prod.exists, SortedMap.mem_entries_iff]
  constructor
  · intro hx
    obtain ⟨⟨name, revision⟩, c, hc, h⟩ := hx
    unfold namedRoot? at h
    split at h
    next r' depth hr' =>
      split at h
      next hname =>
        obtain ⟨root', hroot, heq⟩ := Option.map_eq_some_iff.1 h
        obtain ⟨rfl, rfl⟩ := Prod.mk.inj heq
        obtain rfl : name = Property.commitRoot := hname
        obtain rfl : revision = some r' := hr'
        exact ⟨depth, hc, hroot⟩
      next => cases h
    next => cases h
  · intro hx
    obtain ⟨depth, hc, hroot⟩ := hx
    exact ⟨_, _, hc, by simp [namedRoot?, Key.entry, hroot]⟩

theorem committedSince_run (h : s.available = true) (path : Path) (roots : List (Revision × Path)) :
    ((committedSince path roots).run s).value = (.ok (roots.any fun e ↦ (s.recordAt? e.2 e.1).isSome), s) := by
  induction roots with
  | nil => rfl
  | cons e roots ih =>
    obtain ⟨r, root⟩ := e
    have hstep : (committedSince path ((r, root) :: roots)).run s =
        (if (s.recordAt? root r).isSome then
          Client.note (.debug
            (path.text ++ " @ " ++ r.text ++ " committed on " ++ root.text ++ " since it was swept"))
            (.done (.ok true))
        else committedSince path roots).run s := by
      rw [committedSince, Client.run, Store.find_of_available h]
      rfl
    rw [hstep, List.any_cons]
    cases (s.recordAt? root r).isSome with
    | true => rfl
    | false => simpa using ih

theorem receiveOne_run (h : s.available = true) {u : Update} {d : Document}
    (hd : s.documents.get? u.id = some d) (hm : d.meets u = true) (path : Path) (tally : Tally) :
    ((receiveOne path u tally).run s).value =
      if s.refuses path u then (.ok { tally with rejected := tally.rejected + 1 }, s)
      else (.ok { tally with applied := tally.applied + 1 }, s.put u.id (d.apply u)) := by
  rw [receiveOne, Client.run_bind, committedSince_run h, ← Store.refuses]
  cases s.refuses path u with
  | true => rfl
  | false => simp [Client.run, Store.updateIf_of_meets h hd hm]

end Receiver

namespace Sweep

variable {sw : Sweep} {head : Revision} {s t : Store} {d : Document}

def correctionIn (sw : Sweep) (head : Revision) (s : Store) (d : Document) : Correction :=
  sw.correctionOf head d (s.commitOf d)

theorem mem_namedRoots_correctionOf {commit : Revision → Option String} {path root : Path} {r : Revision} :
    (r, root) ∈ Receiver.namedRoots path (sw.correctionOf head d commit).update ↔
      (∃ name, sw.Visits d name r) ∧ sw.IsLeftover head d commit r ∧
        (d.valueAt? Property.commitRoot r).bind path.ancestorAtText? = some root := by
  rw [Receiver.mem_namedRoots]
  simp only [conditions_correctionOf, Option.bind_eq_some_iff]
  constructor
  · intro hx
    obtain ⟨depth, hc, hroot⟩ := hx
    generalize hk : Key.entry Property.commitRoot r = k at hc
    generalize hv : Condition.equals depth = c at hc
    cases hc with
    | entry => cases hv
    | @marker name r' hvisit hleft =>
      obtain rfl : r = r' := Option.some.inj ((congrArg Key.revision hk).trans (d.markerKey_revision r'))
      rw [← hk, Document.unchanged, Key.entry, Option.bind_some] at hv
      cases hvalue : d.valueAt? Property.commitRoot r with
      | none => simp [hvalue] at hv
      | some depth' =>
        obtain rfl : depth = depth' := by simpa [hvalue] using hv
        exact ⟨⟨name, hvisit⟩, hleft, depth, rfl, hroot⟩
    | mark => cases hv
  · intro hx
    obtain ⟨⟨name, hvisit⟩, hleft, depth, hdepth, hroot⟩ := hx
    refine ⟨depth, ?_, hroot⟩
    have hkey : d.markerKey r = .entry Property.commitRoot r := by rw [Document.markerKey, hdepth]; rfl
    have hcondition := TableCondition.marker hvisit hleft
    rw [hkey] at hcondition
    simpa [Document.unchanged, Key.entry, hdepth] using hcondition

def accepts (sw : Sweep) (head : Revision) (s : Store) (d : Document) : Bool :=
  (sw.correctionIn head s d).update.hasChanges && !s.refuses d.path (sw.correctionIn head s d).update

def isRefused (sw : Sweep) (head : Revision) (s : Store) (d : Document) : Bool :=
  (sw.correctionIn head s d).update.hasChanges && s.refuses d.path (sw.correctionIn head s d).update

theorem accepts_of_idle (h : (sw.correctionIn head s d).update.hasChanges = false) :
    sw.accepts head s d = false := by rw [accepts, h, Bool.false_and]

theorem isRefused_of_idle (h : (sw.correctionIn head s d).update.hasChanges = false) :
    sw.isRefused head s d = false := by rw [isRefused, h, Bool.false_and]

def settled (sw : Sweep) (head : Revision) (s : Store) (d : Document) : Document :=
  if sw.accepts head s d then sw.corrected head d (s.commitOf d) else d

def batchOf (sw : Sweep) (head : Revision) (s : Store) (ds : List Document) : Batch :=
  ds.filterMap fun d ↦ (sw.correctionIn head s d).update?.map (d.path, ·)

/-- The store `t` is `s` after the corrections of the documents `ds` were delivered. -/
structure Settles (sw : Sweep) (head : Revision) (s : Store) (ds : List Document) (t : Store) : Prop where
  available : t.available = s.available
  documents : ∀ id, t.documents.get? id =
    (s.documents.get? id).map fun d ↦ if d ∈ ds then sw.settled head s d else d

theorem settled_induction {P : Document → Prop} (kept : P d) (corrected : P (sw.corrected head d (s.commitOf d))) :
    P (sw.settled head s d) := by
  unfold settled
  split
  · exact corrected
  · exact kept

theorem valueAt?_settled (accepted : sw.isRefused head s d = false) (name : String) (r : Revision) :
    (sw.settled head s d).valueAt? name r = (sw.corrected head d (s.commitOf d)).valueAt? name r := by
  cases hc : (sw.correctionIn head s d).update.hasChanges with
  | true =>
    have haccepts : sw.accepts head s d = true := by
      rw [isRefused, hc, Bool.true_and] at accepted
      rw [accepts, hc, accepted]
      rfl
    rw [settled, if_pos haccepts]
  | false =>
    have hnone := (sw.update?_correctionOf_eq_none_iff head d _).1 (Correction.update?_eq_none_iff.2 hc)
    rw [settled, accepts_of_idle hc, if_neg Bool.false_ne_true]
    exact (valueAt?_apply_of_no_change d fun c hchange ↦ hnone _ c hchange).symm

theorem committedValue?_settled (r : Revision) :
    (sw.settled head s d).committedValue? r = d.committedValue? r :=
  settled_induction (P := fun e ↦ e.committedValue? r = d.committedValue? r) rfl
    (sw.committedValue?_corrected head (s.commitOf_own d) r)

theorem Settles.start (sw : Sweep) (head : Revision) (s : Store) : sw.Settles head s [] s where
  available := rfl
  documents id := by simp

theorem Settles.recordAt? {ds : List Document} (h : sw.Settles head s ds t) (p : Path) (r : Revision) :
    t.recordAt? p r = s.recordAt? p r := by
  rw [Store.recordAt?, h.documents, Store.recordAt?]
  cases s.documents.get? p.id with
  | none => rfl
  | some d =>
    simp only [Option.map_some, Option.bind_some]
    split
    · exact committedValue?_settled r
    · rfl

theorem Settles.commitOf {ds : List Document} (h : sw.Settles head s ds t) : t.commitOf = s.commitOf :=
  Store.commitOf_congr h.recordAt?

theorem Settles.refuses {ds : List Document} (h : sw.Settles head s ds t) (path : Path) (u : Update) :
    t.refuses path u = s.refuses path u := by
  simp only [Store.refuses, h.recordAt?]

theorem Settles.skip {ds es : List Document} (h : sw.Settles head s ds t)
    (hes : ∀ d ∈ es, sw.accepts head s d = false) : sw.Settles head s (ds ++ es) t where
  available := h.available
  documents id := by
    rw [h.documents]
    congr 1
    funext d
    by_cases hd : d ∈ ds
    · simp [hd]
    · by_cases he : d ∈ es
      · simp [hd, settled, hes d he]
      · simp [hd, he]

theorem Settles.idle {ds : List Document} (h : sw.Settles head s ds t)
    (hds : ∀ d ∈ ds, sw.accepts head s d = false) : t = s := by
  refine Store.ext_get? h.available fun id ↦ ?_
  rw [h.documents]
  cases s.documents.get? id with
  | none => rfl
  | some d =>
    rw [Option.map_some]
    split
    next hd => rw [settled, hds d hd, if_neg Bool.false_ne_true]
    next => rfl

theorem Settles.put (hs : s.WellFormed) {ds : List Document} (h : sw.Settles head s ds t)
    (hd : s.documents.get? d.id = some d) :
    sw.Settles head s (ds ++ [d]) (t.put d.id (sw.settled head s d)) where
  available := h.available
  documents id := by
    simp only [Store.put, SortedMap.get?_insert]
    by_cases hid : id = d.id
    · subst hid
      simp [hd]
    · rw [if_neg hid, h.documents]
      cases he : s.documents.get? id with
      | none => rfl
      | some e =>
        have hne : e ≠ d := fun heq ↦ hid (heq ▸ (hs id e he).1).symm
        simp [hne]

theorem batchOf_append (sw : Sweep) (head : Revision) (s : Store) (ds es : List Document) :
    sw.batchOf head s (ds ++ es) = sw.batchOf head s ds ++ sw.batchOf head s es := List.filterMap_append ..

theorem batchOf_singleton (sw : Sweep) (head : Revision) (s : Store) (d : Document) :
    sw.batchOf head s [d] = if (sw.correctionIn head s d).update.hasChanges
      then [(d.path, (sw.correctionIn head s d).update)] else [] := by
  cases h : (sw.correctionIn head s d).update.hasChanges <;> simp [batchOf, Correction.update?, h]

theorem batchOf_eq_nil {ds : List Document}
    (idle : ∀ d ∈ ds, (sw.correctionIn head s d).update.hasChanges = false) : sw.batchOf head s ds = [] :=
  List.filterMap_eq_nil_iff.2 fun d hd ↦ by simp [Correction.update?, idle d hd]

/-- A delivery settles its documents. It counts the corrections that are applied and those that are not. -/
theorem Settles.deliver (hs : s.WellFormed) (ha : s.available = true) {delivered : List Document}
    (h : sw.Settles head s delivered t) (ds : List Document)
    (stored : ∀ d ∈ ds, s.documents.get? d.id = some d) (once : (delivered ++ ds).Nodup) (tally : Tally) :
    ∃ t', ((Receiver.receive (sw.batchOf head s ds) tally).run t).value =
      ((none, ⟨tally.applied + ds.countP (sw.accepts head s),
        tally.rejected + ds.countP (sw.isRefused head s)⟩), t') ∧
      sw.Settles head s (delivered ++ ds) t' := by
  induction ds generalizing delivered t tally with
  | nil => exact ⟨t, rfl, by simpa using h⟩
  | cons d ds ih =>
    have hd := stored d List.mem_cons_self
    have hds := fun e he ↦ stored e (List.mem_cons_of_mem _ he)
    have once' : (delivered ++ [d] ++ ds).Nodup := by simpa using once
    have hnew : d ∉ delivered := fun hmem ↦
      (List.nodup_append.1 once).2.2 d hmem d List.mem_cons_self rfl
    rw [← List.singleton_append, batchOf_append, batchOf_singleton, ← List.append_assoc]
    cases hc : (sw.correctionIn head s d).update.hasChanges with
    | false =>
      have hacc := accepts_of_idle hc
      have href := isRefused_of_idle hc
      obtain ⟨t', hrun, ht'⟩ := ih (h.skip (by simp [hacc])) hds once' tally
      exact ⟨t', by simpa [hacc, href] using hrun, ht'⟩
    | true =>
      have hid : (sw.correctionIn head s d).update.id = d.id := sw.id_correctionOf head d _
      have ht : t.documents.get? (sw.correctionIn head s d).update.id = some d := by
        simp [hid, h.documents, hd, hnew]
      have hone := Receiver.receiveOne_run (h.available.trans ha) ht meets_correctionOf d.path tally
      rw [h.refuses] at hone
      rw [if_pos rfl, List.singleton_append, Receiver.receive, Client.run_bind, hone]
      cases hr : s.refuses d.path (sw.correctionIn head s d).update with
      | true =>
        have hacc : sw.accepts head s d = false := by simp [accepts, hr]
        have href : sw.isRefused head s d = true := by simp [isRefused, hc, hr]
        obtain ⟨t', hrun, ht'⟩ := ih (h.skip (by simp [hacc])) hds once'
          { tally with rejected := tally.rejected + 1 }
        refine ⟨t', ?_, ht'⟩
        simpa [hacc, href, Nat.add_assoc, Nat.add_comm 1] using hrun
      | false =>
        have hacc : sw.accepts head s d = true := by simp [accepts, hc, hr]
        have href : sw.isRefused head s d = false := by simp [isRefused, hr]
        have hput := h.put hs hd
        rw [settled, if_pos hacc, corrected] at hput
        obtain ⟨t', hrun, ht'⟩ := ih hput hds once' { tally with applied := tally.applied + 1 }
        refine ⟨t', ?_, ht'⟩
        rw [hid]
        simpa [hacc, href, Nat.add_assoc, Nat.add_comm 1, correctionIn] using hrun

end Sweep

end NodeStore
