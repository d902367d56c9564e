import NodeStore.Proofs.AtomicUpdates
import NodeStore.Proofs.StoreKeys

namespace NodeStore

namespace Document

variable (d : Document)

def withCount (n : UInt64) : Document := { d with modCount := n }

/-- Makes the changes of several updates in their order, and counts the updates. -/
def applyAll (us : List Update) : Document :=
  ((us.flatMap (·.changes.entries)).foldl (fun d e ↦ d.applyChange e.1 e.2) d).withCount
    (d.modCount + .ofNat us.length)

theorem applyChange_withCount (n : UInt64) (k : Key) (c : Change) :
    (d.withCount n).applyChange k c = (d.applyChange k c).withCount n := by
  cases c with
  | setFlag v =>
    simp only [applyChange]
    split <;> rfl
  | insertEntry v =>
    rw [applyChange, applyChange]
    cases k.revision <;> rfl
  | eraseEntry =>
    rw [applyChange, applyChange]
    cases k.revision with
    | none => rfl
    | some r =>
      have hmap : (d.withCount n).map? k.name = d.map? k.name := rfl
      simp only [Option.elim, eraseEntry, hmap]
      cases d.map? k.name with
      | none => rfl
      | some m => dsimp only; split <;> rfl
  | raiseEntry x =>
    rw [applyChange, applyChange]
    cases k.revision with
    | none => rfl
    | some r =>
      have hvalue : (d.withCount n).valueAt? k.name r = d.valueAt? k.name r := rfl
      rw [Option.elim_some, Option.elim_some, raiseEntry, raiseEntry, hvalue]
      cases (d.valueAt? k.name r).bind Revision.parse? with
      | none => rfl
      | some current => dsimp only; split <;> rfl

theorem foldl_applyChange_withCount (n : UInt64) (l : List (Key × Change)) :
    l.foldl (fun d e ↦ d.applyChange e.1 e.2) (d.withCount n) =
      (l.foldl (fun d e ↦ d.applyChange e.1 e.2) d).withCount n := by
  induction l generalizing d with
  | nil => rfl
  | cons e l ih => rw [List.foldl_cons, applyChange_withCount, ih, List.foldl_cons]

theorem apply_eq_withCount (u : Update) : d.apply u =
    (u.changes.entries.foldl (fun d e ↦ d.applyChange e.1 e.2) d).withCount (d.modCount + 1) := by
  obtain ⟨_, _, h, -⟩ := d.foldl_applyChange_eq u.changes.entries
  rw [apply, h]
  rfl

theorem applyAll_nil : d.applyAll [] = d := by
  simp [applyAll, withCount]

theorem applyAll_cons (u : Update) (us : List Update) : d.applyAll (u :: us) = (d.apply u).applyAll us := by
  have hcount : d.modCount + .ofNat (us.length + 1) = d.modCount + 1 + .ofNat us.length := by
    rw [UInt64.ofNat_add, UInt64.add_comm (.ofNat us.length), UInt64.add_assoc]
    rfl
  rw [applyAll, applyAll, List.flatMap_cons, List.foldl_append, List.length_cons, hcount, apply_eq_withCount,
    foldl_applyChange_withCount]
  rfl

theorem applyAll_eq_foldl (us : List Update) : d.applyAll us = us.foldl apply d := by
  induction us generalizing d with
  | nil => exact d.applyAll_nil
  | cons u us ih => rw [applyAll_cons, ih, List.foldl_cons]

theorem applyAll_append (us vs : List Update) : d.applyAll (us ++ vs) = (d.applyAll us).applyAll vs := by
  simp only [applyAll_eq_foldl, List.foldl_append]

theorem applyAll_singleton (u : Update) : d.applyAll [u] = d.apply u := d.applyAll_eq_foldl [u]

theorem valueAt?_applyAll_of_no_change {us : List Update} {name : String} {r : Revision}
    (h : ∀ u ∈ us, u.change? name (some r) = none) : (d.applyAll us).valueAt? name r = d.valueAt? name r := by
  induction us generalizing d with
  | nil => rw [applyAll_nil]
  | cons u us ih =>
    rw [applyAll_cons, ih _ fun v hv ↦ h v (List.mem_cons_of_mem _ hv), valueAt?_apply, h u List.mem_cons_self]

theorem modCount_applyAll {d : Document} {us : List Update} (h : d.modCount.toNat + us.length < UInt64.size) :
    (d.applyAll us).modCount.toNat = d.modCount.toNat + us.length := by
  have hcount : (d.applyAll us).modCount = d.modCount + .ofNat us.length := rfl
  rw [UInt64.size] at h
  rw [hcount, UInt64.toNat_add, UInt64.toNat_ofNat']
  omega

theorem exists_blank_of_ofId {id : String} {d : Document} (h : ofId id = .ok d) : ∃ p, d = .blank p := by
  rw [ofId] at h
  cases hp : Path.ofId id with
  | error e => rw [hp] at h; cases h
  | ok p => rw [hp] at h; exact ⟨p, (Except.ok.inj h).symm⟩

end Document

/-- A call to a store, or the beginning or the end of an outage. -/
inductive Event where
  | edit (e : Edit)
  | availability (available : Bool)

def Edit.update? : Edit → Option Update
  | upsert u => some u.unconditional
  | updateIf u => some u
  | remove _ => none

theorem Edit.apply_of_update? {e : Edit} {u : Update} (h : e.update? = some u) (s : Store) :
    e.apply s = (s.target? u).elim s fun d ↦ s.put u.id (d.apply u) := by
  rw [← s.store_updateIf]
  cases e with
  | upsert v =>
    obtain rfl := Option.some.inj h
    rw [apply, s.upsert_eq_updateIf]
  | updateIf v =>
    obtain rfl := Option.some.inj h
    rfl
  | remove id => cases h

namespace Event

def apply : Event → Store → Store
  | edit e, s => e.apply s
  | availability available, s => s.setAvailable available

def made? (id : String) (s : Store) : Event → Option Update
  | edit e => e.update?.filter fun u ↦ u.id = id && (s.target? u).isSome
  | availability _ => none

theorem of_made? {id : String} {s : Store} {e : Event} {u : Update} (h : e.made? id s = some u) :
    ∃ call, e = .edit call ∧ call.update? = some u ∧ u.id = id := by
  cases e with
  | edit call =>
    obtain ⟨hu, hmade⟩ := Option.filter_eq_some_iff.1 h
    rw [Bool.and_eq_true, decide_eq_true_eq] at hmade
    exact ⟨call, rfl, hu, hmade.1⟩
  | availability => cases h

end Event

namespace Store

def replay (s : Store) (events : List Event) : Store := events.foldl (fun s e ↦ e.apply s) s

def made (id : String) : List Event → Store → List Update
  | [], _ => []
  | e :: events, s => (e.made? id s).toList ++ made id events (e.apply s)

end Store

/-- What updates of the document `id` make of it. If there was none, the first of them made it from an empty
one. -/
inductive Unfolds (id : String) (us : List Update) : Option Document → Option Document → Prop
  | kept (d : Document) : Unfolds id us (some d) (some (d.applyAll us))
  | missing : us = [] → Unfolds id us none none
  | made {d : Document} : Document.ofId id = .ok d → us ≠ [] → Unfolds id us none (some (d.applyAll us))

namespace Unfolds

variable {id : String} {us vs : List Update} {before mid after : Option Document}

theorem refl (id : String) (before : Option Document) : Unfolds id [] before before := by
  cases before with
  | none => exact .missing rfl
  | some d =>
    have h : Unfolds id [] (some d) (some (d.applyAll [])) := .kept d
    rwa [d.applyAll_nil] at h

theorem trans (h : Unfolds id us before mid) (h' : Unfolds id vs mid after) :
    Unfolds id (us ++ vs) before after := by
  cases h with
  | kept d =>
    cases h'
    rw [← d.applyAll_append]
    exact .kept d
  | missing hus =>
    rw [hus, List.nil_append]
    exact h'
  | @made d hempty hus =>
    cases h'
    rw [← d.applyAll_append]
    exact .made hempty (by simp [hus])

theorem single {s : Store} {u : Update} {d : Document} (h : s.target? u = some d) :
    Unfolds u.id [u] (s.documents.get? u.id) (some (d.apply u)) := by
  rw [← d.applyAll_singleton]
  rcases Store.target?_eq_some_iff.1 h with h | h
  · rw [h.stored]
    exact .kept d
  · rw [h.missing]
    exact .made h.empty (by simp)

theorem valueAt?_eq (h : Unfolds id us before after) {name : String} {r : Revision}
    (spares : ∀ u ∈ us, u.change? name (some r) = none) :
    after.bind (·.valueAt? name r) = before.bind (·.valueAt? name r) := by
  cases h with
  | kept d => exact d.valueAt?_applyAll_of_no_change spares
  | missing => rfl
  | made hempty =>
    obtain ⟨p, rfl⟩ := Document.exists_blank_of_ofId hempty
    exact Document.valueAt?_applyAll_of_no_change _ spares

theorem count (h : Unfolds id us before after)
    (hbound : before.elim 0 (·.modCount.toNat) + us.length < UInt64.size) :
    after.elim 0 (·.modCount.toNat) = before.elim 0 (·.modCount.toNat) + us.length := by
  cases h with
  | kept d => exact Document.modCount_applyAll hbound
  | missing hus => rw [hus]; rfl
  | @made d hempty =>
    obtain ⟨p, rfl⟩ := Document.exists_blank_of_ofId hempty
    have hblank : (Document.blank p).modCount.toNat + us.length < UInt64.size := by
      simpa [Document.blank] using hbound
    simpa [Document.blank] using Document.modCount_applyAll hblank

end Unfolds

namespace Store

theorem unfolds_of_update? {e : Edit} {u : Update} (hu : e.update? = some u) (s : Store) (id : String) :
    Unfolds id ((Event.edit e).made? id s).toList (s.documents.get? id) ((e.apply s).documents.get? id) := by
  rw [e.apply_of_update? hu, Event.made?, hu, Option.filter_some]
  cases ht : s.target? u with
  | none =>
    rw [Option.isSome_none, Bool.and_false]
    exact .refl id _
  | some d =>
    rw [Option.isSome_some, Bool.and_true, Option.elim_some, put]
    by_cases hid : u.id = id
    · subst hid
      rw [if_pos (by simp), SortedMap.get?_insert_self]
      exact .single ht
    · rw [if_neg (by simpa using hid), SortedMap.get?_insert_of_ne _ _ (Ne.symm hid)]
      exact .refl id _

theorem get?_remove_of_ne (s : Store) {id other : String} (h : id ≠ other) :
    (s.remove other).2.documents.get? id = s.documents.get? id := by
  rw [remove]
  split
  · exact SortedMap.get?_erase_of_ne _ h
  · rfl

theorem unfolds_apply (s : Store) {id : String} {e : Event} (kept : e ≠ .edit (.remove id)) :
    Unfolds id (e.made? id s).toList (s.documents.get? id) ((e.apply s).documents.get? id) := by
  cases e with
  | availability available => exact .refl id _
  | edit e =>
    cases e with
    | upsert u | updateIf u => exact unfolds_of_update? rfl s id
    | remove other =>
      have hsame := s.get?_remove_of_ne (fun h ↦ kept (by rw [h]) : id ≠ other)
      rw [Event.apply, Edit.apply, hsame]
      exact .refl id _

/-- By induction on the events: what the first of them makes of the document, the others go on with. -/
theorem unfolds_replay (s : Store) {id : String} {events : List Event} (kept : .edit (.remove id) ∉ events) :
    Unfolds id (made id events s) (s.documents.get? id) ((s.replay events).documents.get? id) := by
  induction events generalizing s with
  | nil => exact .refl id _
  | cons e events ih =>
    rw [List.mem_cons, not_or] at kept
    exact (s.unfolds_apply (Ne.symm kept.1)).trans (ih (e.apply s) kept.2)

/-- How many updates the document `id` counted. -/
def countAt (s : Store) (id : String) : Nat := (s.documents.get? id).elim 0 (·.modCount.toNat)

/-- A conditional update is made as a whole or not at all. So a document that is never removed is what the updates
that were made of it leave, and as long as its count can hold their number it counts every one of them. -/
theorem updates_atomic (s : Store) : (∀ u, s.IsAtomic u) ∧
    ∀ id events, .edit (.remove id) ∉ events →
      Unfolds id (made id events s) (s.documents.get? id) ((s.replay events).documents.get? id) ∧
      (s.countAt id + (made id events s).length < UInt64.size →
        (s.replay events).countAt id = s.countAt id + (made id events s).length) := by
  refine ⟨s.isAtomic, fun id events kept ↦ ?_⟩
  have h := s.unfolds_replay kept
  exact ⟨h, h.count⟩

def firstWrite : Update := (Update.start "1:/a" true).insertEntry "p" (.onTrunk 1 0 1) "first"

def secondWrite : Update :=
  ((Update.start "1:/a" false).insertEntry "p" (.onTrunk 2 0 1) "second").requireEntry "p" (.onTrunk 2 0 1) false

/-- The second write comes too early, during an outage, in time, and too late. -/
def fourAttempts : List Event :=
  [.edit (.updateIf secondWrite), .edit (.updateIf firstWrite), .availability false, .edit (.updateIf secondWrite),
    .availability true, .edit (.updateIf secondWrite), .edit (.updateIf secondWrite)]

theorem updates_atomic_fourAttempts :
    .edit (.remove "1:/a") ∉ fourAttempts ∧
      made "1:/a" fourAttempts empty = [firstWrite, secondWrite] ∧
      Unfolds "1:/a" [firstWrite, secondWrite] none ((empty.replay fourAttempts).documents.get? "1:/a") ∧
      (empty.replay fourAttempts).countAt "1:/a" = 2 ∧
      (empty.replay fourAttempts).valueAt? "1:/a" "p" (.onTrunk 2 0 1) = some "second" := by
  have hkept : .edit (.remove "1:/a") ∉ fourAttempts := by simp [fourAttempts]
  have hmade : made "1:/a" fourAttempts empty = [firstWrite, secondWrite] := by decide +kernel
  have h := empty.updates_atomic.2 "1:/a" fourAttempts hkept
  rw [hmade] at h
  exact ⟨hkept, hmade, h.1, h.2 (by decide +kernel), by decide +kernel⟩

end Store

end NodeStore
