import NodeStore.Document
import NodeStore.Proofs.PointwiseUpdates

namespace NodeStore

section Flag

def Change.flagValue? (k : Key) : Change → Option Bool
  | setFlag value => if k.name = Property.deletedOnce then some value else none
  | _ => none

theorem Change.flag_eq_getD (c : Change) (k : Key) (old : Bool) : c.flag k old = (c.flagValue? k).getD old := by
  cases c with
  | setFlag value =>
    rw [flag, flagValue?]
    split <;> rfl
  | insertEntry | eraseEntry | raiseEntry => rfl

theorem Change.flagValue?_eq_some_iff {c : Change} {k : Key} {value : Bool} :
    c.flagValue? k = some value ↔ k.name = Property.deletedOnce ∧ c = .setFlag value := by
  cases c <;> simp [flagValue?]

def Update.flagValues (u : Update) : List Bool := u.changes.entries.filterMap fun e ↦ e.2.flagValue? e.1

theorem Update.mem_flagValues {u : Update} {value : Bool} :
    value ∈ u.flagValues ↔ ∃ k, k.name = Property.deletedOnce ∧ u.changes.get? k = some (.setFlag value) := by
  simp only [flagValues, List.mem_filterMap, Change.flagValue?_eq_some_iff, ← SortedMap.mem_entries_iff]
  constructor
  · intro hx
    obtain ⟨⟨k, c⟩, he, hname, rfl⟩ := hx
    exact ⟨k, hname, he⟩
  · intro hx
    obtain ⟨k, hname, he⟩ := hx
    exact ⟨(k, _), he, hname, rfl⟩

theorem Document.deletedOnce_apply_eq_getD (d : Document) (u : Update) :
    (d.apply u).deletedOnce = u.flagValues.getLast?.getD d.deletedOnce := by
  have hfold (l : List (Key × Change)) (flag : Bool) : l.foldl (fun flag e ↦ e.2.flag e.1 flag) flag =
      (l.filterMap fun e ↦ e.2.flagValue? e.1).getLast?.getD flag := by
    induction l generalizing flag with
    | nil => rfl
    | cons e l ih =>
      rw [List.foldl_cons, ih, Change.flag_eq_getD, List.filterMap_cons]
      cases e.2.flagValue? e.1 with
      | none => rfl
      | some value => rw [List.getLast?_cons, Option.getD_some, Option.getD_some]
  rw [deletedOnce_apply_eq, hfold, Update.flagValues]

end Flag

section Fitting

/-- The update without the changes that do not fit their keys. -/
def Update.fitting (u : Update) : Update :=
  { u with changes := ⟨u.changes.entries.filter fun e ↦ e.2.fits e.1, u.changes.ascending.filter _⟩ }

theorem Document.applyChange_of_not_fits (d : Document) {k : Key} {c : Change} (h : ¬ c.fits k) :
    d.applyChange k c = d := by
  cases c with
  | setFlag value => exact if_neg (by simpa [Change.fits] using h)
  | insertEntry | eraseEntry | raiseEntry =>
    have hnone : k.revision = none := by simpa [Change.fits] using h
    rw [applyChange, hnone, Option.elim_none]

theorem Document.apply_fitting (d : Document) (u : Update) : d.apply u.fitting = d.apply u := by
  have hstep (d : Document) (e : Key × Change) :
      (if e.2.fits e.1 then d.applyChange e.1 e.2 else d) = d.applyChange e.1 e.2 := by
    split
    next => rfl
    next h => exact (d.applyChange_of_not_fits h).symm
  simp only [apply, Update.fitting, List.foldl_filter, hstep]

end Fitting

namespace Update

/-- The updates that the operations on updates put together. -/
inductive IsComposed : Update → Prop
  | start (id : String) (isNew : Bool) : IsComposed (.start id isNew)
  | insertEntry {u : Update} (h : IsComposed u) (name : String) (r : Revision) (value : String) :
      IsComposed (u.insertEntry name r value)
  | eraseEntry {u : Update} (h : IsComposed u) (name : String) (r : Revision) : IsComposed (u.eraseEntry name r)
  | setFlag {u : Update} (h : IsComposed u) (name : String) (value : Bool) : IsComposed (u.setFlag name value)
  | raiseEntry {u : Update} (h : IsComposed u) (name : String) (r value : Revision) :
      IsComposed (u.raiseEntry name r value)
  | requireEntry {u : Update} (h : IsComposed u) (name : String) (r : Revision) (isPresent : Bool) :
      IsComposed (u.requireEntry name r isPresent)
  | requireValue {u : Update} (h : IsComposed u) (name : String) (r : Revision) (value : String) :
      IsComposed (u.requireValue name r value)

variable {u v : Update}

theorem IsComposed.revision_of_setFlag (h : u.IsComposed) {k : Key} {value : Bool}
    (hk : u.changes.get? k = some (.setFlag value)) : k.revision = none := by
  have other {u : Update} (ih : u.changes.get? k = some (.setFlag value) → k.revision = none) {k' : Key} {c : Change}
      (hc : c = .setFlag value → k'.revision = none) (hk : (u.withChange k' c).changes.get? k = some (.setFlag value)) :
      k.revision = none := by
    rw [withChange, SortedMap.get?_insert] at hk
    split at hk
    next hkey => rw [hkey, hc (Option.some.inj hk)]
    next => exact ih hk
  induction h with
  | start id isNew => cases hk
  | insertEntry _ name r value ih => exact other ih (by simp) hk
  | eraseEntry _ name r ih => exact other ih (by simp) hk
  | setFlag _ name value ih => exact other ih (fun _ ↦ rfl) hk
  | raiseEntry _ name r value ih => exact other ih (by simp) hk
  | requireEntry _ name r isPresent ih => exact ih hk
  | requireValue _ name r value ih => exact ih hk

theorem flagValues_of_disjoint (hu : u.IsComposed) (hv : v.IsComposed) (h : ∀ k ∈ u.changes.keys, k ∉ v.changes.keys) :
    u.flagValues = [] ∨ v.flagValues = [] := by
  by_contra hne
  rw [not_or] at hne
  obtain ⟨x, hx⟩ := List.exists_mem_of_ne_nil _ hne.1
  obtain ⟨y, hy⟩ := List.exists_mem_of_ne_nil _ hne.2
  obtain ⟨k, hk, hx⟩ := mem_flagValues.1 hx
  obtain ⟨l, hl, hy⟩ := mem_flagValues.1 hy
  have hkey : k = l := by
    cases k
    cases l
    exact (Key.mk.injEq ..).mpr ⟨hk.trans hl.symm, (hu.revision_of_setFlag hx).trans (hv.revision_of_setFlag hy).symm⟩
  subst hkey
  exact h k (SortedMap.mem_keys_iff.2 (by rw [hx]; rfl)) (SortedMap.mem_keys_iff.2 (by rw [hy]; rfl))

end Update

namespace Document

variable {d e : Document} {u v : Update}

/-- What the changes of an update say about the document `e` that they make of `d`. -/
structure Becomes (d : Document) (u : Update) (e : Document) : Prop where
  id : e.id = d.id
  path : e.path = d.path
  modCount : e.modCount = d.modCount + 1
  deletedOnce : e.deletedOnce = u.flagValues.getLast?.getD d.deletedOnce
  inserted {name r value} : u.change? name (some r) = some (.insertEntry value) → e.valueAt? name r = some value
  erased {name r} : u.change? name (some r) = some .eraseEntry → e.valueAt? name r = none
  /-- An entry is not raised to a revision that is not newer. -/
  held {name r x old y} : u.change? name (some r) = some (.raiseEntry x) → d.valueAt? name r = some old →
    Revision.parse? old = some y → x.isAfter y = false → e.valueAt? name r = some old
  raised {name r x} : u.change? name (some r) = some (.raiseEntry x) →
    (∀ old y, d.valueAt? name r = some old → Revision.parse? old = some y → x.isAfter y = true) →
    e.valueAt? name r = some x.text
  kept {name r} : (∀ c, u.change? name (some r) = some c → ∃ value, c = .setFlag value) →
    e.valueAt? name r = d.valueAt? name r

theorem becomes_apply (d : Document) (u : Update) : d.Becomes u (d.apply u) where
  id := by simp
  path := by simp
  modCount := d.modCount_apply u
  deletedOnce := d.deletedOnce_apply_eq_getD u
  inserted h := by simp only [valueAt?_apply, h, Change.effect]
  erased h := by simp only [valueAt?_apply, h, Change.effect]
  held h hold hy hx := by
    simp only [valueAt?_apply, h, Change.effect, hold, Option.bind_some, hy, hx, Bool.false_eq_true, if_false]
  raised {name r x} h hx := by
    simp only [valueAt?_apply, h]
    cases hparse : (d.valueAt? name r).bind Revision.parse? with
    | none => simp only [Change.effect, hparse]
    | some y =>
      obtain ⟨old, hold, hy⟩ := Option.bind_eq_some_iff.1 hparse
      simp only [Change.effect, hparse, hx old y hold hy, if_true]
  kept {name r} h := by
    rw [valueAt?_apply]
    split
    next c hc =>
      obtain ⟨value, rfl⟩ := h c hc
      rfl
    next => rfl

theorem Becomes.valueAt?_eq {e' : Document} (h : d.Becomes u e) (h' : d.Becomes u e') (name : String) (r : Revision) :
    e.valueAt? name r = e'.valueAt? name r := by
  by_cases hkept : ∀ c, u.change? name (some r) = some c → ∃ value, c = .setFlag value
  · rw [h.kept hkept, h'.kept hkept]
  · simp only [not_forall] at hkept
    obtain ⟨c, hc, hset⟩ := hkept
    cases c with
    | insertEntry value => rw [h.inserted hc, h'.inserted hc]
    | eraseEntry => rw [h.erased hc, h'.erased hc]
    | setFlag value => exact absurd ⟨value, rfl⟩ hset
    | raiseEntry x =>
      by_cases hx : ∀ old y, d.valueAt? name r = some old → Revision.parse? old = some y → x.isAfter y = true
      · rw [h.raised hc hx, h'.raised hc hx]
      · simp only [not_forall, Bool.not_eq_true] at hx
        obtain ⟨old, y, hold, hy, hx⟩ := hx
        rw [h.held hc hold hy hx, h'.held hc hold hy hx]

def HasNoEmptyMap (d : Document) : Prop := ∀ m ∈ d.maps.values, m.isEmpty = false

theorem hasNoEmptyMap_iff : d.HasNoEmptyMap ↔ ∀ name, d.Fills name := by
  simp only [HasNoEmptyMap, Fills, SortedMap.mem_values_iff, ← Bool.not_eq_true, SortedMap.isEmpty_iff, not_forall]
  constructor
  · intro h name hsome
    obtain ⟨m, hm⟩ := Option.isSome_iff_exists.1 hsome
    obtain ⟨r, hr⟩ := h m ⟨name, hm⟩
    refine ⟨r, ?_⟩
    rw [valueAt?, hm, Option.bind_some]
    exact Option.isSome_iff_ne_none.2 hr
  · intro h m hx
    obtain ⟨name, hm⟩ := hx
    rw [← map?] at hm
    obtain ⟨r, hr⟩ := h name (by rw [hm]; rfl)
    rw [valueAt?, hm, Option.bind_some] at hr
    exact ⟨r, Option.isSome_iff_ne_none.1 hr⟩

theorem HasNoEmptyMap.apply (h : d.HasNoEmptyMap) (u : Update) : (d.apply u).HasNoEmptyMap := by
  rw [hasNoEmptyMap_iff] at h ⊢
  exact fun name ↦ d.fills_apply (.inl (h name))

theorem HasNoEmptyMap.mem_keys_iff (h : d.HasNoEmptyMap) {name : String} :
    name ∈ d.maps.keys ↔ ∃ r, (d.valueAt? name r).isSome := by
  rw [SortedMap.mem_keys_iff]
  constructor
  · exact hasNoEmptyMap_iff.1 h name
  · intro hx
    obtain ⟨r, hr⟩ := hx
    obtain ⟨value, hvalue⟩ := Option.isSome_iff_exists.1 hr
    obtain ⟨m, hm, -⟩ := valueAt?_eq_some_iff.1 hvalue
    rw [hm]
    rfl

theorem HasNoEmptyMap.eq_apply (hd : d.HasNoEmptyMap) (he : e.HasNoEmptyMap) (h : d.Becomes u e) : e = d.apply u := by
  have h' := d.becomes_apply u
  refine ext_map? (h.id.trans h'.id.symm) (h.path.trans h'.path.symm) (fun name ↦ ?_)
    (h.deletedOnce.trans h'.deletedOnce.symm) (h.modCount.trans h'.modCount.symm)
  exact map?_eq_of_fills (hasNoEmptyMap_iff.1 he name) (hasNoEmptyMap_iff.1 (hd.apply u) name) (h.valueAt?_eq h' name)

theorem apply_comm_of_disjoint (hu : u.IsComposed) (hv : v.IsComposed) (h : ∀ k ∈ u.changes.keys, k ∉ v.changes.keys) :
    (d.apply u).apply v = (d.apply v).apply u := by
  refine apply_comm (fun name r ↦ ?_) ?_
  · by_contra hne
    rw [not_or, ← ne_eq, ← ne_eq, Update.change?, Update.change?, ← Option.isSome_iff_ne_none,
      ← Option.isSome_iff_ne_none, ← SortedMap.mem_keys_iff, ← SortedMap.mem_keys_iff] at hne
    exact h _ hne.1 hne.2
  · rcases Update.flagValues_of_disjoint hu hv h with hnil | hnil <;> simp [deletedOnce_apply_eq_getD, hnil]

/-- An update is made entry by entry, and changes that do not fit their keys do nothing. No map becomes empty, so the
maps that are there are those with an entry. Composed updates with different keys can be made in any order. -/
theorem apply_pointwise (d : Document) (u : Update) :
    d.Becomes u (d.apply u) ∧ d.apply u.fitting = d.apply u ∧
      (d.HasNoEmptyMap →
        (d.apply u).HasNoEmptyMap ∧ (∀ e, d.Becomes u e → e.HasNoEmptyMap → e = d.apply u) ∧
          ∀ name, name ∈ (d.apply u).maps.keys ↔ ∃ r, ((d.apply u).valueAt? name r).isSome) ∧
      ∀ v : Update, u.IsComposed → v.IsComposed → (∀ k ∈ u.changes.keys, k ∉ v.changes.keys) →
        (d.apply u).apply v = (d.apply v).apply u := by
  refine ⟨d.becomes_apply u, d.apply_fitting u, fun hd ↦ ?_, fun v hu hv h ↦ apply_comm_of_disjoint hu hv h⟩
  exact ⟨hd.apply u, fun e h he ↦ hd.eq_apply he h, fun name ↦ (hd.apply u).mem_keys_iff⟩

def drafted : Document :=
  { blank .root with maps := .ofList [("title", .ofList [(.onTrunk 100 0 1, "draft")]),
    (Property.sweepRevision, .ofList [(.onTrunk 0 0 1, "soon"), (.onTrunk 0 0 2, "r96-0-2")])] }

def publication : Update :=
  (Update.start "0:/" false).eraseEntry "title" (.onTrunk 100 0 1) |>.insertEntry "title" (.onTrunk 101 0 1) "final"
    |>.advanceCheckpoint (.onTrunk 101 0 1) |>.markDeletedOnce

def oddPublication : Update := publication.withChange ⟨"title", none⟩ (.insertEntry "none")

def lateCheckpoint : Update := (Update.start "0:/" false).advanceCheckpoint (.onTrunk 90 0 2)

theorem apply_pointwise_drafted :
    drafted.Becomes publication (drafted.apply publication) ∧
      (drafted.apply publication).valueAt? "title" (.onTrunk 100 0 1) = none ∧
      (drafted.apply publication).valueAt? "title" (.onTrunk 101 0 1) = some "final" ∧
      (drafted.apply publication).valueAt? Property.sweepRevision (.onTrunk 0 0 1) = some "r65-0-1" ∧
      (drafted.apply lateCheckpoint).valueAt? Property.sweepRevision (.onTrunk 0 0 2) = some "r96-0-2" ∧
      drafted.apply publication = drafted.apply oddPublication ∧
      drafted.HasNoEmptyMap ∧ (drafted.apply publication).HasNoEmptyMap ∧
      publication.IsComposed ∧ lateCheckpoint.IsComposed ∧
      (∀ k ∈ publication.changes.keys, k ∉ lateCheckpoint.changes.keys) ∧
      (drafted.apply publication).apply lateCheckpoint = (drafted.apply lateCheckpoint).apply publication := by
  obtain ⟨hbecomes, -, hfull, hcomm⟩ := drafted.apply_pointwise publication
  have hd : drafted.HasNoEmptyMap := by
    unfold HasNoEmptyMap
    decide +kernel
  have hpublication : publication.IsComposed :=
    .setFlag (.raiseEntry (.insertEntry (.eraseEntry (.start ..) ..) ..) ..) ..
  have hlate : lateCheckpoint.IsComposed := .raiseEntry (.start ..) ..
  have hdisjoint : ∀ k ∈ publication.changes.keys, k ∉ lateCheckpoint.changes.keys := by decide +kernel
  have hfitting : oddPublication.fitting = publication := by decide +kernel
  refine ⟨hbecomes, hbecomes.erased (by decide +kernel), hbecomes.inserted (by decide +kernel), ?_, ?_, ?_, hd,
    (hfull hd).1, hpublication, hlate, hdisjoint, hcomm _ hpublication hlate hdisjoint⟩
  · have hparse : Revision.parse? "soon" = none := by decide +kernel
    have hold : drafted.valueAt? Property.sweepRevision (.onTrunk 0 0 1) = some "soon" := by decide +kernel
    have htext : (Revision.onTrunk 101 0 1).text = "r65-0-1" := by decide +kernel
    rw [← htext]
    refine hbecomes.raised (by decide +kernel) fun old y h hy ↦ ?_
    rw [← Option.some.inj (hold.symm.trans h), hparse] at hy
    cases hy
  · exact (drafted.apply_pointwise lateCheckpoint).1.held (x := .onTrunk 90 0 2) (y := .onTrunk 150 0 2)
      (by decide +kernel) (by decide +kernel) (by decide +kernel) (by decide +kernel)
  · rw [← hfitting]
    exact (drafted.apply_pointwise oddPublication).2.1

end Document

end NodeStore
