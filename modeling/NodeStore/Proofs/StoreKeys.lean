import NodeStore.Proofs.GuardedUpdates
import NodeStore.Proofs.MemberSweep
import NodeStore.Proofs.PathText

namespace NodeStore

inductive Document.Built : Document → Prop
  | blank (p : Path) : Built (.blank p)
  | entry {d : Document} (name : String) (r : Revision) (value : String) : Built d →
      Built (d.insertEntry name r value)
  | flag {d : Document} (deletedOnce : Bool) : Built d → Built { d with deletedOnce }

theorem Document.Built.id_eq {d : Document} (h : d.Built) : d.id = d.path.id := by
  induction h with
  | blank => rfl
  | entry _ _ _ _ ih => exact ih
  | flag _ _ ih => exact ih

/-- A call that may change a store. -/
inductive Edit where
  | upsert (u : Update)
  | updateIf (u : Update)
  | remove (id : String)

namespace Edit

def apply : Edit → Store → Store
  | upsert u, s => (s.upsert u).2
  | updateIf u, s => (s.updateIf u).2
  | remove id, s => (s.remove id).2

/-- The key under which a call may make a document. -/
def newKey? : Edit → Option String
  | upsert u => some u.id
  | updateIf u => if u.isNew then some u.id else none
  | remove _ => none

inductive Outcome (e : Edit) (s : Store) : Store → Prop
  | same : Outcome e s s
  | changed {d : Document} (u : Update) : s.documents.get? u.id = some d → Outcome e s (s.put u.id (d.apply u))
  | made {p : Path} (u : Update) : e.newKey? = some u.id → Path.ofId u.id = .ok p →
      Outcome e s (s.put u.id ((Document.blank p).apply u))
  | removed (id : String) : Outcome e s { s with documents := s.documents.erase id }

theorem outcome (e : Edit) (s : Store) : e.Outcome s (e.apply s) := by
  have hofId (u : Update) : (∃ p, Path.ofId u.id = .ok p ∧ Document.ofId u.id = .ok (.blank p)) ∨
      ∃ cause, Document.ofId u.id = .error cause := by
    unfold Document.ofId
    cases Path.ofId u.id with
    | error cause => exact .inr ⟨cause, rfl⟩
    | ok p => exact .inl ⟨p, rfl, rfl⟩
  cases ha : s.available with
  | false =>
    have hsame : e.apply s = s := by cases e <;> simp [apply, Store.upsert, Store.updateIf, Store.remove, ha]
    rw [hsame]
    exact .same
  | true =>
    cases e with
    | upsert u =>
      simp only [apply, Store.upsert, if_pos ha]
      cases hd : s.documents.get? u.id with
      | some d => exact .changed u hd
      | none =>
        obtain ⟨p, hp, hblank⟩ | ⟨cause, hcause⟩ := hofId u
        · simp only [hblank]
          exact .made u rfl hp
        · simp only [hcause]
          exact .same
    | updateIf u =>
      simp only [apply, Store.updateIf, if_pos ha]
      cases hd : s.documents.get? u.id with
      | some d =>
        by_cases hm : d.meets u = true
        · simp only [if_pos hm]
          exact .changed u hd
        · simp only [if_neg hm]
          exact .same
      | none =>
        by_cases hnew : u.isNew = true
        · obtain ⟨p, hp, hblank⟩ | ⟨cause, hcause⟩ := hofId u
          · simp only [if_pos hnew, hblank]
            split
            · exact .made u (by rw [newKey?, if_pos hnew]) hp
            · exact .same
          · simp only [if_pos hnew, hcause]
            exact .same
        · simp only [if_neg hnew]
          exact .same
    | remove id =>
      simp only [apply, Store.remove, if_pos ha]
      exact .removed id

end Edit

/-- If the text is read as a document id, it is the id of the path that is read. -/
def Path.IsSpelling (id : String) : Prop := ∀ p, ofId id = .ok p → p.id = id

theorem Path.isSpelling_id (p : Path) : IsSpelling p.id := fun _ h ↦ by rw [eq_of_ofId_id h]

namespace Store

def after (s : Store) (edits : List Edit) : Store := edits.foldl (fun s e ↦ e.apply s) s

/-- Documents have the ids of their paths, and their keys are read as these paths if they are not these ids. -/
structure KeysSpell (s : Store) : Prop where
  available : s.available = true
  spell : ∀ k d, s.documents.get? k = some d → d.id = d.path.id ∧ (d.path.id = k ∨ Path.ofId k = .ok d.path)

theorem KeysSpell.put {s : Store} (h : s.KeysSpell) {id : String} {d : Document} (hd : d.id = d.path.id)
    (hid : d.path.id = id ∨ Path.ofId id = .ok d.path) : (s.put id d).KeysSpell where
  available := h.available
  spell k e hk := by
    rw [Store.put, SortedMap.get?_insert] at hk
    split at hk
    next hkey =>
      obtain rfl := Option.some.inj hk
      rw [hkey]
      exact ⟨hd, hid⟩
    next => exact h.spell k e hk

theorem KeysSpell.apply {s : Store} (h : s.KeysSpell) (e : Edit) : (e.apply s).KeysSpell := by
  have houtcome := e.outcome s
  generalize e.apply s = t at houtcome
  cases houtcome with
  | same => exact h
  | changed u hd =>
    have hspell := h.spell _ _ hd
    exact h.put (by simpa using hspell.1) (by simpa using hspell.2)
  | made u _ hp => exact h.put (by simp [Document.blank]) (.inr (by simpa [Document.blank] using hp))
  | removed id =>
    refine ⟨h.available, fun k d hk ↦ ?_⟩
    rw [SortedMap.get?_erase] at hk
    split at hk
    · cases hk
    · exact h.spell k d hk

theorem ofDocuments_keysSpell {ds : List Document} (built : ∀ d ∈ ds, d.Built) : (ofDocuments ds).KeysSpell where
  available := rfl
  spell k d hk := by
    obtain ⟨d', hd', heq⟩ := List.mem_map.1 (SortedMap.mem_of_get?_ofList hk)
    obtain ⟨rfl, rfl⟩ := Prod.mk.inj heq
    have hid := (built d' hd').id_eq
    exact ⟨hid, .inl hid.symm⟩

theorem mem_keys_after {s : Store} {edits : List Edit} {k : String}
    (h : k ∈ (s.after edits).documents.keys) :
    k ∈ s.documents.keys ∨ ∃ e ∈ edits, e.newKey? = some k := by
  induction edits generalizing s with
  | nil => exact .inl h
  | cons e edits ih =>
    have hrest : k ∈ (e.apply s).documents.keys ∨ ∃ e ∈ edits, e.newKey? = some k := ih h
    rcases hrest with h | ⟨e', he', hk⟩
    · have houtcome := e.outcome s
      generalize e.apply s = t at houtcome h
      rw [SortedMap.mem_keys_iff] at h ⊢
      cases houtcome with
      | same => exact .inl h
      | changed u hd =>
        rw [Store.put, SortedMap.get?_insert] at h
        split at h
        next hk => exact .inl (by rw [hk, hd]; rfl)
        next => exact .inl h
      | made u hnew =>
        rw [Store.put, SortedMap.get?_insert] at h
        split at h
        next hk => exact .inr ⟨e, List.mem_cons_self, by rw [hnew, hk]⟩
        next => exact .inl h
      | removed id =>
        rw [SortedMap.get?_erase] at h
        split at h
        · cases h
        · exact .inl h
    · exact .inr ⟨e', List.mem_cons_of_mem _ he', hk⟩

/-- The store has one document for each path and finds it there, and it lists the documents of a cluster member
in the order of their ids. -/
structure IndexesPaths (s : Store) : Prop where
  keys : ∀ k d, s.documents.get? k = some d → d.id = k ∧ d.path.id = k
  find : ∀ p d, s.findAt p = .ok (some d) ↔ (∃ k, s.documents.get? k = some d) ∧ d.path = p
  unique : ∀ k l d e, s.documents.get? k = some d → s.documents.get? l = some e → d.path = e.path → k = l
  changedBy : ∀ c, ∃ ds, s.changedBy c = .ok ds ∧
    (∀ d, d ∈ ds ↔ (∃ k, s.documents.get? k = some d) ∧
      ∃ name r, name ≠ Property.sweepRevision ∧ r.clusterId = c ∧ (d.valueAt? name r).isSome) ∧
    ds.Pairwise fun a b ↦ compare a.id b.id = .lt

theorem WellFormed.indexesPaths {s : Store} (hs : s.WellFormed) (ha : s.available = true) : s.IndexesPaths where
  keys := hs
  find p d := by
    rw [findAt, find_of_available ha, Except.ok.injEq]
    constructor
    · exact fun h ↦ ⟨⟨_, h⟩, Path.id_injective (hs _ d h).2⟩
    · rintro ⟨⟨k, hk⟩, rfl⟩
      rwa [(hs k d hk).2]
  unique k l d e hk hl hpath := by rw [← (hs k d hk).2, hpath, (hs l e hl).2]
  changedBy c := by
    refine ⟨_, by rw [Store.changedBy, if_pos ha], fun d ↦ ?_, ?_⟩
    · have hempty : (!(d.revisionsBy c).isEmpty) = true ↔ ∃ r, r ∈ d.revisionsBy c := by
        rw [Bool.not_eq_true', List.isEmpty_eq_false_iff_exists_mem]
      simp only [List.mem_filter, SortedMap.mem_values_iff, hempty, Document.mem_revisionsBy]
      refine and_congr_right fun _ ↦ ⟨?_, ?_⟩
      · rintro ⟨r, hr, name, hname, hv⟩
        exact ⟨name, r, hname, hr, hv⟩
      · rintro ⟨name, r, hname, hr, hv⟩
        exact ⟨r, hr, name, hname, hv⟩
    · refine List.Pairwise.filter _ ?_
      have hkeys : s.documents.keys.Pairwise fun a b ↦ compare a b = .lt :=
        List.pairwise_map.2 s.documents.ascending
      rw [← hs.ids_eq_keys] at hkeys
      exact List.pairwise_map.1 hkeys

/-- A store that calls made from documents indexes them by their paths exactly if no key spells the id of its
path in another way. That is so if no call may make a document under such a key. -/
theorem after_indexesPaths_iff {ds : List Document} (built : ∀ d ∈ ds, d.Built) (edits : List Edit) :
    (((ofDocuments ds).after edits).IndexesPaths ↔
      ∀ k ∈ ((ofDocuments ds).after edits).documents.keys, Path.IsSpelling k) ∧
    ((∀ e ∈ edits, ∀ k, e.newKey? = some k → Path.IsSpelling k) →
      ((ofDocuments ds).after edits).IndexesPaths) := by
  have hstart := ofDocuments_keysSpell built
  have hspell : ((ofDocuments ds).after edits).KeysSpell := by
    unfold after
    generalize ofDocuments ds = s at hstart
    induction edits generalizing s with
    | nil => exact hstart
    | cons e edits ih => exact ih _ (hstart.apply e)
  have hindexes (h : ∀ k ∈ ((ofDocuments ds).after edits).documents.keys, Path.IsSpelling k) :
      ((ofDocuments ds).after edits).IndexesPaths := by
    refine WellFormed.indexesPaths (fun k d hk ↦ ?_) hspell.available
    obtain ⟨hid, hpath⟩ := hspell.spell k d hk
    have hkey : d.path.id = k :=
      hpath.elim (fun h ↦ h) (h k (SortedMap.mem_keys_iff.2 (by rw [hk]; rfl)) d.path)
    exact ⟨hid.trans hkey, hkey⟩
  refine ⟨⟨fun h k hk ↦ ?_, hindexes⟩, fun h ↦ hindexes fun k hk ↦ ?_⟩
  · obtain ⟨d, hd⟩ := Option.isSome_iff_exists.1 (SortedMap.mem_keys_iff.1 hk)
    rw [← (h.keys k d hd).2]
    exact d.path.isSpelling_id
  · rcases mem_keys_after hk with hk | ⟨e, he, hk⟩
    · obtain ⟨d, hd⟩ := Option.isSome_iff_exists.1 (SortedMap.mem_keys_iff.1 hk)
      obtain ⟨d', hd', heq⟩ := List.mem_map.1 (SortedMap.mem_of_get?_ofList hd)
      obtain ⟨rfl, rfl⟩ := Prod.mk.inj heq
      rw [(built d' hd').id_eq]
      exact d'.path.isSpelling_id
    · exact h e he k hk

def entryUnder (id : String) : Edit :=
  .upsert ((Update.start id true).insertEntry "p" (.onTrunk 100 0 1) "new")

theorem after_indexesPaths_iff_entryUnder :
    (∀ d ∈ [Document.blank .root], d.Built) ∧
      (∀ e ∈ [entryUnder "1:/a", .remove Path.root.id], ∀ k, e.newKey? = some k → Path.IsSpelling k) ∧
      ((ofDocuments [.blank .root]).after [entryUnder "1:/a", .remove Path.root.id]).IndexesPaths := by
  have built : ∀ d ∈ [Document.blank .root], d.Built := fun d hd ↦ by
    obtain rfl := List.mem_singleton.1 hd
    exact .blank .root
  have spelled : ∀ e ∈ [entryUnder "1:/a", .remove Path.root.id], ∀ k, e.newKey? = some k → Path.IsSpelling k := by
    intro e he k hk
    rcases List.mem_cons.1 he with rfl | he
    · obtain rfl : "1:/a" = k := Option.some.inj hk
      exact Path.isSpelling_id ⟨["a"], by decide⟩
    · obtain rfl := List.mem_singleton.1 he
      cases hk
  exact ⟨built, spelled, (after_indexesPaths_iff built _).2 spelled⟩

/-- A document made under an id whose depth has a plus sign is not found at its path. -/
theorem exists_unindexed : ¬ ∀ (ds : List Document) (edits : List Edit), (∀ d ∈ ds, d.Built) →
    ((ofDocuments ds).after edits).IndexesPaths := by
  intro claim
  have h := claim [] [entryUnder "+1:/a"] (by simp)
  have hid : (((ofDocuments []).after [entryUnder "+1:/a"]).documents.get? "+1:/a").map (·.id) = some "1:/a" := by
    decide +kernel
  obtain ⟨d, hd, hkey⟩ := Option.map_eq_some_iff.1 hid
  exact absurd ((h.keys _ d hd).1.symm.trans hkey) (by decide)

end Store

end NodeStore
