import NodeStore.Proofs.CheckpointHistory
import NodeStore.Proofs.JsonText
import NodeStore.Proofs.PathText
import NodeStore.Store.Snapshot

namespace NodeStore

theorem SortedMap.ofList_entries {κ ν : Type} [Ord κ] [Std.TransOrd κ] [Std.LawfulEqOrd κ] (m : SortedMap κ ν) :
    ofList m.entries = m := by
  refine ext_get? fun k ↦ ?_
  cases hk : (ofList m.entries).get? k with
  | some v => exact (mem_entries_iff.1 (mem_of_get?_ofList hk)).symm
  | none =>
    symm
    rw [Option.eq_none_iff_forall_ne_some]
    intro v hv
    have hmem : k ∈ (ofList m.entries).keys :=
      mem_keys_ofList.2 (List.mem_map_of_mem (mem_entries_iff.2 hv))
    rw [mem_keys_iff, hk] at hmem
    cases hmem

namespace Json

theorem plain_record {members : List (String × Json)} (h : ∀ m ∈ members, Plain m.2) : Plain (record members) := by
  refine .object (fun e he ↦ ?_) fun e he ↦ ?_
  · obtain ⟨m, -, rfl⟩ := List.mem_map.1 he
    rfl
  · obtain ⟨m, hm, rfl⟩ := List.mem_map.1 he
    exact h m hm

section Maps

variable {κ ν : Type} [Ord κ] (keyText : κ → String) (write : ν → Json)

theorem plain_ofMap (h : ∀ v, Plain (write v)) (m : SortedMap κ ν) : Plain (ofMap keyText write m) := by
  refine .object (fun e he ↦ ?_) fun e he ↦ ?_
  · obtain ⟨e, -, rfl⟩ := List.mem_map.1 he
    rfl
  · obtain ⟨e, -, rfl⟩ := List.mem_map.1 he
    exact h e.2

theorem mapM_map_some {α β : Type} (write : α → β) (read? : β → Option α) (h : ∀ a, read? (write a) = some a)
    (l : List α) : (l.map write).mapM read? = some l := by
  induction l with
  | nil => rfl
  | cons a l ih =>
    rw [List.map_cons, List.mapM_cons, h, ih]
    rfl

theorem map?_ofMap [Std.TransOrd κ] [Std.LawfulEqOrd κ] {key? : String → Option κ} {read? : Json → Option ν}
    (hkey : ∀ k, key? (keyText k) = some k) (hvalue : ∀ v, read? (write v) = some v) (m : SortedMap κ ν) :
    (ofMap keyText write m).map? key? read? = some m := by
  have hentries := mapM_map_some (fun e : κ × ν ↦ (some (keyText e.1), write e.2))
    (fun m : Option String × Json ↦ do some (← m.1.bind key?, ← read? m.2)) (fun e ↦ by simp [hkey, hvalue])
    m.entries
  rw [ofMap, map?, hentries]
  exact congrArg some m.ofList_entries

end Maps

theorem word64?_nat {n : Nat} (h : n < UInt64.size) : (nat n).word64? = some n := by
  obtain ⟨c, ds, hds, -⟩ := exists_toDigits n
  have hvalue := Numeral.value?_print (by decide : 1 < 10) (by decide) n
  rw [Numeral.print, hds] at hvalue
  simp [nat, word64?, hds, Numeral.plain?, hvalue, h]

end Json

theorem Path.ofJson?_text (p : Path) : ofJson? (.str p.text) = some p := by
  rw [ofJson?, Json.str, Json.string?, Option.bind_some, p.parse_text]
  rfl

namespace RevisionMap

theorem plain_toJson (m : RevisionMap) : Json.Plain (toJson m) :=
  Json.plain_ofMap _ _ Json.Plain.str m

theorem ofJson?_toJson (m : RevisionMap) : ofJson? (toJson m) = some m :=
  Json.map?_ofMap _ Json.str Revision.parse?_text (fun _ ↦ rfl) m

end RevisionMap

namespace Document

theorem plain_toJson (d : Document) : Json.Plain d.toJson := by
  refine Json.plain_record ?_
  simp only [List.forall_mem_cons, List.not_mem_nil, false_imp_iff, implies_true, and_true]
  exact ⟨.str _, .str _, Json.plain_ofMap _ _ RevisionMap.plain_toJson _, .bool _, .nat _⟩

theorem ofJson?_toJson (d : Document) : ofJson? d.toJson = some d := by
  have hmaps : (Json.ofMap (fun name ↦ name) RevisionMap.toJson d.maps).map? some RevisionMap.ofJson? =
      some d.maps := Json.map?_ofMap _ _ (fun _ ↦ rfl) RevisionMap.ofJson?_toJson d.maps
  have hcount : (Json.nat d.modCount.toNat).word64? = some d.modCount.toNat :=
    Json.word64?_nat d.modCount.toNat_lt_size
  have hfields : d.toJson.fields? ["id", "path", "maps", "deleted_once", "mod_count"] =
      some [some (.str d.id), some (.str d.path.text), some (Json.ofMap (fun name ↦ name) RevisionMap.toJson d.maps),
        some (.bool d.deletedOnce), some (.nat d.modCount.toNat)] := by
    rfl
  unfold ofJson?
  rw [hfields]
  simp only [Json.str, Json.string?, hmaps, Json.field?, Json.bool?, hcount, Option.bind_eq_bind, Option.bind_some,
    UInt64.ofNat_toNat]
  rw [← Json.str, d.path.ofJson?_text]
  rfl

end Document

namespace Store

theorem plain_toJson (s : Store) : Json.Plain s.toJson := by
  refine Json.plain_record ?_
  simp only [List.forall_mem_cons, List.not_mem_nil, false_imp_iff, implies_true, and_true]
  exact Json.plain_ofMap _ _ Document.plain_toJson _

theorem ofJson?_toJson (s : Store) : ofJson? s.toJson = some { s with available := true } := by
  have hdocuments : (Json.ofMap (fun key ↦ key) Document.toJson s.documents).map? some Document.ofJson? =
      some s.documents := Json.map?_ofMap _ _ (fun _ ↦ rfl) Document.ofJson?_toJson s.documents
  have hfields : s.toJson.fields? ["documents"] =
      some [some (Json.ofMap (fun key ↦ key) Document.toJson s.documents)] := rfl
  unfold ofJson?
  rw [hfields]
  simp only [hdocuments, Option.bind_eq_bind, Option.bind_some]

/-- A snapshot is read back, and the store is available then. -/
theorem restore_snapshot (s : Store) : restore s.snapshot = .ok { s with available := true } := by
  rw [restore, snapshot, Json.parse?_text s.plain_toJson, Option.bind_some, ofJson?_toJson]

/-- Every question to the store `t` is answered as by `s`, and every sweep ends alike, with the same log. -/
structure AnswersAlike (s t : Store) : Prop where
  find : ∀ id, t.find id = s.find id
  changedBy : ∀ c, t.changedBy c = s.changedBy c
  checkpoints : t.checkpoints = s.checkpoints
  sweep : ∀ (m : Member) config clock, m.sweep config clock t = m.sweep config clock s

/-- A restored store is available and has the documents that were saved, under the same keys. After any further
history it answers like the saved store, if that had been available. Two stores have one snapshot exactly if they
have the same documents. -/
theorem exists_restored (s : Store) : ∃ t, restore s.snapshot = .ok t ∧ t.available = true ∧
    t.documents = s.documents ∧
    (∀ steps, ((s.setAvailable true).afterSteps steps).AnswersAlike (t.afterSteps steps)) ∧
    ∀ s' : Store, s'.snapshot = s.snapshot ↔ s'.documents = s.documents := by
  refine ⟨s.setAvailable true, s.restore_snapshot, rfl, rfl,
    fun steps ↦ ⟨fun _ ↦ rfl, fun _ ↦ rfl, rfl, fun _ _ _ ↦ rfl⟩, fun s' ↦ ⟨fun h ↦ ?_, fun h ↦ ?_⟩⟩
  · have hrestored := s'.restore_snapshot
    rw [h, restore_snapshot] at hrestored
    exact (congrArg documents (Except.ok.inj hrestored)).symm
  · rw [snapshot, snapshot, toJson, toJson, h]

end Store

end NodeStore
