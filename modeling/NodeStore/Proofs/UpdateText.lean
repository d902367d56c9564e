import NodeStore.Proofs.Snapshots
import NodeStore.Store.Snapshot

namespace NodeStore

namespace SortedMap

variable {κ ν : Type} [Ord κ] [Std.TransOrd κ] [Std.LawfulEqOrd κ] [DecidableEq κ]

theorem get?_eq_lookup (m : SortedMap κ ν) (k : κ) : m.get? k = m.entries.lookup k := by
  obtain ⟨l, h⟩ := m
  simp only [get?]
  clear h
  induction l with
  | nil => rfl
  | cons e l ih =>
    obtain ⟨k', v⟩ := e
    rw [List.find?_cons, List.lookup_cons, ← ih]
    by_cases same : k = k'
    · simp [same]
    · have hcompare : compare k k' ≠ .eq := fun h ↦ same (Std.LawfulEqOrd.eq_of_compare h)
      rw [beq_false_of_ne same, beq_false_of_ne hcompare]

theorem get?_ofList (l : List (κ × ν)) (k : κ) : (ofList l).get? k = l.reverse.lookup k := by
  induction l using List.reverseRecOn with
  | nil => rfl
  | append_singleton l e ih =>
    obtain ⟨k', v⟩ := e
    have hlast : ofList (l ++ [(k', v)]) = (ofList l).insert k' v := by
      rw [ofList, List.foldl_append]
      rfl
    rw [hlast, List.reverse_append, List.reverse_singleton, List.singleton_append, List.lookup_cons]
    by_cases same : k = k'
    · simp [same]
    · rw [get?_insert_of_ne _ _ same, ih, beq_false_of_ne same]

end SortedMap

theorem Revision.ofJson?_toJson (r : Revision) : ofJson? r.toJson = some r := r.parse?_text

theorem Revision.plain_toJson (r : Revision) : Json.Plain r.toJson := .str r.text

namespace Key

inductive Before : Key → Key → Prop
  | name {k l : Key} (h : k.name < l.name) : Before k l
  | unrevised {name : String} {r : Revision} : Before ⟨name, none⟩ ⟨name, some r⟩
  | revision {name : String} {r r' : Revision} (h : compare r r' = .lt) : Before ⟨name, some r⟩ ⟨name, some r'⟩

theorem compare_eq_lt {k l : Key} : compare k l = .lt ↔ k.Before l := by
  have hcompare : compare k l = (compare k.name l.name).then (compare k.revision l.revision) := rfl
  have hname : compare k.name l.name = .lt ↔ k.name < l.name := compareOfLessAndEq_eq_lt
  rw [hcompare, Ordering.then_eq_lt, hname]
  constructor
  · rintro (h | ⟨hname, hrevision⟩)
    · exact .name h
    · obtain ⟨name, r⟩ := k
      obtain ⟨name', r'⟩ := l
      obtain rfl : name = name' := Std.LawfulEqOrd.eq_of_compare hname
      cases r with
      | none =>
        cases r' with
        | none => cases hrevision
        | some r' => exact .unrevised
      | some r =>
        cases r' with
        | none => cases hrevision
        | some r' => exact .revision hrevision
  · intro h
    cases h with
    | name h => exact .inl h
    | unrevised => exact .inr ⟨Std.ReflOrd.compare_self, rfl⟩
    | revision h => exact .inr ⟨Std.ReflOrd.compare_self, h⟩

theorem ofJson?_toJson (k : Key) : ofJson? k.toJson = some k := by
  obtain ⟨name, r⟩ := k
  cases r with
  | none => rfl
  | some r =>
    have hr : Json.nullable? Revision.ofJson? r.toJson = some (some r) := congrArg (Option.map some) r.ofJson?_toJson
    change (Json.nullable? Revision.ofJson? r.toJson).bind (fun r' ↦ some (Key.mk name r')) = _
    rw [hr]
    rfl

theorem plain_toJson (k : Key) : Json.Plain k.toJson := by
  refine Json.plain_record ?_
  simp only [List.forall_mem_cons, List.not_mem_nil, false_imp_iff, implies_true, and_true]
  refine ⟨.str _, ?_⟩
  cases k.revision with
  | none => exact .null
  | some r => exact r.plain_toJson

end Key

theorem Change.ofJson?_toJson (c : Change) : ofJson? c.toJson = some c := by
  cases c with
  | raiseEntry r => exact congrArg (Option.map raiseEntry) r.ofJson?_toJson
  | _ => rfl

theorem Change.plain_toJson (c : Change) : Json.Plain c.toJson := by
  cases c with
  | eraseEntry => exact .str _
  | insertEntry v => exact Json.plain_record fun m hm ↦ by rw [List.mem_singleton.1 hm]; exact .str v
  | setFlag b => exact Json.plain_record fun m hm ↦ by rw [List.mem_singleton.1 hm]; exact .bool b
  | raiseEntry r => exact Json.plain_record fun m hm ↦ by rw [List.mem_singleton.1 hm]; exact r.plain_toJson

theorem Condition.ofJson?_toJson (c : Condition) : ofJson? c.toJson = some c := by
  cases c <;> rfl

theorem Condition.plain_toJson (c : Condition) : Json.Plain c.toJson := by
  cases c with
  | present => exact .str _
  | absent => exact .str _
  | equals v => exact Json.plain_record fun m hm ↦ by rw [List.mem_singleton.1 hm]; exact .str v

namespace Key

section Pairs

variable {ν : Type} (write : ν → Json)

def listToJson (ps : List (Key × ν)) : Json := .array (ps.map fun p ↦ .array [p.1.toJson, write p.2])

theorem plain_listToJson (h : ∀ v, Json.Plain (write v)) (ps : List (Key × ν)) :
    Json.Plain (listToJson write ps) := by
  refine .array fun item hitem ↦ ?_
  obtain ⟨p, -, rfl⟩ := List.mem_map.1 hitem
  refine .array ?_
  simp only [List.forall_mem_cons, List.not_mem_nil, false_imp_iff, implies_true, and_true]
  exact ⟨p.1.plain_toJson, h p.2⟩

theorem list?_listToJson {read? : Json → Option ν} (h : ∀ v, read? (write v) = some v) (ps : List (Key × ν)) :
    (listToJson write ps).list? (Json.pair? ofJson? read?) = some ps := by
  refine Json.mapM_map_some _ _ (fun p ↦ ?_) ps
  rw [Json.pair?, ofJson?_toJson, h]
  rfl

end Pairs

end Key

namespace Update

def listing (id : String) (isNew : Bool) (cs : List (Key × Change)) (ds : List (Key × Condition)) : Json :=
  .record [("id", .str id), ("is_new", .bool isNew), ("changes", Key.listToJson Change.toJson cs),
    ("conditions", Key.listToJson Condition.toJson ds)]

theorem plain_listing (id : String) (isNew : Bool) (cs : List (Key × Change)) (ds : List (Key × Condition)) :
    Json.Plain (listing id isNew cs ds) := by
  refine Json.plain_record ?_
  simp only [List.forall_mem_cons, List.not_mem_nil, false_imp_iff, implies_true, and_true]
  exact ⟨.str _, .bool _, Key.plain_listToJson _ Change.plain_toJson cs,
    Key.plain_listToJson _ Condition.plain_toJson ds⟩

theorem toJson_eq_listing (u : Update) :
    u.toJson = listing u.id u.isNew u.changes.entries u.conditions.entries := rfl

/-- The text is an update with this id and this mark of a new document, and these are its pairs in the order in
which the text has them. Members may come in any order, and blanks anywhere. -/
def Lists (text id : String) (isNew : Bool) (cs : List (Key × Change)) (ds : List (Key × Condition)) : Prop :=
  ∃ i n c d : Json,
    (Json.parse? text).bind (Json.fields? ["id", "is_new", "changes", "conditions"]) =
      some [some i, some n, some c, some d] ∧
    i.string? = some id ∧ n.bool? = some isNew ∧
    c.list? (Json.pair? Key.ofJson? Change.ofJson?) = some cs ∧
    d.list? (Json.pair? Key.ofJson? Condition.ofJson?) = some ds

theorem lists_listing (id : String) (isNew : Bool) (cs : List (Key × Change)) (ds : List (Key × Condition)) :
    Lists (listing id isNew cs ds).text id isNew cs ds := by
  refine ⟨.str id, .bool isNew, Key.listToJson Change.toJson cs, Key.listToJson Condition.toJson ds, ?_, rfl, rfl,
    Key.list?_listToJson _ Change.ofJson?_toJson cs, Key.list?_listToJson _ Condition.ofJson?_toJson ds⟩
  rw [Json.parse?_text (plain_listing id isNew cs ds)]
  rfl

theorem Lists.parse?_eq {text id : String} {isNew : Bool} {cs : List (Key × Change)} {ds : List (Key × Condition)}
    (h : Lists text id isNew cs ds) : parse? text = some ⟨id, isNew, .ofList cs, .ofList ds⟩ := by
  obtain ⟨i, n, c, d, hfields, hid, hnew, hchanges, hconditions⟩ := h
  obtain ⟨j, hj, hfields⟩ := Option.bind_eq_some_iff.1 hfields
  rw [parse?, hj, Option.bind_some, ofJson?, hfields]
  simp only [Key.pairsOfJson?, hid, hnew, hchanges, hconditions, Option.map_some]
  rfl

theorem exists_lists {text : String} {u : Update} (h : parse? text = some u) :
    ∃ cs ds, Lists text u.id u.isNew cs ds := by
  obtain ⟨j, hj, h⟩ := Option.bind_eq_some_iff.1 h
  rw [ofJson?] at h
  split at h
  next i n c d hfields =>
    simp only [Key.pairsOfJson?, Option.bind_eq_bind, Option.bind_eq_some_iff, Option.map_eq_some_iff] at h
    obtain ⟨id, hid, isNew, hnew, _, ⟨cs, hchanges, -⟩, _, ⟨ds, hconditions, -⟩, hu⟩ := h
    obtain rfl := Option.some.inj hu
    refine ⟨cs, ds, i, n, c, d, ?_, hid, hnew, hchanges, hconditions⟩
    rw [hj, Option.bind_some, hfields]
  next => cases h

/-- A written update is read back. -/
theorem parse?_text (u : Update) : parse? u.text = some u := by
  have hlists := lists_listing u.id u.isNew u.changes.entries u.conditions.entries
  rw [text, toJson_eq_listing, hlists.parse?_eq, SortedMap.ofList_entries, SortedMap.ofList_entries]

end Update

/-- The pairs of `ps`, of each key the last, in key order. -/
structure LastInOrder {ν : Type} (ps qs : List (Key × ν)) : Prop where
  ascending : qs.Pairwise fun p q ↦ p.1.Before q.1
  lookup : ∀ k, qs.lookup k = ps.reverse.lookup k

theorem SortedMap.lastInOrder_ofList {ν : Type} (ps : List (Key × ν)) : LastInOrder ps (ofList ps).entries where
  ascending := (ofList ps).ascending.imp Key.compare_eq_lt.1
  lookup k := by rw [← get?_eq_lookup, get?_ofList]

namespace Update

/-- A written update is read back, and its text has the changes and the conditions in strictly ascending key
order. Every text that is read lists them in some order: it is read as the update in which the last pair of each key
counts, and that is written with the last pair of each key, in key order. -/
theorem written_in_key_order :
    (∀ u : Update, parse? u.text = some u ∧ ∃ cs ds,
      u.text = (listing u.id u.isNew cs ds).text ∧
      cs.Pairwise (fun p q ↦ p.1.Before q.1) ∧ ds.Pairwise (fun p q ↦ p.1.Before q.1) ∧
      ∀ name r, u.change? name r = cs.lookup ⟨name, r⟩ ∧ u.condition? name r = ds.lookup ⟨name, r⟩) ∧
    (∀ text u, parse? text = some u → ∃ cs ds, Lists text u.id u.isNew cs ds) ∧
    ∀ id isNew cs ds, Lists (listing id isNew cs ds).text id isNew cs ds ∧
      ∀ text, Lists text id isNew cs ds →
        ∃ u cs' ds', parse? text = some u ∧ u.id = id ∧ u.isNew = isNew ∧
          (∀ name r, u.change? name r = cs.reverse.lookup ⟨name, r⟩ ∧
            u.condition? name r = ds.reverse.lookup ⟨name, r⟩) ∧
          u.text = (listing id isNew cs' ds').text ∧ LastInOrder cs cs' ∧ LastInOrder ds ds' := by
  refine ⟨fun u ↦ ⟨u.parse?_text, u.changes.entries, u.conditions.entries, ?_, ?_, ?_, fun name r ↦ ⟨?_, ?_⟩⟩,
    fun _ _ ↦ exists_lists, fun id isNew cs ds ↦ ⟨lists_listing id isNew cs ds, fun text h ↦ ?_⟩⟩
  · rw [Update.text, toJson_eq_listing]
  · exact u.changes.ascending.imp Key.compare_eq_lt.1
  · exact u.conditions.ascending.imp Key.compare_eq_lt.1
  · exact u.changes.get?_eq_lookup _
  · exact u.conditions.get?_eq_lookup _
  · refine ⟨⟨id, isNew, .ofList cs, .ofList ds⟩, _, _, h.parse?_eq, rfl, rfl, fun name r ↦ ⟨?_, ?_⟩, ?_,
      SortedMap.lastInOrder_ofList cs, SortedMap.lastInOrder_ofList ds⟩
    · exact SortedMap.get?_ofList cs _
    · exact SortedMap.get?_ofList ds _
    · rw [Update.text, toJson_eq_listing]

theorem written_in_key_order_repeated :
    let changes := [(⟨"p", none⟩, .setFlag true), (.entry "b" (.onTrunk 2 0 1), .eraseEntry),
      (⟨"p", none⟩, .setFlag false)]
    Lists (listing "1:/a" false changes []).text "1:/a" false changes [] ∧
      ∃ u, parse? (listing "1:/a" false changes []).text = some u ∧ u.change? "p" none = some (.setFlag false) := by
  intro changes
  have hlists := (written_in_key_order.2.2 "1:/a" false changes []).1
  obtain ⟨u, _, _, hread, -, -, hlookup, -⟩ := (written_in_key_order.2.2 "1:/a" false changes []).2 _ hlists
  exact ⟨hlists, u, hread, (hlookup "p" none).1.trans rfl⟩

end Update

end NodeStore
