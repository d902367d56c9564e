import NodeStore.Document

namespace NodeStore

namespace SortedMap

universe u v

variable {κ : Type u} {ν : Type v} [Ord κ]

theorem mem_keys_iff [Std.TransOrd κ] [Std.LawfulEqOrd κ] {m : SortedMap κ ν} {k : κ} :
    k ∈ m.keys ↔ (m.get? k).isSome := by
  rw [keys, List.mem_map, Option.isSome_iff_exists]
  constructor
  · intro hx
    obtain ⟨⟨l, v⟩, h, rfl⟩ := hx
    exact ⟨v, mem_entries_iff.1 h⟩
  · intro hx
    obtain ⟨v, h⟩ := hx
    exact ⟨(k, v), mem_entries_iff.2 h, rfl⟩

theorem mem_values_iff [Std.TransOrd κ] [Std.LawfulEqOrd κ] {m : SortedMap κ ν} {v : ν} :
    v ∈ m.values ↔ ∃ k, m.get? k = some v := by
  rw [values, List.mem_map]
  constructor
  · intro hx
    obtain ⟨⟨k, w⟩, h, rfl⟩ := hx
    exact ⟨k, mem_entries_iff.1 h⟩
  · intro hx
    obtain ⟨k, h⟩ := hx
    exact ⟨(k, v), mem_entries_iff.2 h, rfl⟩

theorem isEmpty_iff [Std.TransOrd κ] [Std.LawfulEqOrd κ] {m : SortedMap κ ν} :
    m.isEmpty ↔ ∀ k, m.get? k = none := by
  rw [isEmpty, List.isEmpty_iff, List.eq_nil_iff_forall_not_mem]
  constructor
  · intro h k
    refine Option.eq_none_iff_forall_ne_some.2 fun v hv ↦ ?_
    exact h (k, v) (mem_entries_iff.2 hv)
  · rintro h ⟨k, v⟩ hv
    simpa [h k] using mem_entries_iff.1 hv

theorem keys_nodup [Std.LawfulEqOrd κ] (m : SortedMap κ ν) : m.keys.Nodup := by
  rw [keys, List.nodup_iff_pairwise_ne, List.pairwise_map]
  refine m.ascending.imp fun h eq ↦ ?_
  rw [eq, Std.ReflOrd.compare_self] at h
  cases h

theorem mem_keys_ofList [Std.TransOrd κ] [Std.LawfulEqOrd κ] {l : List (κ × ν)} {k : κ} :
    k ∈ (ofList l).keys ↔ k ∈ l.map (·.1) := by
  classical
  have hfold (m : SortedMap κ ν) : ((l.foldl (fun m e ↦ m.insert e.1 e.2) m).get? k).isSome ↔
      (m.get? k).isSome ∨ k ∈ l.map (·.1) := by
    induction l generalizing m with
    | nil => simp
    | cons e l ih =>
      rw [List.foldl_cons, ih, get?_insert, List.map_cons, List.mem_cons]
      by_cases h : k = e.1 <;> simp [h]
  rw [mem_keys_iff, ofList, hfold, get?_empty, Option.isSome_none]
  simp

theorem mem_of_get?_ofList [Std.TransOrd κ] [Std.LawfulEqOrd κ] {l : List (κ × ν)} {k : κ} {v : ν}
    (h : (ofList l).get? k = some v) : (k, v) ∈ l := by
  classical
  have hfold (m : SortedMap κ ν) (hm : (l.foldl (fun m e ↦ m.insert e.1 e.2) m).get? k = some v) :
      (k, v) ∈ l ∨ m.get? k = some v := by
    clear h
    induction l generalizing m with
    | nil => exact .inr hm
    | cons e l ih =>
      rcases ih (m.insert e.1 e.2) hm with hl | hm'
      · exact .inl (List.mem_cons_of_mem _ hl)
      · rw [get?_insert] at hm'
        split at hm'
        next hk => exact .inl (by rw [hk, ← Option.some.inj hm']; exact List.mem_cons_self)
        next => exact .inr hm'
  exact (hfold empty h).resolve_right (by simp)

end SortedMap

def Change.effect : Change → Option String → Option String
  | insertEntry value, _ => some value
  | eraseEntry, _ => none
  | setFlag _, old => old
  | raiseEntry r, old =>
    match old.bind Revision.parse? with
    | some current => if r.isAfter current then some r.text else old
    | none => some r.text

namespace Document

variable (d : Document) (name name' : String) (r r' : Revision)

theorem valueAt?_eq_some_iff {d : Document} {name : String} {r : Revision} {v : String} :
    d.valueAt? name r = some v ↔ ∃ m, d.maps.get? name = some m ∧ m.get? r = some v := by
  rw [valueAt?, map?, Option.bind_eq_some_iff]

theorem mem_keys_map?_iff {d : Document} {name : String} {r : Revision} :
    r ∈ ((d.map? name).map (·.keys)).getD [] ↔ (d.valueAt? name r).isSome := by
  unfold valueAt?
  cases d.map? name with
  | none => simp
  | some m => simpa using SortedMap.mem_keys_iff

theorem mem_revisionsBy {d : Document} {c : UInt32} {r : Revision} : r ∈ d.revisionsBy c ↔
    r.clusterId = c ∧ ∃ name, name ≠ Property.sweepRevision ∧ (d.valueAt? name r).isSome := by
  rw [revisionsBy, SortedMap.mem_keys_ofList]
  simp only [List.map_map, List.mem_map, List.mem_filter, List.mem_flatMap, SortedMap.mem_keys_iff, beq_iff_eq,
    bne_iff_ne, Function.comp_apply, exists_eq_right]
  constructor
  · intro hx
    obtain ⟨⟨⟨name, m⟩, ⟨he, hname⟩, hr⟩, hc⟩ := hx
    refine ⟨hc, name, hname, ?_⟩
    rwa [valueAt?, map?, SortedMap.mem_entries_iff.1 he]
  · intro hx
    obtain ⟨hc, name, hname, hr⟩ := hx
    obtain ⟨v, hv⟩ := Option.isSome_iff_exists.1 hr
    obtain ⟨m, hm, hmr⟩ := valueAt?_eq_some_iff.1 hv
    exact ⟨⟨(name, m), ⟨SortedMap.mem_entries_iff.2 hm, hname⟩, Option.isSome_iff_exists.2 ⟨v, hmr⟩⟩, hc⟩

theorem valueAt?_insertEntry (v : String) : (d.insertEntry name r v).valueAt? name' r' =
    if name' = name ∧ r' = r then some v else d.valueAt? name' r' := by
  simp only [valueAt?, map?, insertEntry, SortedMap.get?_insert]
  by_cases hn : name' = name
  · subst hn
    cases hm : d.maps.get? name' <;> simp [SortedMap.get?_insert]
  · simp [hn]

theorem valueAt?_eraseEntry : (d.eraseEntry name r).valueAt? name' r' =
    if name' = name ∧ r' = r then none else d.valueAt? name' r' := by
  unfold eraseEntry
  split
  next hm =>
    split
    next h => rw [h.1, valueAt?, hm, Option.bind_none]
    next => rfl
  next m hm =>
    rw [map?] at hm
    split
    next he =>
      have gone := SortedMap.isEmpty_iff.1 he
      simp only [valueAt?, map?, SortedMap.get?_erase]
      by_cases hn : name' = name
      · subst hn
        have h := gone r'
        rw [SortedMap.get?_erase] at h
        by_cases hr : r' = r <;> simp_all
      · simp [hn]
    next =>
      simp only [valueAt?, map?, SortedMap.get?_insert]
      by_cases hn : name' = name
      · subst hn
        simp [hm, SortedMap.get?_erase]
      · simp [hn]

theorem valueAt?_raiseEntry (x : Revision) : (d.raiseEntry name r x).valueAt? name' r' =
    if name' = name ∧ r' = r then (Change.raiseEntry x).effect (d.valueAt? name r)
    else d.valueAt? name' r' := by
  cases hc : (d.valueAt? name r).bind Revision.parse? with
  | none => simp only [raiseEntry, Change.effect, hc, valueAt?_insertEntry]
  | some current =>
    by_cases hx : x.isAfter current
    · simp only [raiseEntry, Change.effect, hc, hx, if_true, valueAt?_insertEntry]
    · simp only [raiseEntry, Change.effect, hc, hx, Bool.false_eq_true, if_false]
      split
      next h => rw [h.1, h.2]
      next => rfl

theorem valueAt?_applyChange (k : Key) (c : Change) : (d.applyChange k c).valueAt? name r =
    if k = .entry name r then c.effect (d.valueAt? name r) else d.valueAt? name r := by
  obtain ⟨name', _ | r'⟩ := k
  · cases c <;> simp only [applyChange, Option.elim, Key.entry, Key.mk.injEq, reduceCtorEq, and_false,
      if_false]
    split <;> rfl
  · have swap : (Key.mk name' (some r') = .entry name r) ↔ (name = name' ∧ r = r') := by
      rw [Key.entry, Key.mk.injEq, Option.some_inj]
      exact and_congr eq_comm eq_comm
    cases c <;> simp only [applyChange, Option.elim, valueAt?_insertEntry, valueAt?_eraseEntry,
      valueAt?_raiseEntry, swap]
    · rfl
    · rfl
    · split <;> split <;> rfl
    · split
      next h => rw [h.1, h.2]
      next => rfl

theorem valueAt?_foldl_of_not_mem {l : List (Key × Change)} (h : ∀ e ∈ l, e.1 ≠ .entry name r) :
    (l.foldl (fun d e ↦ d.applyChange e.1 e.2) d).valueAt? name r = d.valueAt? name r := by
  induction l generalizing d with
  | nil => rfl
  | cons e l ih =>
    rw [List.foldl_cons, ih _ fun e he ↦ h e (List.mem_cons_of_mem _ he), valueAt?_applyChange,
      if_neg (h e List.mem_cons_self)]

/-- An update leaves at each entry the effect of its change there. The keys of an update are distinct, so no
other change touches the entry. -/
theorem valueAt?_apply (u : Update) : (d.apply u).valueAt? name r =
    match u.change? name (some r) with
    | some c => c.effect (d.valueAt? name r)
    | none => d.valueAt? name r := by
  have hfold : (d.apply u).valueAt? name r =
      (u.changes.entries.foldl (fun d e ↦ d.applyChange e.1 e.2) d).valueAt? name r := rfl
  rw [hfold, Update.change?]
  cases hc : u.changes.get? ⟨name, some r⟩ with
  | none =>
    refine valueAt?_foldl_of_not_mem d name r fun e he ↦ ?_
    exact (SortedMap.get?_eq_none_iff.1 hc e he).symm
  | some c =>
    obtain ⟨before, after, hl⟩ := List.append_of_mem (SortedMap.mem_entries_iff.2 hc)
    have distinct := u.changes.keys_nodup
    rw [SortedMap.keys, hl, List.map_append, List.map_cons, List.nodup_append, List.nodup_cons] at distinct
    have hbefore : ∀ e ∈ before, e.1 ≠ Key.entry name r := fun e he ↦
      distinct.2.2 e.1 (List.mem_map_of_mem he) _ List.mem_cons_self
    have hafter : ∀ e ∈ after, e.1 ≠ Key.entry name r := fun e he eq ↦
      distinct.2.1.1 (List.mem_map.2 ⟨e, he, eq⟩)
    rw [hl, List.foldl_append, List.foldl_cons, valueAt?_foldl_of_not_mem _ _ _ hafter,
      valueAt?_applyChange, valueAt?_foldl_of_not_mem _ _ _ hbefore]
    exact if_pos rfl

theorem applyChange_eq (k : Key) (c : Change) : ∃ maps flag,
    d.applyChange k c = { d with maps, deletedOnce := flag } ∧ (flag = d.deletedOnce ∨ c = .setFlag flag) := by
  have unchanged : d = { d with maps := d.maps, deletedOnce := d.deletedOnce } := rfl
  cases c with
  | setFlag v =>
    simp only [applyChange]
    split
    · exact ⟨d.maps, v, rfl, .inr rfl⟩
    · exact ⟨_, _, unchanged, .inl rfl⟩
  | insertEntry v =>
    cases hr : k.revision with
    | none => exact ⟨_, _, by rw [applyChange, hr]; exact unchanged, .inl rfl⟩
    | some r => exact ⟨_, _, by rw [applyChange, hr]; rfl, .inl rfl⟩
  | eraseEntry =>
    cases hr : k.revision with
    | none => exact ⟨_, _, by rw [applyChange, hr]; exact unchanged, .inl rfl⟩
    | some r =>
      simp only [applyChange, hr, Option.elim, eraseEntry]
      split
      · exact ⟨_, _, unchanged, .inl rfl⟩
      · split <;> exact ⟨_, _, rfl, .inl rfl⟩
  | raiseEntry x =>
    cases hr : k.revision with
    | none => exact ⟨_, _, by rw [applyChange, hr]; exact unchanged, .inl rfl⟩
    | some r =>
      simp only [applyChange, hr, Option.elim, raiseEntry]
      split
      · split
        · exact ⟨_, _, rfl, .inl rfl⟩
        · exact ⟨_, _, unchanged, .inl rfl⟩
      · exact ⟨_, _, rfl, .inl rfl⟩

theorem foldl_applyChange_eq (l : List (Key × Change)) : ∃ maps flag,
    l.foldl (fun d e ↦ d.applyChange e.1 e.2) d = { d with maps, deletedOnce := flag } ∧
      (flag = d.deletedOnce ∨ ∃ e ∈ l, e.2 = .setFlag flag) := by
  induction l generalizing d with
  | nil => exact ⟨d.maps, d.deletedOnce, rfl, .inl rfl⟩
  | cons e l ih =>
    obtain ⟨maps, flag, he, hflag⟩ := d.applyChange_eq e.1 e.2
    obtain ⟨maps', flag', hl, hflag'⟩ := ih (d.applyChange e.1 e.2)
    refine ⟨maps', flag', by rw [List.foldl_cons, hl, he], ?_⟩
    rcases hflag' with h | ⟨e', he', h⟩
    · rw [he] at h
      subst h
      exact hflag.imp_right fun h ↦ ⟨e, List.mem_cons_self, h⟩
    · exact .inr ⟨e', List.mem_cons_of_mem _ he', h⟩

theorem apply_eq (u : Update) : ∃ maps flag,
    d.apply u = { d with maps, deletedOnce := flag, modCount := d.modCount + 1 } ∧
      (flag = d.deletedOnce ∨ ∃ k, u.changes.get? k = some (.setFlag flag)) := by
  obtain ⟨maps, flag, h, hflag⟩ := d.foldl_applyChange_eq u.changes.entries
  refine ⟨maps, flag, by rw [apply, h], hflag.imp_right fun ⟨e, he, hc⟩ ↦ ⟨e.1, ?_⟩⟩
  rw [← hc]
  exact SortedMap.mem_entries_iff.1 he

@[simp]
theorem id_apply (u : Update) : (d.apply u).id = d.id := by
  obtain ⟨_, _, h, -⟩ := d.apply_eq u
  rw [h]

@[simp]
theorem path_apply (u : Update) : (d.apply u).path = d.path := by
  obtain ⟨_, _, h, -⟩ := d.apply_eq u
  rw [h]

theorem deletedOnce_apply {u : Update} (keeps : ∀ k, u.changes.get? k ≠ some (.setFlag false))
    (hd : d.deletedOnce = true) : (d.apply u).deletedOnce = true := by
  obtain ⟨_, flag, h, hflag⟩ := d.apply_eq u
  rw [h]
  rcases hflag with hflag | ⟨k, hk⟩
  · exact hflag.trans hd
  · cases flag
    · exact absurd hk (keeps k)
    · rfl

end Document

end NodeStore
