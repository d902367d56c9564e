namespace NodeStore

universe u v

/-- A finite map: its entries, in strictly ascending key order. -/
structure SortedMap (κ : Type u) (ν : Type v) [Ord κ] where
  entries : List (κ × ν)
  ascending : entries.Pairwise fun a b ↦ compare a.1 b.1 = .lt
deriving DecidableEq

namespace SortedMap

variable {κ : Type u} {ν : Type v} [Ord κ]

def empty : SortedMap κ ν := ⟨[], .nil⟩

instance : Inhabited (SortedMap κ ν) := ⟨empty⟩

def get? (m : SortedMap κ ν) (k : κ) : Option ν :=
  (m.entries.find? fun e ↦ compare k e.1 == .eq).map (·.2)

def contains (m : SortedMap κ ν) (k : κ) : Bool := (m.get? k).isSome

def keys (m : SortedMap κ ν) : List κ := m.entries.map (·.1)

def values (m : SortedMap κ ν) : List ν := m.entries.map (·.2)

def size (m : SortedMap κ ν) : Nat := m.entries.length

def isEmpty (m : SortedMap κ ν) : Bool := m.entries.isEmpty

def insertEntry (k : κ) (v : ν) : List (κ × ν) → List (κ × ν)
  | [] => [(k, v)]
  | e :: rest =>
    match compare k e.1 with
    | .lt => (k, v) :: e :: rest
    | .eq => (k, v) :: rest
    | .gt => e :: insertEntry k v rest

theorem mem_insertEntry {k : κ} {v : ν} {l : List (κ × ν)} {e : κ × ν}
    (h : e ∈ insertEntry k v l) : e = (k, v) ∨ e ∈ l := by
  induction l with
  | nil => simpa [insertEntry] using h
  | cons a rest ih =>
    unfold insertEntry at h
    split at h <;> simp only [List.mem_cons] at h ⊢
    · exact h
    · exact h.imp_right .inr
    · rcases h with h | h
      · exact .inr (.inl h)
      · exact (ih h).imp_right .inr

theorem pairwise_insertEntry [Std.TransOrd κ] [Std.LawfulEqOrd κ] (k : κ) (v : ν) {l : List (κ × ν)}
    (h : l.Pairwise fun a b ↦ compare a.1 b.1 = .lt) :
    (insertEntry k v l).Pairwise fun a b ↦ compare a.1 b.1 = .lt := by
  induction l with
  | nil => simp [insertEntry]
  | cons e rest ih =>
    obtain ⟨first, tail⟩ := List.pairwise_cons.1 h
    unfold insertEntry
    split
    next lt =>
      refine List.pairwise_cons.2 ⟨fun b hb ↦ ?_, h⟩
      rcases List.mem_cons.1 hb with rfl | hb
      · exact lt
      · exact Std.TransCmp.lt_trans lt (first b hb)
    next eq =>
      have same : k = e.1 := Std.LawfulEqOrd.eq_of_compare eq
      exact List.pairwise_cons.2 ⟨fun b hb ↦ by simpa [same] using first b hb, tail⟩
    next gt =>
      refine List.pairwise_cons.2 ⟨fun b hb ↦ ?_, ih tail⟩
      rcases mem_insertEntry hb with rfl | hb
      · exact Std.OrientedCmp.lt_of_gt gt
      · exact first b hb

def insert [Std.TransOrd κ] [Std.LawfulEqOrd κ] (m : SortedMap κ ν) (k : κ) (v : ν) : SortedMap κ ν :=
  ⟨insertEntry k v m.entries, pairwise_insertEntry k v m.ascending⟩

def erase (m : SortedMap κ ν) (k : κ) : SortedMap κ ν :=
  ⟨m.entries.filter fun e ↦ compare k e.1 != .eq, m.ascending.filter _⟩

/-- The map of a list of entries; of entries with one key the last counts. -/
def ofList [Std.TransOrd κ] [Std.LawfulEqOrd κ] (l : List (κ × ν)) : SortedMap κ ν :=
  l.foldl (fun m e ↦ m.insert e.1 e.2) empty

end SortedMap

end NodeStore

namespace NodeStore.SortedMap

universe u v

variable {κ : Type u} {ν : Type v} [Ord κ]

@[simp]
theorem get?_empty (k : κ) : (empty : SortedMap κ ν).get? k = none := rfl

theorem get?_eq_none_iff [Std.LawfulEqOrd κ] {m : SortedMap κ ν} {k : κ} :
    m.get? k = none ↔ ∀ e ∈ m.entries, k ≠ e.1 := by
  simp [get?, List.find?_eq_none]

theorem mem_entries_iff [Std.TransOrd κ] [Std.LawfulEqOrd κ] {m : SortedMap κ ν} {k : κ} {v : ν} :
    (k, v) ∈ m.entries ↔ m.get? k = some v := by
  obtain ⟨l, h⟩ := m
  simp only [get?]
  induction l with
  | nil => simp
  | cons e rest ih =>
    obtain ⟨first, tail⟩ := List.pairwise_cons.1 h
    by_cases same : k = e.1
    · subst same
      have other : ∀ v, (e.1, v) ∉ rest := fun v hv ↦ by simpa using first _ hv
      simp [other, Prod.ext_iff, eq_comm]
    · have : (k, v) ≠ e := fun eq ↦ same (by simp [← eq])
      simpa [List.find?_cons, same, this] using ih tail

theorem get?_insert [Std.TransOrd κ] [Std.LawfulEqOrd κ] (m : SortedMap κ ν) (k l : κ) (v : ν)
    [Decidable (l = k)] : (m.insert k v).get? l = if l = k then some v else m.get? l := by
  obtain ⟨es, h⟩ := m
  simp only [get?, insert]
  clear h
  induction es with
  | nil => by_cases same : l = k <;> simp [insertEntry, same]
  | cons e rest ih =>
    unfold insertEntry
    split
    next => by_cases same : l = k <;> simp [same]
    next eq =>
      have : k = e.1 := Std.LawfulEqOrd.eq_of_compare eq
      subst this
      by_cases same : l = e.1 <;> simp [same]
    next gt =>
      have apart : k ≠ e.1 := fun eq ↦ by simp [← eq] at gt
      by_cases here : l = e.1
      · subst here
        simp [Ne.symm apart]
      · simpa [List.find?_cons, here] using ih

@[simp]
theorem get?_insert_self [Std.TransOrd κ] [Std.LawfulEqOrd κ] (m : SortedMap κ ν) (k : κ) (v : ν) :
    (m.insert k v).get? k = some v := by
  classical simp [get?_insert]

theorem get?_insert_of_ne [Std.TransOrd κ] [Std.LawfulEqOrd κ] (m : SortedMap κ ν) {k l : κ} (v : ν)
    (h : l ≠ k) : (m.insert k v).get? l = m.get? l := by
  classical simp [get?_insert, h]

theorem get?_erase [Std.LawfulEqOrd κ] (m : SortedMap κ ν) (k l : κ) [Decidable (l = k)] :
    (m.erase k).get? l = if l = k then none else m.get? l := by
  simp only [get?, erase, List.find?_filter]
  by_cases same : l = k
  · subst same
    simp
  · have : ∀ e : κ × ν, l = e.1 → k ≠ e.1 := fun e h h' ↦ same (h.trans h'.symm)
    simp only [same, if_false]
    congr 2
    funext e
    by_cases here : l = e.1
    · simp [here, this e here]
    · simp [here]

@[simp]
theorem get?_erase_self [Std.LawfulEqOrd κ] (m : SortedMap κ ν) (k : κ) : (m.erase k).get? k = none := by
  classical simp [get?_erase]

theorem get?_erase_of_ne [Std.LawfulEqOrd κ] (m : SortedMap κ ν) {k l : κ} (h : l ≠ k) :
    (m.erase k).get? l = m.get? l := by
  classical simp [get?_erase, h]

theorem ext_get? [Std.TransOrd κ] [Std.LawfulEqOrd κ] {m n : SortedMap κ ν}
    (h : ∀ k, m.get? k = n.get? k) : m = n := by
  have same : ∀ e, e ∈ m.entries ↔ e ∈ n.entries := fun e ↦ by
    rw [show e = (e.1, e.2) from rfl, mem_entries_iff, mem_entries_iff, h]
  obtain ⟨l, hl⟩ := m
  obtain ⟨r, hr⟩ := n
  congr 1
  simp only at same
  clear h
  induction l generalizing r with
  | nil => exact (List.eq_nil_iff_forall_not_mem.2 fun e he ↦ by simpa using (same e).2 he).symm
  | cons a l ih =>
    cases r with
    | nil => exact absurd ((same a).1 (by simp)) (by simp)
    | cons b r =>
      obtain ⟨firstL, tailL⟩ := List.pairwise_cons.1 hl
      obtain ⟨firstR, tailR⟩ := List.pairwise_cons.1 hr
      have heads : a = b := by
        rcases List.mem_cons.1 ((same a).1 (by simp)) with h | h
        · exact h
        · rcases List.mem_cons.1 ((same b).2 (by simp)) with h' | h'
          · exact h'.symm
          · exact absurd (firstL b h') (Std.OrientedCmp.not_lt_of_lt (firstR a h))
      subst heads
      have rest : ∀ e, e ∈ l ↔ e ∈ r := fun e ↦ by
        constructor
        · intro he
          rcases List.mem_cons.1 ((same e).1 (by simp [he])) with rfl | h
          · simpa using firstL _ he
          · exact h
        · intro he
          rcases List.mem_cons.1 ((same e).2 (by simp [he])) with rfl | h
          · simpa using firstR _ he
          · exact h
      rw [ih tailL r tailR rest]

end NodeStore.SortedMap
