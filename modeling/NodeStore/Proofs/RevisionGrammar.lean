import NodeStore.Proofs.Numerals

namespace NodeStore.Revision

open Numeral

variable {r q : Revision} {s t : String} {cs : List Char}

/-- A text of `r`: the kind, and the three numbers as numerals of base sixteen, with hyphens between them. -/
def Spells (s : String) (r : Revision) : Prop :=
  ∃ t c i, s.toList = (if r.branch then 'b' else 'r') :: ['-'].intercalate [t, c, i] ∧
    IsNumeral 16 t r.timestamp.toNat ∧ IsNumeral 16 c r.counter.toNat ∧ IsNumeral 16 i r.clusterId.toNat

/-- Why a text is no revision. -/
inductive Refuses (s : String) : RevisionError → Prop
  | empty : s = "" → Refuses s .empty
  | unknownKind {c : Char} : s.toList.head? = some c → c ≠ 'r' → c ≠ 'b' → Refuses s (.unknownKind s)
  | malformed {c : Char} : s.toList.head? = some c → c = 'r' ∨ c = 'b' → (∀ r, ¬ Spells s r) →
      Refuses s (.malformed s)

theorem fields?_eq_some_iff {branch : Bool} : fields? branch cs = some r ↔ r.branch = branch ∧
    ∃ t c i, cs = ['-'].intercalate [t, c, i] ∧
      IsNumeral 16 t r.timestamp.toNat ∧ IsNumeral 16 c r.counter.toNat ∧ IsNumeral 16 i r.clusterId.toNat := by
  constructor
  · intro h
    unfold fields? at h
    split at h
    next t c i hparts =>
      have hcs : ['-'].intercalate [t, c, i] = cs := hparts ▸ List.intercalate_splitOn '-'
      simp only [Option.bind_eq_bind, Option.bind_eq_some_iff, read?_eq_some_iff (Nat.le_refl 16),
        Option.some.injEq] at h
      obtain ⟨timestamp, ⟨ht, htimestamp⟩, counter, ⟨hc, hcounter⟩, clusterId, ⟨hi, hclusterId⟩, rfl⟩ := h
      refine ⟨rfl, t, c, i, hcs.symm, ?_, ?_, ?_⟩
      · rwa [UInt64.toNat_ofNat_of_lt' htimestamp]
      · rwa [UInt32.toNat_ofNat_of_lt' hcounter]
      · rwa [UInt32.toNat_ofNat_of_lt' hclusterId]
    next => cases h
  · rintro ⟨rfl, t, c, i, rfl, ht, hc, hi⟩
    have hhyphen {ds : List Char} {n : Nat} (h : IsNumeral 16 ds n) : '-' ∉ ds :=
      h.not_mem (Nat.le_refl 16) (by decide) (by decide)
    have hsplit : (['-'].intercalate [t, c, i]).splitOn '-' = [t, c, i] :=
      List.splitOn_intercalate '-' (by simp [hhyphen ht, hhyphen hc, hhyphen hi]) (by simp)
    have hread {ds : List Char} {n bound : Nat} (h : IsNumeral 16 ds n) (hn : n < bound) :
        read? 16 bound ds = some n := (read?_eq_some_iff (Nat.le_refl 16)).2 ⟨h, hn⟩
    rw [fields?, hsplit]
    simp [hread ht r.timestamp.toNat_lt_size, hread hc r.counter.toNat_lt_size, hread hi r.clusterId.toNat_lt_size]

theorem spells_iff_fields? {branch : Bool} (h : s.toList = (if branch then 'b' else 'r') :: cs) :
    Spells s r ↔ fields? branch cs = some r := by
  have hkind : (if branch then 'b' else 'r') = (if r.branch then 'b' else 'r') ↔ r.branch = branch := by
    cases branch <;> cases r.branch <;> decide
  simp only [fields?_eq_some_iff, Spells, h, List.cons.injEq, hkind, and_assoc, exists_and_left]

theorem parse_of_kind {branch : Bool} (h : s.toList = (if branch then 'b' else 'r') :: cs) :
    parse s = (fields? branch cs).elim (.error (.malformed s)) .ok := by
  unfold parse
  cases branch <;> rw [h] <;> rfl

theorem start_cases (s : String) : s = "" ∨
    (∃ (branch : Bool) (cs : List Char), s.toList = (if branch then 'b' else 'r') :: cs) ∨
    ∃ c cs, s.toList = c :: cs ∧ c ≠ 'r' ∧ c ≠ 'b' := by
  cases hs : s.toList with
  | nil => exact .inl (by simpa using hs)
  | cons c cs =>
    by_cases hr : c = 'r'
    · exact .inr (.inl ⟨false, cs, by rw [hr]; rfl⟩)
    · by_cases hb : c = 'b'
      · exact .inr (.inl ⟨true, cs, by rw [hb]; rfl⟩)
      · exact .inr (.inr ⟨c, cs, rfl, hr, hb⟩)

theorem parse_of_other {c : Char} (h : s.toList = c :: cs) (hr : c ≠ 'r') (hb : c ≠ 'b') :
    parse s = .error (.unknownKind s) := by
  unfold parse
  rw [h]
  split
  next heq => cases heq
  next heq => exact absurd (List.cons.inj heq).1 hr
  next heq => exact absurd (List.cons.inj heq).1 hb
  next => rfl

/-- A text is read exactly if it spells a revision. -/
theorem parse_eq_ok_iff : parse s = .ok r ↔ Spells s r := by
  rcases start_cases s with rfl | ⟨branch, cs, h⟩ | ⟨c, cs, h, hr, hb⟩
  · simp [parse, Spells]
  · rw [parse_of_kind h, spells_iff_fields? h]
    cases fields? branch cs <;> simp
  · rw [parse_of_other h hr hb]
    refine iff_of_false (by simp) ?_
    rintro ⟨t, c', i, heq, -⟩
    have hc := (List.cons.inj (h.symm.trans heq)).1
    cases hbranch : r.branch with
    | false => exact hr (by rw [hc, hbranch]; rfl)
    | true => exact hb (by rw [hc, hbranch]; rfl)

theorem refuses_of_parse {e : RevisionError} (h : parse s = .error e) : Refuses s e := by
  have hnone (r : Revision) : ¬ Spells s r := fun hr ↦ by
    cases h.symm.trans (parse_eq_ok_iff.2 hr)
  rcases start_cases s with rfl | ⟨branch, cs, hs⟩ | ⟨c, cs, hs, hr, hb⟩
  · obtain rfl : .empty = e := Except.error.inj h
    exact .empty rfl
  · rw [parse_of_kind hs] at h
    cases hf : fields? branch cs with
    | none =>
      rw [hf] at h
      obtain rfl := Except.error.inj h
      exact .malformed (by rw [hs]; rfl) (by cases branch <;> simp) hnone
    | some r => simp [hf] at h
  · rw [parse_of_other hs hr hb] at h
    obtain rfl := Except.error.inj h
    exact .unknownKind (by rw [hs]; rfl) hr hb

theorem Refuses.not_spells {e : RevisionError} (h : Refuses s e) (r : Revision) : ¬ Spells s r := by
  intro hspells
  have ⟨t, c, i, hs, _⟩ := hspells
  cases h with
  | empty h => simp [h] at hs
  | unknownKind h hr hb =>
    rw [hs, List.head?_cons, Option.some.injEq] at h
    subst h
    cases hbranch : r.branch <;> simp [hbranch] at hr hb
  | malformed _ _ h => exact h r hspells

theorem Refuses.unique {e e' : RevisionError} (h : Refuses s e) (h' : Refuses s e') : e = e' := by
  cases h <;> cases h' <;> simp_all

theorem parse_eq_error_iff {e : RevisionError} : parse s = .error e ↔ Refuses s e := by
  refine ⟨refuses_of_parse, fun h ↦ ?_⟩
  cases hparse : parse s with
  | error e' => rw [h.unique (refuses_of_parse hparse)]
  | ok r => exact absurd (parse_eq_ok_iff.1 hparse) (h.not_spells r)

theorem spells_text (r : Revision) : Spells r.text r := parse_eq_ok_iff.1 r.parse_text

theorem text_injective (h : q.text = r.text) : q = r :=
  Except.ok.inj (q.parse_text.symm.trans (h ▸ r.parse_text))

theorem toList_toLower (s : String) : s.toLower.toList = s.toList.map Char.toLower := String.toList_map

theorem toLower_kind (branch : Bool) :
    (if branch then 'b' else 'r').toLower = if branch then 'b' else 'r' := by cases branch <;> rfl

theorem toLower_text (r : Revision) : r.text.toLower = r.text := by
  have hprint (n : Nat) : (print 16 n).map Char.toLower = print 16 n := map_toLower_print (by decide) (by decide) n
  rw [← String.toList_inj, toList_toLower, text, String.toList_ofList, chars]
  simp [List.intercalate, toLower_kind, hprint]

theorem Spells.shortest (h : Spells s r) :
    r.text.length ≤ s.length ∧ (s.length = r.text.length → s.toLower = r.text) := by
  obtain ⟨t, c, i, hs, ht, hc, hi⟩ := h
  obtain ⟨htime, htime'⟩ := ht.shortest (by decide) (by decide)
  obtain ⟨hcounter, hcounter'⟩ := hc.shortest (by decide) (by decide)
  obtain ⟨hmember, hmember'⟩ := hi.shortest (by decide) (by decide)
  have hlength : s.length = t.length + c.length + i.length + 3 := by
    rw [← String.length_toList, hs]
    simp [List.intercalate]
    omega
  have hlength' : r.text.length = (print 16 r.timestamp.toNat).length + (print 16 r.counter.toNat).length +
      (print 16 r.clusterId.toNat).length + 3 := by
    rw [text, String.length_ofList, chars]
    simp [List.intercalate]
    omega
  refine ⟨by omega, fun hsame ↦ ?_⟩
  rw [← String.toList_inj, toList_toLower, hs, text, String.toList_ofList, chars]
  simp [List.intercalate, toLower_kind, htime' (by omega), hcounter' (by omega), hmember' (by omega)]

/-- The shortest text of `r` in lower case. -/
structure IsCanonical (r : Revision) (s : String) : Prop where
  spells : Spells s r
  lower : s.toLower = s
  shortest (t : String) : Spells t r → s.length ≤ t.length

theorem isCanonical_iff : r.IsCanonical s ↔ s = r.text := by
  constructor
  · intro h
    obtain ⟨hle, hsame⟩ := h.spells.shortest
    rw [← h.lower]
    exact hsame (Nat.le_antisymm (h.shortest _ r.spells_text) hle)
  · rintro rfl
    exact ⟨r.spells_text, r.toLower_text, fun _ ht ↦ ht.shortest.1⟩

/-- The written form of a revision is read back. The texts that are read are the spellings of revisions, each text
that is not is refused for one cause, and what is read is written in its shortest spelling. -/
theorem parse_iff_spells (s : String) (r : Revision) :
    parse r.text = .ok r ∧ (parse s = .ok r ↔ Spells s r) ∧ (∀ e, parse s = .error e ↔ Refuses s e) ∧
      (∀ t, r.IsCanonical t ↔ t = r.text) ∧
      ∀ t q, parse s = .ok r → parse t = .ok q → (r = q ↔ r.text = q.text) :=
  ⟨r.parse_text, parse_eq_ok_iff, fun _ ↦ parse_eq_error_iff, fun _ ↦ isCanonical_iff,
    fun _ _ _ _ ↦ ⟨congrArg text, text_injective⟩⟩

theorem parse_iff_spells_branch :
    parse "r+0A-0-01" = .ok (.onTrunk 10 0 1) ∧ parse "bA-0-1" = .ok (.onBranch 10 0 1) ∧
      (onTrunk 10 0 1).text ≠ (onBranch 10 0 1).text := by
  have hs : parse "r+0A-0-01" = .ok (.onTrunk 10 0 1) := by decide +kernel
  have ht : parse "bA-0-1" = .ok (.onBranch 10 0 1) := by decide +kernel
  obtain ⟨-, -, -, -, hsame⟩ := parse_iff_spells "r+0A-0-01" (.onTrunk 10 0 1)
  exact ⟨hs, ht, mt (hsame _ _ hs ht).2 (by decide)⟩

end NodeStore.Revision
