import NodeStore.Revision

namespace NodeStore

namespace Numeral

variable {base bound n : Nat}

theorem digit?_digitChar (hb : base ≤ 16) {d : Nat} (hd : d < base) : digit? base d.digitChar = some d := by
  have h : ∀ d < 16,
      (('0' ≤ d.digitChar ∧ d.digitChar ≤ '9') ∧ d.digitChar.toNat - '0'.toNat = d) ∨
      (¬('0' ≤ d.digitChar ∧ d.digitChar ≤ '9') ∧ ('a' ≤ d.digitChar ∧ d.digitChar ≤ 'z') ∧
        d.digitChar.toNat - 'a'.toNat + 10 = d) := by decide
  unfold digit?
  rcases h d (by omega) with ⟨hc, hv⟩ | ⟨hn, hc, hv⟩
  · simp only [if_pos hc, hv, if_pos hd]
  · simp only [if_neg hn, if_pos hc, hv, if_pos hd]

theorem value?_print (hb : 1 < base) (hb' : base ≤ 16) (n : Nat) : value? base (print base n) = some n := by
  induction n using Nat.strongRecOn with
  | ind n ih =>
    rw [print, Nat.toDigits_eq_if hb]
    split
    next h => simp [value?, digit?_digitChar hb' h]
    next h =>
      have hq : n / base < n := Nat.div_lt_self (by omega) hb
      have hr : n % base < base := Nat.mod_lt _ (by omega)
      have hquot := ih _ hq
      rw [print, value?] at hquot
      rw [value?, List.foldlM_append, hquot]
      simp [digit?_digitChar hb' hr, Nat.div_add_mod]

theorem not_mem_print (hb : 1 < base) (hb' : base ≤ 16) {c : Char} (hc : ∀ d < 16, d.digitChar ≠ c) (n : Nat) :
    c ∉ print base n := by
  induction n using Nat.strongRecOn with
  | ind n ih =>
    rw [print, Nat.toDigits_eq_if hb]
    split
    next h => simpa using (hc n (by omega)).symm
    next h =>
      have hr : n % base < base := Nat.mod_lt _ (by omega)
      have hlast := hc (n % base) (by omega)
      have hrest := ih _ (Nat.div_lt_self (by omega) hb)
      rw [List.mem_append, List.mem_singleton]
      intro hx
      rcases hx with h | h
      · exact hrest h
      · exact hlast h.symm

theorem read?_print (hb : 1 < base) (hb' : base ≤ 16) (h : n < bound) :
    read? base bound (print base n) = some n := by
  have hplus : '+' ∉ print base n := not_mem_print hb hb' (by decide) n
  have hvalue := value?_print hb hb' n
  obtain ⟨c, cs, hcs⟩ := List.exists_cons_of_ne_nil (Nat.toDigits_ne_nil (n := n) (b := base))
  rw [print, hcs] at hplus hvalue ⊢
  have hc : c ≠ '+' := fun eq ↦ hplus (eq ▸ List.mem_cons_self)
  rw [read?]
  · rw [plain?, hvalue, Option.filter_some_pos (by simpa using h)]
    simp
  · rintro _ eq
    exact hc (List.cons.inj eq).1

end Numeral

namespace Revision

theorem fields?_tail_chars (r : Revision) (branch : Bool) :
    fields? branch r.chars.tail = some { r with branch } := by
  have hhyphen (n : Nat) : '-' ∉ Numeral.print 16 n :=
    Numeral.not_mem_print (by decide) (by decide) (by decide) n
  have hsplit : r.chars.tail.splitOn '-' =
      [Numeral.print 16 r.timestamp.toNat, Numeral.print 16 r.counter.toNat,
        Numeral.print 16 r.clusterId.toNat] :=
    List.splitOn_intercalate '-' (by simp [hhyphen]) (by simp)
  have hread {n bound : Nat} (h : n < bound) : Numeral.read? 16 bound (Numeral.print 16 n) = some n :=
    Numeral.read?_print (by decide) (by decide) h
  rw [fields?, hsplit]
  simp [hread r.timestamp.toNat_lt_size, hread r.counter.toNat_lt_size, hread r.clusterId.toNat_lt_size]

theorem parse_text (r : Revision) : parse r.text = .ok r := by
  have hchars : r.text.toList = (if r.branch then 'b' else 'r') :: r.chars.tail := String.toList_ofList
  rw [parse, hchars]
  obtain ⟨timestamp, counter, clusterId, branch⟩ := r
  cases branch with
  | false => simp only [Bool.false_eq_true, if_false, fields?_tail_chars, Option.elim]
  | true => simp only [if_true, fields?_tail_chars, Option.elim]

theorem parse?_text (r : Revision) : parse? r.text = some r := by
  rw [parse?, parse_text]
  rfl

end Revision

namespace CommitValue

theorem recordsCommit_text (v : CommitValue) : recordsCommit v.text = true := by
  cases v with
  | trunk => rfl
  | mergedBranch => simp [text, recordsCommit]

theorem parse?_text (v : CommitValue) : parse? v.text = some v := by
  cases v with
  | trunk => rfl
  | mergedBranch merge =>
    have hmerge : Revision.parse? (String.ofList merge.chars) = some merge := merge.parse?_text
    rw [parse?, text, String.toList_ofList]
    simp [hmerge]

theorem resolve_text (r : Revision) (v : CommitValue) : resolve r v.text = v.commitRevision r := by
  rw [resolve, parse?_text]
  rfl

end CommitValue

end NodeStore
