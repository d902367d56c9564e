import Mathlib.Data.List.Induction
import NodeStore.Proofs.RevisionText

namespace NodeStore.Numeral

variable {base bound d n : Nat} {c : Char} {cs ds : List Char}

def IsDigit (base : Nat) (c : Char) (d : Nat) : Prop := d < base ∧ (c = d.digitChar ∨ c = d.digitChar.toUpper)

inductive Digits (base : Nat) : List Char → Nat → Prop
  | one {c : Char} {d : Nat} : IsDigit base c d → Digits base [c] d
  | snoc {cs : List Char} {n : Nat} {c : Char} {d : Nat} : Digits base cs n → IsDigit base c d →
      Digits base (cs ++ [c]) (base * n + d)

/-- Digits that one plus sign may lead. -/
def IsNumeral (base : Nat) (cs : List Char) (n : Nat) : Prop :=
  Digits base cs n ∨ ∃ ds, cs = '+' :: ds ∧ Digits base ds n

theorem isDigit_of_digit? (hb : base ≤ 16) (h : digit? base c = some d) : IsDigit base c d := by
  have hnumber : ∀ k < 10, Char.ofNat (48 + k) = k.digitChar := by decide
  have hlower : ∀ k < 6, Char.ofNat (97 + k) = (k + 10).digitChar := by decide
  have hupper : ∀ k < 6, Char.ofNat (65 + k) = (k + 10).digitChar.toUpper := by decide
  have hle {a b : Char} : a ≤ b ↔ a.toNat ≤ b.toNat := by
    rw [Char.le_def, UInt32.le_iff_toNat_le]
    rfl
  simp only [digit?, Option.ite_none_right_eq_some, Option.some.injEq, hle, Char.reduceToNat] at h
  obtain ⟨hlt, hd⟩ := h
  rw [hd] at hlt
  refine ⟨hlt, ?_⟩
  -- `c` stands in a range of letters or numbers, as far from its first one as its digit says
  have hc {first : Nat} (hrange : first ≤ c.toNat) : Char.ofNat (first + (c.toNat - first)) = c := by
    rw [Nat.add_sub_cancel' hrange, Char.ofNat_toNat]
  split at hd
  next hrange =>
    rw [← hc hrange.1, hnumber _ (by omega), hd]
    exact .inl rfl
  next =>
    split at hd
    next hrange =>
      rw [← hc hrange.1, hlower _ (by omega), hd]
      exact .inl rfl
    next =>
      split at hd
      next hrange =>
        rw [← hc hrange.1, hupper _ (by omega), hd]
        exact .inr rfl
      next => omega

theorem digit?_toUpper (hb : base ≤ 16) (hd : d < base) : digit? base d.digitChar.toUpper = some d := by
  have h : ∀ d < 16, d.digitChar.toUpper = d.digitChar ∨
      ¬('0' ≤ d.digitChar.toUpper ∧ d.digitChar.toUpper ≤ '9') ∧
      ¬('a' ≤ d.digitChar.toUpper ∧ d.digitChar.toUpper ≤ 'z') ∧
      ('A' ≤ d.digitChar.toUpper ∧ d.digitChar.toUpper ≤ 'Z') ∧
      d.digitChar.toUpper.toNat - 'A'.toNat + 10 = d := by decide
  rcases h d (by omega) with hsame | ⟨hnumber, hlower, hupper, hvalue⟩
  · rw [hsame, digit?_digitChar hb hd]
  · unfold digit?
    simp only [if_neg hnumber, if_neg hlower, if_pos hupper, hvalue, if_pos hd]

theorem digit?_eq_some_iff (hb : base ≤ 16) : digit? base c = some d ↔ IsDigit base c d := by
  constructor
  · exact isDigit_of_digit? hb
  · rintro ⟨hd, rfl | rfl⟩
    · exact digit?_digitChar hb hd
    · exact digit?_toUpper hb hd

theorem value?_concat (base : Nat) (cs : List Char) (c : Char) : value? base (cs ++ [c]) =
    (value? base cs).bind fun n ↦ (digit? base c).map (base * n + ·) := by
  simp [value?, List.foldlM_append]

theorem Digits.ne_nil (h : Digits base cs n) : cs ≠ [] := by
  cases h <;> simp

theorem value?_eq_some_iff (hb : base ≤ 16) (hne : cs ≠ []) : value? base cs = some n ↔ Digits base cs n := by
  constructor
  · -- the value is folded from the left, so the digit to take off is the last one
    intro h
    induction cs using List.reverseRecOn generalizing n with
    | nil => exact absurd rfl hne
    | append_singleton cs c ih =>
      rw [value?_concat, Option.bind_eq_some_iff] at h
      obtain ⟨k, hk, h⟩ := h
      obtain ⟨d, hd, rfl⟩ := Option.map_eq_some_iff.1 h
      have hdigit := isDigit_of_digit? hb hd
      by_cases hnil : cs = []
      · subst hnil
        obtain rfl := Option.some.inj hk
        simpa using Digits.one hdigit
      · exact .snoc (ih hnil hk) hdigit
  · intro h
    induction h with
    | one hd => simp [value?, (digit?_eq_some_iff hb).2 hd]
    | snoc hs hd ih => simp [value?_concat, ih hs.ne_nil, (digit?_eq_some_iff hb).2 hd]

theorem plain?_eq_some_iff (hb : base ≤ 16) : plain? base bound cs = some n ↔ Digits base cs n ∧ n < bound := by
  cases cs with
  | nil => simpa [plain?] using fun h : Digits base [] n ↦ absurd rfl h.ne_nil
  | cons c cs => rw [plain?, Option.filter_eq_some_iff, value?_eq_some_iff hb (by simp), decide_eq_true_eq]; simp

theorem Digits.not_mem (hb : base ≤ 16) (h : Digits base cs n)
    (hc : ∀ d < 16, c ≠ d.digitChar ∧ c ≠ d.digitChar.toUpper) : c ∉ cs := by
  have hdigit {x : Char} {d : Nat} (hx : IsDigit base x d) : c ≠ x := by
    obtain ⟨hd, rfl | rfl⟩ := hx
    · exact (hc d (by omega)).1
    · exact (hc d (by omega)).2
  induction h with
  | one hd => simpa using hdigit hd
  | snoc _ hd ih => simp [ih, hdigit hd]

/-- Exactly the numerals below the bound are read. -/
theorem read?_eq_some_iff (hb : base ≤ 16) : read? base bound cs = some n ↔ IsNumeral base cs n ∧ n < bound := by
  rw [IsNumeral, or_and_right]
  by_cases hplus : ∃ ds, cs = '+' :: ds
  · obtain ⟨ds, rfl⟩ := hplus
    have hnot : ¬ Digits base ('+' :: ds) n := fun h ↦ h.not_mem hb (by decide) List.mem_cons_self
    rw [read?, plain?_eq_some_iff hb]
    simp [hnot]
  · have hread : read? base bound cs = plain? base bound cs := by
      unfold read?
      split
      next ds => exact absurd ⟨ds, rfl⟩ hplus
      next => rfl
    have hnot : ¬ ∃ ds, cs = '+' :: ds ∧ Digits base ds n := by
      rintro ⟨ds, hds, -⟩
      exact hplus ⟨ds, hds⟩
    rw [hread, plain?_eq_some_iff hb]
    simp [hnot]

theorem decimal?_eq_some_iff : decimal? cs = some n ↔ IsNumeral 10 cs n ∧ n < UInt64.size :=
  read?_eq_some_iff (by decide)

theorem IsNumeral.not_mem (hb : base ≤ 16) (h : IsNumeral base cs n) (hplus : c ≠ '+')
    (hc : ∀ d < 16, c ≠ d.digitChar ∧ c ≠ d.digitChar.toUpper) : c ∉ cs := by
  rcases h with h | ⟨ds, rfl, h⟩
  · exact h.not_mem hb hc
  · simp [hplus, h.not_mem hb hc]

theorem Digits.exists_zeros (hb : 1 < base) (hb' : base ≤ 16) (h : Digits base cs n) :
    ∃ k, cs.map Char.toLower = List.replicate k '0' ++ print base n := by
  have hdigit {x : Char} {d : Nat} (hx : IsDigit base x d) : x.toLower = d.digitChar := by
    have htable : ∀ d < 16, d.digitChar.toLower = d.digitChar ∧ d.digitChar.toUpper.toLower = d.digitChar := by decide
    obtain ⟨hd, rfl | rfl⟩ := hx
    · exact (htable d (by omega)).1
    · exact (htable d (by omega)).2
  induction h with
  | one hd => exact ⟨0, by simp [print, Nat.toDigits_of_lt_base hd.1, hdigit hd]⟩
  | @snoc cs n c d hs hd ih =>
    obtain ⟨k, hk⟩ := ih
    have hlt := hd.1
    rw [List.map_append, hk, List.map_singleton, hdigit hd, print, print]
    by_cases hn : n = 0
    · -- all digits before this one are zeros, and so is the one printed for them
      subst hn
      refine ⟨k + 1, ?_⟩
      rw [Nat.mul_zero, Nat.zero_add, Nat.toDigits_of_lt_base hlt, List.replicate_succ']
      simp
    · have hnot : ¬ base * n + d < base := by
        have := Nat.le_mul_of_pos_right base (Nat.pos_of_ne_zero hn)
        omega
      refine ⟨k, ?_⟩
      rw [Nat.toDigits_eq_if hb, Nat.toDigits_eq_if hb (n := base * n + d), if_neg hnot, Nat.mul_add_mod,
        Nat.mod_eq_of_lt hlt, Nat.mul_add_div (by omega), Nat.div_eq_of_lt hlt, Nat.add_zero,
        ← Nat.toDigits_eq_if hb, List.append_assoc]

theorem digits_print (hb : 1 < base) (hb' : base ≤ 16) (n : Nat) : Digits base (print base n) n :=
  (value?_eq_some_iff hb' Nat.toDigits_ne_nil).1 (value?_print hb hb' n)

theorem Digits.shortest (hb : 1 < base) (hb' : base ≤ 16) (h : Digits base cs n) :
    (print base n).length ≤ cs.length ∧
      (cs.length = (print base n).length → cs.map Char.toLower = print base n) := by
  obtain ⟨k, hk⟩ := h.exists_zeros hb hb'
  have hlength := congrArg List.length hk
  rw [List.length_map, List.length_append, List.length_replicate] at hlength
  refine ⟨by omega, fun hsame ↦ ?_⟩
  obtain rfl : k = 0 := by omega
  simpa using hk

theorem map_toLower_print (hb : 1 < base) (hb' : base ≤ 16) (n : Nat) :
    (print base n).map Char.toLower = print base n :=
  ((digits_print hb hb' n).shortest hb hb').2 rfl

theorem IsNumeral.shortest (hb : 1 < base) (hb' : base ≤ 16) (h : IsNumeral base cs n) :
    (print base n).length ≤ cs.length ∧
      (cs.length = (print base n).length → cs.map Char.toLower = print base n) := by
  rcases h with h | ⟨ds, rfl, h⟩
  · exact h.shortest hb hb'
  · have hle := (h.shortest hb hb').1
    rw [List.length_cons]
    exact ⟨by omega, fun hsame ↦ by omega⟩

end NodeStore.Numeral
