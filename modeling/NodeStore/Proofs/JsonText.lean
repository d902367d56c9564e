import Mathlib.Data.List.TakeDrop
import NodeStore.Json.Basic
import NodeStore.Json.Parser
import NodeStore.Proofs.RevisionText

namespace NodeStore.Json

section Strings

theorem unit?_hexDigits {n : Nat} (h : n < 0x20) :
    Numeral.value? 16 ['0', '0', Nat.digitChar (n / 16), Nat.digitChar (n % 16)] = some n := by
  have hzero : Numeral.digit? 16 '0' = some 0 := by decide
  have hhigh : Numeral.digit? 16 (Nat.digitChar (n / 16)) = some (n / 16) :=
    Numeral.digit?_digitChar (by decide) (by omega)
  have hlow : Numeral.digit? 16 (Nat.digitChar (n % 16)) = some (n % 16) :=
    Numeral.digit?_digitChar (by decide) (by omega)
  simp [Numeral.value?, hzero, hhigh, hlow, Nat.div_add_mod]

theorem units?_backslash {e c : Char} (he : e ≠ 'u') (hc : unescape? e = some c) (rest : List Char) :
    units? ('\\' :: e :: rest) = (units? rest).map fun u ↦ (c.toNat :: u.1, u.2) := by
  rw [units?]
  · cases units? rest <;> simp [hc]
  · intro _ _ _ _ _ h
    exact absurd h he

theorem units?_plain {c : Char} (hquote : c ≠ '"') (hescape : c ≠ '\\') (hc : ¬ c.toNat < 0x20) (rest : List Char) :
    units? (c :: rest) = (units? rest).map fun u ↦ (c.toNat :: u.1, u.2) := by
  rw [units?]
  · cases units? rest <;> simp [hc]
  · exact hquote
  · intro _ _ _ _ _ h
    exact absurd h hescape
  · intro _ _ h
    exact absurd h hescape

theorem units?_escape (c : Char) (rest : List Char) :
    units? (escape c ++ rest) = (units? rest).map fun u ↦ (c.toNat :: u.1, u.2) := by
  unfold escape
  split
  · exact units?_backslash (by decide) rfl rest
  · exact units?_backslash (by decide) rfl rest
  · exact units?_backslash (by decide) rfl rest
  · exact units?_backslash (by decide) rfl rest
  · exact units?_backslash (by decide) rfl rest
  · exact units?_backslash (by decide) rfl rest
  · exact units?_backslash (by decide) rfl rest
  · split
    next h =>
      simp only [List.cons_append, List.nil_append, units?, unit?_hexDigits h]
      cases units? rest <;> rfl
    next hquote hescape _ _ _ _ _ h => exact units?_plain hquote hescape h rest

theorem units?_flatMap (cs rest : List Char) :
    units? (cs.flatMap escape ++ '"' :: rest) = some (cs.map Char.toNat, rest) := by
  induction cs with
  | nil => rfl
  | cons c cs ih => rw [List.flatMap_cons, List.append_assoc, units?_escape, ih]; rfl

theorem isSurrogate_toNat (c : Char) : isHighSurrogate c.toNat = false ∧ isLowSurrogate c.toNat = false := by
  have hvalid : c.toNat < 0xD800 ∨ 0xDFFF < c.toNat ∧ c.toNat < 0x110000 := c.valid
  simp only [isHighSurrogate, isLowSurrogate, Bool.and_eq_false_iff, decide_eq_false_iff_not]
  omega

theorem joinUnits?_map (cs : List Char) : joinUnits? (cs.map Char.toNat) = some cs := by
  induction cs with
  | nil => rfl
  | cons c cs ih =>
    obtain ⟨hhigh, hlow⟩ := isSurrogate_toNat c
    cases cs with
    | nil => simp [joinUnits?, hhigh, hlow]
    | cons d cs =>
      rw [List.map_cons, List.map_cons, joinUnits?, ← List.map_cons, ih]
      simp [hhigh, hlow]

theorem stringLiteral?_chars (s : String) (rest : List Char) :
    stringLiteral? (s.toList.flatMap escape ++ '"' :: rest) = some (some s, rest) := by
  simp only [stringLiteral?, units?_flatMap, Option.map_some, joinUnits?_map, String.ofList_toList]

end Strings

section Numbers

/-- What stands after a value: nothing, a comma or a closing bracket. -/
def Follows (rest : List Char) : Prop := ∀ c cs, rest = c :: cs → c = ',' ∨ c = ']' ∨ c = '}'

theorem follows_nil : Follows [] := fun _ _ h ↦ (by cases h)

theorem follows_cons {c : Char} (h : c = ',' ∨ c = ']' ∨ c = '}') (cs : List Char) : Follows (c :: cs) :=
  fun _ _ heq ↦ (List.cons.inj heq).1 ▸ h

theorem digits?_append {ds rest : List Char} (hne : ds ≠ []) (hds : ∀ c ∈ ds, c.isDigit = true)
    (hrest : Follows rest) : digits? (ds ++ rest) = some (ds, rest) := by
  have hstop : rest.takeWhile Char.isDigit = [] ∧ rest.dropWhile Char.isDigit = rest := by
    cases rest with
    | nil => exact ⟨rfl, rfl⟩
    | cons c cs =>
      have hc : c.isDigit = false := by rcases hrest c cs rfl with rfl | rfl | rfl <;> rfl
      simp [hc]
  have hspan : (ds ++ rest).span Char.isDigit = (ds, rest) := by
    rw [List.span_eq_takeWhile_dropWhile, List.takeWhile_append_of_pos hds, List.dropWhile_append_of_pos hds,
      hstop.1, hstop.2, List.append_nil]
  unfold digits?
  rw [hspan]
  split
  next h => exact absurd (Prod.mk.inj h).1 hne
  next h => rw [← (Prod.mk.inj h).1, ← (Prod.mk.inj h).2]

theorem exists_toDigits (n : Nat) : ∃ c ds, Nat.toDigits 10 n = c :: ds ∧ c.isDigit = true := by
  obtain ⟨c, ds, h⟩ := List.exists_cons_of_ne_nil (Nat.toDigits_ne_nil (n := n) (b := 10))
  exact ⟨c, ds, h, Nat.isDigit_of_mem_toDigits (by decide) (by decide) (h ▸ List.mem_cons_self)⟩

theorem head?_toDigits_ne_zero {n : Nat} (h : n ≠ 0) : (Nat.toDigits 10 n).head? ≠ some '0' := by
  induction n using Nat.strongRecOn with
  | ind n ih =>
    rw [Nat.toDigits_eq_if (by decide)]
    split
    next hlt =>
      have hdigit : ∀ d < 10, d ≠ 0 → Nat.digitChar d ≠ '0' := by decide
      simpa using hdigit n hlt h
    next hge =>
      have hquot := ih (n / 10) (by omega) (by omega)
      rw [List.head?_append]
      cases hhead : (Nat.toDigits 10 (n / 10)).head? with
      | none => exact absurd (List.head?_eq_none_iff.1 hhead) Nat.toDigits_ne_nil
      | some c =>
        rw [hhead] at hquot
        simpa using hquot

theorem integer?_toDigits (n : Nat) {rest : List Char} (hrest : Follows rest) :
    integer? (Nat.toDigits 10 n ++ rest) = some (Nat.toDigits 10 n, rest) := by
  by_cases hn : n = 0
  · subst hn
    rfl
  · have hhead := head?_toDigits_ne_zero hn
    have hdigits : digits? (Nat.toDigits 10 n ++ rest) = some (Nat.toDigits 10 n, rest) :=
      digits?_append Nat.toDigits_ne_nil (fun c hc ↦ Nat.isDigit_of_mem_toDigits (by decide) (by decide) hc) hrest
    obtain ⟨c, ds, hds, -⟩ := exists_toDigits n
    rw [hds] at hhead hdigits ⊢
    unfold integer?
    split
    next heq => exact absurd (congrArg some (List.cons.inj heq).1) hhead
    next => exact hdigits

theorem fraction?_follows {rest : List Char} (hrest : Follows rest) : fraction? rest = some ([], rest) := by
  unfold fraction?
  split
  next cs => rcases hrest _ _ rfl with h | h | h <;> exact absurd h (by decide)
  next => rfl

theorem exponent?_follows {rest : List Char} (hrest : Follows rest) : exponent? rest = some ([], rest) := by
  unfold exponent?
  split
  next => rfl
  next e cs =>
    have he : (e = 'e' || e = 'E') = false := by rcases hrest e cs rfl with rfl | rfl | rfl <;> decide
    rw [he]
    rfl

theorem number?_toDigits (n : Nat) {rest : List Char} (hrest : Follows rest) :
    number? (Nat.toDigits 10 n ++ rest) = some (Nat.toDigits 10 n, rest) := by
  have hunsigned : unsigned? (Nat.toDigits 10 n ++ rest) = some (Nat.toDigits 10 n, rest) := by
    simp [unsigned?, integer?_toDigits n hrest, fraction?_follows hrest, exponent?_follows hrest]
  obtain ⟨c, ds, hds, hc⟩ := exists_toDigits n
  rw [hds] at hunsigned ⊢
  unfold number?
  split
  next heq =>
    rw [(List.cons.inj heq).1] at hc
    cases hc
  next => exact hunsigned

end Numbers

section Values

inductive Plain : Json → Prop
  | null : Plain .null
  | bool (b : Bool) : Plain (.bool b)
  | nat (n : Nat) : Plain (.nat n)
  | str (s : String) : Plain (.str s)
  | array {items : List Json} : (∀ j ∈ items, Plain j) → Plain (.array items)
  | object {members : List (Option String × Json)} : (∀ m ∈ members, m.1.isSome) →
      (∀ m ∈ members, Plain m.2) → Plain (.object members)

/-- With as much fuel as twice its length, the text of the value is read back before any rest. -/
def Reads (j : Json) : Prop :=
  ∀ fuel rest, Follows rest → 2 * j.chars.length ≤ fuel → value? fuel (j.chars ++ rest) = some (j, rest)

theorem skipBlanks_cons {c : Char} (h : isBlank c = false) (cs : List Char) : skipBlanks (c :: cs) = c :: cs := by
  rw [skipBlanks, List.dropWhile_cons, h]
  rfl

theorem isBlank_of_isDigit {c : Char} (h : c.isDigit = true) : isBlank c = false := by
  cases hc : isBlank c with
  | false => rfl
  | true =>
    simp only [isBlank, Bool.or_eq_true, decide_eq_true_eq] at hc
    obtain ((rfl | rfl) | rfl) | rfl := hc <;> cases h

theorem value?_quote (fuel : Nat) (cs : List Char) :
    value? (fuel + 1) ('"' :: cs) = (stringLiteral? cs).map fun e ↦ (.string e.1, e.2) := by
  rw [value?]
  rfl

theorem value?_bracket (fuel : Nat) {c : Char} (hblank : isBlank c = false) (hc : c ≠ ']') (cs : List Char) :
    value? (fuel + 1) ('[' :: c :: cs) = (items? fuel (c :: cs)).map fun e ↦ (.array e.1, e.2) := by
  have hskip : skipBlanks ('[' :: c :: cs) = '[' :: c :: cs := rfl
  rw [value?, hskip]
  simp only [skipBlanks_cons hblank]
  split
  next heq => exact absurd (List.cons.inj heq).1 hc
  next => rfl

theorem value?_brace (fuel : Nat) {c : Char} (hblank : isBlank c = false) (hc : c ≠ '}') (cs : List Char) :
    value? (fuel + 1) ('{' :: c :: cs) = (members? fuel (c :: cs)).map fun e ↦ (.object e.1, e.2) := by
  have hskip : skipBlanks ('{' :: c :: cs) = '{' :: c :: cs := rfl
  rw [value?, hskip]
  simp only [skipBlanks_cons hblank]
  split
  next heq => exact absurd (List.cons.inj heq).1 hc
  next => rfl

theorem value?_digit (fuel : Nat) {c : Char} (hc : c.isDigit = true) (cs : List Char) :
    value? (fuel + 1) (c :: cs) = (number? (c :: cs)).map fun e ↦ (.number (String.ofList e.1), e.2) := by
  have hskip := skipBlanks_cons (isBlank_of_isDigit hc) cs
  rw [value?, hskip]
  split
  all_goals first
    | (next heq => rw [(List.cons.inj heq).1] at hc; cases hc)
    | rfl

theorem Plain.exists_chars {j : Json} (h : Plain j) :
    ∃ c cs, j.chars = c :: cs ∧ isBlank c = false ∧ c ≠ ']' := by
  cases h with
  | null => exact ⟨_, _, rfl, by decide⟩
  | bool b => cases b <;> exact ⟨_, _, rfl, by decide⟩
  | nat n =>
    obtain ⟨c, ds, hds, hc⟩ := exists_toDigits n
    refine ⟨c, ds, by rw [Json.nat, chars, String.toList_ofList, hds], isBlank_of_isDigit hc, ?_⟩
    rintro rfl
    cases hc
  | str s => exact ⟨_, _, rfl, by decide⟩
  | @array items =>
    cases items with
    | nil => exact ⟨_, _, by rw [chars], by decide⟩
    | cons item items => exact ⟨'[', _, by rw [chars]; rfl, by decide⟩
  | @object members =>
    cases members with
    | nil => exact ⟨_, _, by rw [chars], by decide⟩
    | cons m members => exact ⟨'{', _, by rw [chars]; rfl, by decide⟩

theorem reads_nat (n : Nat) : Reads (.nat n) := by
  intro fuel rest hrest hfuel
  obtain ⟨c, ds, hds, hc⟩ := exists_toDigits n
  have hnumber := number?_toDigits n hrest
  have hchars : (Json.nat n).chars = Nat.toDigits 10 n := by rw [Json.nat, chars, String.toList_ofList]
  rw [hds] at hnumber hchars
  rw [hchars] at hfuel ⊢
  cases fuel with
  | zero => simp at hfuel
  | succ fuel =>
    rw [List.cons_append, value?_digit fuel hc, ← List.cons_append, hnumber, Option.map_some, ← hds]
    rfl

theorem reads_str (s : String) : Reads (.str s) := by
  intro fuel rest hrest hfuel
  cases fuel with
  | zero => simp [str, chars, stringChars] at hfuel
  | succ fuel =>
    have hchars : (str s).chars ++ rest = '"' :: (s.toList.flatMap escape ++ '"' :: rest) := by
      simp [str, chars, stringChars]
    rw [hchars, value?_quote, stringLiteral?_chars]
    rfl

theorem follows_itemsChars (items : List Json) (rest : List Char) : Follows (itemsChars items ++ rest) := by
  cases items with
  | nil => exact follows_cons (.inr (.inl rfl)) rest
  | cons item items => exact follows_cons (.inl rfl) _

theorem follows_membersChars (members : List (Option String × Json)) (rest : List Char) :
    Follows (membersChars members ++ rest) := by
  cases members with
  | nil => exact follows_cons (.inr (.inr rfl)) rest
  | cons m members => exact follows_cons (.inl rfl) _

theorem items?_chars {item : Json} {items : List Json} (h : ∀ j ∈ item :: items, Reads j) (fuel : Nat)
    (rest : List Char) (hfuel : 2 * (item.chars ++ itemsChars items).length ≤ fuel) :
    items? fuel (item.chars ++ itemsChars items ++ rest) = some (item :: items, rest) := by
  induction items generalizing item fuel with
  | nil =>
    cases fuel with
    | zero => simp [itemsChars] at hfuel
    | succ fuel =>
      have hitem := h item List.mem_cons_self fuel (itemsChars [] ++ rest) (follows_itemsChars [] rest) (by
        simp [itemsChars] at hfuel
        omega)
      rw [items?, List.append_assoc, hitem]
      rfl
  | cons next items ih =>
    cases fuel with
    | zero => simp [itemsChars] at hfuel
    | succ fuel =>
      rw [itemsChars] at hfuel
      simp only [List.length_append, List.length_cons] at hfuel
      have hitem := h item List.mem_cons_self fuel (itemsChars (next :: items) ++ rest)
        (follows_itemsChars _ rest) (by omega)
      have hitems := ih (fun j hj ↦ h j (List.mem_cons_of_mem _ hj)) fuel (by
        rw [List.length_append]
        omega)
      rw [items?, List.append_assoc, hitem]
      have hcomma : skipBlanks (itemsChars (next :: items) ++ rest) =
          ',' :: (next.chars ++ itemsChars items ++ rest) := by
        rw [itemsChars]
        rfl
      simp only [Option.bind_eq_bind, Option.bind_some, hcomma, hitems, Option.map_some]

theorem members?_member {k : String} {value : Json} (h : Reads value) (fuel : Nat) {rest : List Char}
    (hrest : Follows rest) (hfuel : 2 * value.chars.length ≤ fuel) :
    members? (fuel + 1) (stringChars (some k) ++ ':' :: value.chars ++ rest) =
      match skipBlanks rest with
      | '}' :: rest => some ([(some k, value)], rest)
      | ',' :: rest => (members? fuel rest).map fun e ↦ ((some k, value) :: e.1, e.2)
      | _ => none := by
  have hkey : stringChars (some k) ++ ':' :: value.chars ++ rest =
      '"' :: (k.toList.flatMap escape ++ '"' :: ':' :: (value.chars ++ rest)) := by
    simp [stringChars]
  rw [hkey, members?]
  refine (congrArg (Option.bind · _) (stringLiteral?_chars k _)).trans ?_
  refine (congrArg (Option.bind · _) (h fuel rest hrest hfuel)).trans ?_
  rfl

theorem members?_chars {m : Option String × Json} {members : List (Option String × Json)}
    (hkey : ∀ e ∈ m :: members, e.1.isSome) (h : ∀ e ∈ m :: members, Reads e.2) (fuel : Nat) (rest : List Char)
    (hfuel : 2 * (stringChars m.1 ++ ':' :: m.2.chars ++ membersChars members).length ≤ fuel) :
    members? fuel (stringChars m.1 ++ ':' :: m.2.chars ++ membersChars members ++ rest) =
      some (m :: members, rest) := by
  induction members generalizing m fuel with
  | nil =>
    obtain ⟨k, hk⟩ := Option.isSome_iff_exists.1 (hkey m List.mem_cons_self)
    obtain ⟨_, value⟩ := m
    obtain rfl : _ = some k := hk
    cases fuel with
    | zero => simp [stringChars] at hfuel
    | succ fuel =>
      have hvalue : Reads value := h _ List.mem_cons_self
      rw [List.append_assoc, members?_member hvalue fuel (follows_membersChars [] rest) (by
        simp [stringChars] at hfuel
        omega)]
      rfl
  | cons next members ih =>
    obtain ⟨k, hk⟩ := Option.isSome_iff_exists.1 (hkey m List.mem_cons_self)
    obtain ⟨_, value⟩ := m
    obtain rfl : _ = some k := hk
    obtain ⟨key, value'⟩ := next
    cases fuel with
    | zero => simp [stringChars] at hfuel
    | succ fuel =>
      rw [membersChars] at hfuel
      simp only [List.length_append, List.length_cons] at hfuel
      have hmembers := ih (fun e he ↦ hkey e (List.mem_cons_of_mem _ he))
        (fun e he ↦ h e (List.mem_cons_of_mem _ he)) fuel (by
          simp only [List.length_append, List.length_cons]
          omega)
      have hcomma : skipBlanks (membersChars ((key, value') :: members) ++ rest) =
          ',' :: (stringChars key ++ ':' :: value'.chars ++ membersChars members ++ rest) := by
        rw [membersChars]
        rfl
      have hvalue : Reads value := h _ List.mem_cons_self
      rw [List.append_assoc, members?_member hvalue fuel (follows_membersChars _ rest) (by omega), hcomma]
      simp only [hmembers, Option.map_some]

theorem Plain.reads {j : Json} (h : Plain j) : Reads j := by
  induction h with
  | null =>
    rintro (_ | fuel) rest - hfuel
    · simp [chars] at hfuel
    · rw [value?]
      rfl
  | bool b =>
    rintro (_ | fuel) rest - hfuel
    · cases b <;> simp [chars] at hfuel
    · cases b <;> (rw [value?]; rfl)
  | nat n => exact reads_nat n
  | str s => exact reads_str s
  | @array items hitems ih =>
    rintro (_ | fuel) rest - hfuel
    · cases items <;> simp [chars] at hfuel
    · cases items with
      | nil =>
        rw [value?, chars]
        rfl
      | cons item items =>
        obtain ⟨c, cs, hchars, hblank, hc⟩ := (hitems item List.mem_cons_self).exists_chars
        rw [chars] at hfuel ⊢
        have hread := items?_chars ih fuel rest (by
          simp only [List.length_cons, List.length_append] at hfuel ⊢
          omega)
        have hshape : '[' :: item.chars ++ itemsChars items ++ rest =
            '[' :: c :: (cs ++ itemsChars items ++ rest) := by
          rw [hchars]
          rfl
        rw [hchars] at hread
        rw [hshape, value?_bracket fuel hblank hc]
        exact congrArg (Option.map _) hread
  | @object members hkey _ ih =>
    rintro (_ | fuel) rest - hfuel
    · cases members <;> simp [chars] at hfuel
    · cases members with
      | nil =>
        rw [value?, chars]
        rfl
      | cons m members =>
        obtain ⟨k, hk⟩ := Option.isSome_iff_exists.1 (hkey m List.mem_cons_self)
        obtain ⟨_, value⟩ := m
        obtain rfl : _ = some k := hk
        rw [chars] at hfuel ⊢
        have hread := members?_chars hkey ih fuel rest (by
          simp only [List.length_cons, List.length_append] at hfuel ⊢
          omega)
        exact (value?_brace fuel (by decide) (by decide) _).trans (congrArg (Option.map _) hread)

/-- The text of a value that data are written as is read back. -/
theorem parse?_text {j : Json} (h : Plain j) : parse? j.text = some j := by
  have hread := h.reads (2 * j.chars.length + 1) [] follows_nil (by omega)
  rw [List.append_nil] at hread
  rw [parse?, text, String.toList_ofList, hread]
  rfl

end Values

end NodeStore.Json
