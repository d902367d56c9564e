import Mathlib.Data.List.TakeWhile
import NodeStore.Proofs.Numerals
import NodeStore.Proofs.PathText

namespace NodeStore.Path

open Numeral

variable {p q : Path} {s id : String} {names : List String}

inductive Lists : String → List String → Prop
  | one {name : String} : IsSegment name → Lists ("/" ++ name) [name]
  | cons {name rest : String} {names : List String} : IsSegment name → Lists rest names →
      Lists ("/" ++ name ++ rest) (name :: names)

/-- The texts of paths: a single slash for the root, and the segments of any other path. -/
inductive Spells (s : String) (p : Path) : Prop
  | root : s = "/" → p = .root → Spells s p
  | segments : Lists s p.segments → Spells s p

theorem Lists.toList_eq (h : Lists s names) :
    names ≠ [] ∧ s.toList = names.flatMap fun name ↦ '/' :: name.toList := by
  induction h with
  | one => simp
  | cons _ _ ih => simp [ih.2]

theorem lists_segments (valid : ∀ name ∈ names, IsSegment name) (hne : names ≠ []) :
    Lists (String.ofList (names.flatMap fun name ↦ '/' :: name.toList)) names := by
  induction names with
  | nil => exact absurd rfl hne
  | cons name rest ih =>
    obtain ⟨hname, hrest⟩ := List.forall_mem_cons.1 valid
    cases rest with
    | nil =>
      have htext : String.ofList ([name].flatMap fun name ↦ '/' :: name.toList) = "/" ++ name :=
        String.toList_injective (by simp)
      rw [htext]
      exact .one hname
    | cons next rest =>
      have htext : String.ofList ((name :: next :: rest).flatMap fun name ↦ '/' :: name.toList) =
          "/" ++ name ++ String.ofList ((next :: rest).flatMap fun name ↦ '/' :: name.toList) :=
        String.toList_injective (by simp)
      rw [htext]
      exact .cons hname (ih hrest (by simp))

theorem chars_of_segments (h : p.segments ≠ []) : p.chars = p.segments.flatMap fun name ↦ '/' :: name.toList :=
  if_neg (by simpa [isRoot] using h)

theorem eq_root_iff : p = .root ↔ p.segments = [] := by
  obtain ⟨names, valid⟩ := p
  simp [root]

theorem text_root : root.text = "/" := rfl

theorem spells_iff : Spells s p ↔ s = p.text := by
  constructor
  · intro h
    cases h with
    | root hs hp => rw [hs, hp, text_root]
    | segments h =>
      obtain ⟨hne, htext⟩ := h.toList_eq
      exact String.toList_injective (by rw [htext, text, String.toList_ofList, chars_of_segments hne])
  · rintro rfl
    by_cases hne : p.segments = []
    · exact .root (by rw [eq_root_iff.2 hne, text_root]) (eq_root_iff.2 hne)
    · refine .segments ?_
      rw [text, chars_of_segments hne]
      exact lists_segments p.valid hne

theorem parse_cases (s : String) : (∃ p, parse s = .ok p ∧ s = p.text) ∨ parse s = .error (.invalidPath s) := by
  unfold parse
  split
  next hs => exact .inl ⟨root, rfl, String.toList_injective hs⟩
  next cs hcs hs =>
    split
    next => exact .inr rfl
    next hempty =>
      refine .inl ⟨_, rfl, String.toList_injective ?_⟩
      have hne : (cs.splitOn '/').map String.ofList ≠ [] := by simp
      rw [text, String.toList_ofList, chars_of_segments hne, flatMap_slash hne, hs]
      simp [Function.comp_def, List.intercalate_splitOn]
  next => exact .inr rfl

theorem parse_eq_ok_iff : parse s = .ok p ↔ Spells s p := by
  rw [spells_iff]
  constructor
  · intro h
    obtain ⟨q, hq, rfl⟩ | hcause := parse_cases s
    · rw [Except.ok.inj (h.symm.trans hq)]
    · cases h.symm.trans hcause
  · rintro rfl
    exact p.parse_text

theorem parse_eq_error_iff {e : StoreError} : parse s = .error e ↔ e = .invalidPath s ∧ ∀ p, ¬ Spells s p := by
  constructor
  · intro h
    obtain ⟨q, hq, -⟩ | hcause := parse_cases s
    · cases h.symm.trans hq
    · refine ⟨Except.error.inj (h.symm.trans hcause), fun p hp ↦ ?_⟩
      cases h.symm.trans (parse_eq_ok_iff.2 hp)
  · rintro ⟨rfl, hnone⟩
    obtain ⟨q, hq, -⟩ | hcause := parse_cases s
    · exact absurd (parse_eq_ok_iff.1 hq) (hnone q)
    · exact hcause

theorem count_slash (valid : ∀ name ∈ names, IsSegment name) :
    (names.flatMap fun name ↦ '/' :: name.toList).count '/' = names.length := by
  induction names with
  | nil => rfl
  | cons name rest ih =>
    obtain ⟨hname, hrest⟩ := List.forall_mem_cons.1 valid
    rw [List.flatMap_cons, List.count_append, List.count_cons_self, List.count_eq_zero.2 hname.2, ih hrest,
      List.length_cons]
    omega

theorem depth_le_length (p : Path) : p.depth ≤ p.text.length := by
  by_cases hne : p.segments = []
  · simp [depth, hne]
  · rw [text, String.length_ofList, chars_of_segments hne, depth, ← count_slash p.valid]
    exact List.count_le_length

structure Divides (id depth path : String) : Prop where
  text : id = depth ++ ":" ++ path
  first : ':' ∉ depth.toList

/-- The ids of `p`: its depth as a decimal numeral of a word, a colon, and its text. -/
def SpellsId (id : String) (p : Path) : Prop :=
  ∃ depth path, Divides id depth path ∧ IsNumeral 10 depth.toList p.depth ∧ p.depth < UInt64.size ∧ Spells path p

/-- Why a text is no document id. A depth that cannot be read counts before a path that cannot. -/
inductive RefusesId (id : String) : StoreError → Prop
  | undivided : ':' ∉ id.toList → RefusesId id (.invalidId id)
  | unreadDepth {depth path : String} : Divides id depth path →
      (∀ n < UInt64.size, ¬ IsNumeral 10 depth.toList n) → RefusesId id (.invalidId id)
  | unreadPath {depth path : String} {n : Nat} : Divides id depth path → IsNumeral 10 depth.toList n →
      n < UInt64.size → (∀ p, ¬ Spells path p) → RefusesId id (.invalidPath path)
  | otherDepth {depth path : String} {n : Nat} {p : Path} : Divides id depth path → IsNumeral 10 depth.toList n →
      n < UInt64.size → Spells path p → p.depth ≠ n → RefusesId id (.invalidId id)

theorem exists_divides (h : ':' ∈ id.toList) : ∃ depth path, Divides id depth path := by
  obtain ⟨ds, cs, hid, hfirst⟩ := List.eq_append_cons_of_mem h
  refine ⟨String.ofList ds, String.ofList cs, String.toList_injective ?_, ?_⟩
  · simp [hid]
  · simpa using hfirst

theorem ofId_of_undivided (h : ':' ∉ id.toList) : ofId id = .error (.invalidId id) := by
  have hall : ∀ c ∈ id.toList, (c != ':') = true := fun c hc ↦ bne_iff_ne.2 fun heq ↦ h (heq ▸ hc)
  unfold ofId
  rw [List.span_eq_takeWhile_dropWhile, List.dropWhile_eq_nil_iff.2 hall]

theorem Divides.ofId_eq {depth path : String} (h : Divides id depth path) : ofId id = match decimal? depth.toList with
    | none => .error (.invalidId id)
    | some n =>
      match parse path with
      | .error e => .error e
      | .ok p => if p.depth = n then .ok p else .error (.invalidId id) := by
  have hid : id.toList = depth.toList ++ ':' :: path.toList := by simp [h.text]
  unfold ofId
  rw [hid, span_colon h.first]
  cases hdepth : decimal? depth.toList with
  | none => simp only [hdepth]
  | some n => cases hpath : parse path <;> simp only [hdepth, hpath, String.ofList_toList]

theorem RefusesId.ofId_eq {e : StoreError} (h : RefusesId id e) : ofId id = .error e := by
  cases h with
  | undivided h => exact ofId_of_undivided h
  | unreadDepth h hdepth =>
    have hnone : decimal? _ = none := Option.eq_none_iff_forall_ne_some.2 fun n hn ↦ by
      obtain ⟨hnumeral, hword⟩ := decimal?_eq_some_iff.1 hn
      exact hdepth n hword hnumeral
    rw [h.ofId_eq, hnone]
  | unreadPath h hdepth hword hpath =>
    rw [h.ofId_eq, decimal?_eq_some_iff.2 ⟨hdepth, hword⟩, parse_eq_error_iff.2 ⟨rfl, hpath⟩]
  | otherDepth h hdepth hword hpath hne =>
    rw [h.ofId_eq, decimal?_eq_some_iff.2 ⟨hdepth, hword⟩, parse_eq_ok_iff.2 hpath]
    exact if_neg hne

theorem ofId_of_spellsId (h : SpellsId id p) : ofId id = .ok p := by
  obtain ⟨depth, path, h, hdepth, hword, hpath⟩ := h
  rw [h.ofId_eq, decimal?_eq_some_iff.2 ⟨hdepth, hword⟩, parse_eq_ok_iff.2 hpath]
  exact if_pos rfl

theorem spellsId_or_refusesId (id : String) : (∃ p, SpellsId id p) ∨ ∃ e, RefusesId id e := by
  by_cases hcolon : ':' ∈ id.toList
  · obtain ⟨depth, path, h⟩ := exists_divides hcolon
    by_cases hdepth : ∃ n, IsNumeral 10 depth.toList n ∧ n < UInt64.size
    · obtain ⟨n, hnumeral, hword⟩ := hdepth
      by_cases hpath : ∃ p, Spells path p
      · obtain ⟨p, hp⟩ := hpath
        by_cases heq : p.depth = n
        · subst heq
          exact .inl ⟨p, depth, path, h, hnumeral, hword, hp⟩
        · exact .inr ⟨_, .otherDepth h hnumeral hword hp heq⟩
      · exact .inr ⟨_, .unreadPath h hnumeral hword (not_exists.1 hpath)⟩
    · exact .inr ⟨_, .unreadDepth h fun n hword hnumeral ↦ hdepth ⟨n, hnumeral, hword⟩⟩
  · exact .inr ⟨_, .undivided hcolon⟩

theorem ofId_eq_ok_iff : ofId id = .ok p ↔ SpellsId id p := by
  refine ⟨fun h ↦ ?_, ofId_of_spellsId⟩
  obtain ⟨q, hq⟩ | ⟨e, he⟩ := spellsId_or_refusesId id
  · rwa [Except.ok.inj (h.symm.trans (ofId_of_spellsId hq))]
  · cases h.symm.trans he.ofId_eq

theorem ofId_eq_error_iff {e : StoreError} : ofId id = .error e ↔ RefusesId id e := by
  refine ⟨fun h ↦ ?_, RefusesId.ofId_eq⟩
  obtain ⟨q, hq⟩ | ⟨e', he'⟩ := spellsId_or_refusesId id
  · cases h.symm.trans (ofId_of_spellsId hq)
  · rwa [Except.error.inj (h.symm.trans he'.ofId_eq)]

theorem ofId_id_iff : ofId p.id = .ok p ↔ p.depth < UInt64.size := by
  refine ⟨fun h ↦ ?_, ofId_id⟩
  obtain ⟨_, _, _, _, hword, _⟩ := ofId_eq_ok_iff.1 h
  exact hword

/-- The texts that are read as paths are those that spell one. The id of a path is its own, and it is read back if a
word holds the depth, which is no more than the length of the text. The texts that are read as ids are the spellings
of the ids of paths, and each other text is refused for its first fault. -/
theorem ofId_iff_spellsId (p : Path) (s : String) :
    (parse s = .ok p ↔ Spells s p) ∧ (∀ e, parse s = .error e ↔ e = .invalidPath s ∧ ∀ q, ¬ Spells s q) ∧
      (ofId p.id = .ok p ↔ p.depth < UInt64.size) ∧ p.depth ≤ p.text.length ∧ (∀ q, p.id = q.id ↔ p = q) ∧
      (ofId s = .ok p ↔ SpellsId s p) ∧ ∀ e, ofId s = .error e ↔ RefusesId s e :=
  ⟨parse_eq_ok_iff, fun _ ↦ parse_eq_error_iff, ofId_id_iff, p.depth_le_length,
    fun _ ↦ ⟨id_injective, congrArg Path.id⟩, ofId_eq_ok_iff, fun _ ↦ ofId_eq_error_iff⟩

example : (ofId "+01:/a:b").map text = .ok "/a:b" ∧ ofId "1:a" = .error (.invalidPath "a") ∧
    ofId "x:a" = .error (.invalidId "x:a") := by
  decide +kernel

end NodeStore.Path
