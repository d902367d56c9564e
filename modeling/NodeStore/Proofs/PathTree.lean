import Mathlib.Data.List.Basic
import NodeStore.Proofs.PathGrammar

namespace NodeStore.Path

variable {p q a : Path} {name : String} {d e n : Nat}

theorem eq_of_segments (h : p.segments = q.segments) : p = q := by
  cases p
  cases q
  simpa using h

theorem parent?_eq_none_iff : p.parent? = none ↔ p = .root := by
  simp [parent?, eq_root_iff, isRoot]

theorem parent?_eq_some_iff_segments : p.parent? = some q ↔ p.segments = q.segments ++ [p.name] := by
  obtain ⟨names, valid⟩ := p
  obtain rfl | ⟨init, last, rfl⟩ := List.eq_nil_or_concat' names
  · simp [parent?, isRoot]
  · have hparent : parent? ⟨init ++ [last], valid⟩ = some ⟨init, fun s hs ↦ valid s (by simp [hs])⟩ := by
      simp [parent?, isRoot]
    rw [hparent, Option.some.injEq]
    refine ⟨fun h ↦ by simp [← h, Path.name], fun h ↦ eq_of_segments ?_⟩
    simpa [Path.name] using h

theorem child_eq_ok_iff_segments :
    p.child name = .ok q ↔ IsSegment name ∧ q.segments = p.segments ++ [name] := by
  unfold child
  split
  next h =>
    rw [Except.ok.injEq, and_iff_right h]
    exact ⟨fun heq ↦ by rw [← heq], fun heq ↦ eq_of_segments heq.symm⟩
  next h => simp [h]

theorem child_eq_error_iff {e : StoreError} :
    p.child name = .error e ↔ ¬ IsSegment name ∧ e = .invalidPath (p.text ++ "/" ++ name) := by
  unfold child
  split
  next h => simp [h]
  next h => simp [h, eq_comm]

theorem name_eq_of_segments (h : q.segments = p.segments ++ [name]) : q.name = name := by
  simp [Path.name, h]

theorem child_eq_ok_iff : p.child name = .ok q ↔ q.parent? = some p ∧ q.name = name := by
  rw [child_eq_ok_iff_segments, parent?_eq_some_iff_segments]
  constructor
  · rintro ⟨-, h⟩
    have hname := name_eq_of_segments h
    exact ⟨by rw [hname, h], hname⟩
  · rintro ⟨h, rfl⟩
    exact ⟨q.valid _ (by rw [h]; simp), h⟩

theorem text_of_segments (h : q.segments = p.segments ++ [name]) :
    q.text = (if p.isRoot then "" else p.text) ++ "/" ++ name := by
  have hne : q.segments ≠ [] := by simp [h]
  apply String.toList_injective
  rw [text, String.toList_ofList, chars_of_segments hne, h]
  by_cases hp : p.segments = []
  · simp [isRoot, hp]
  · simp [isRoot, hp, text, chars_of_segments hp]

/-- The path `n` steps up, if there are so many. -/
def climb? (p : Path) : Nat → Option Path
  | 0 => some p
  | n + 1 => p.parent?.bind fun q ↦ q.climb? n

theorem climb?_eq_some_iff : p.climb? n = some a ↔ n ≤ p.depth ∧ a.segments = p.segments.take (p.depth - n) := by
  induction n generalizing p with
  | zero =>
    have hall : p.segments.take (p.depth - 0) = p.segments := List.take_of_length_le (Nat.le_refl _)
    rw [climb?, Option.some.injEq, hall]
    exact ⟨fun h ↦ ⟨Nat.zero_le _, by rw [h]⟩, fun h ↦ eq_of_segments h.2.symm⟩
  | succ n ih =>
    rw [climb?]
    cases hparent : p.parent? with
    | none =>
      rw [parent?_eq_none_iff.1 hparent]
      simp [depth, root]
    | some q =>
      have hsegments := parent?_eq_some_iff_segments.1 hparent
      have hdepth : p.depth = q.depth + 1 := by rw [depth, hsegments, List.length_append]; rfl
      have htake : p.segments.take (p.depth - (n + 1)) = q.segments.take (q.depth - n) := by
        rw [hsegments, hdepth, Nat.add_sub_add_right]
        exact List.take_append_of_le_length (Nat.sub_le _ _)
      rw [Option.bind_some, ih, htake, hdepth, Nat.add_le_add_iff_right]

theorem ancestorAt?_eq_some_iff_segments :
    p.ancestorAt? d = some a ↔ d ≤ p.depth ∧ a.segments = p.segments.take d := by
  unfold ancestorAt?
  split
  next h =>
    rw [Option.some.injEq, and_iff_right h]
    exact ⟨fun heq ↦ by rw [← heq], fun heq ↦ eq_of_segments heq.symm⟩
  next h => simp [h]

theorem ancestorAt?_eq_none_iff : p.ancestorAt? d = none ↔ p.depth < d := by
  simp [ancestorAt?]

/-- The ancestor of `p` at depth `d`, or `p` itself: so many steps up, the first segments, and the text up to the slash
that begins the next one. -/
structure IsAncestorAt (p : Path) (d : Nat) (a : Path) : Prop where
  le : d ≤ p.depth
  depth : a.depth = d
  climbed : p.climb? (p.depth - d) = some a
  segments : a.segments = p.segments.take d
  read : parse a.text = .ok a
  root : d = 0 → a = .root
  cut : 0 < d → ∃ rest, p.text = a.text ++ rest ∧ a.text.toList.count '/' = d ∧ ∀ c ∈ rest.toList.head?, c = '/'

theorem head?_flatMap_slash {names : List String} {c : Char}
    (h : c ∈ (names.flatMap fun name ↦ '/' :: name.toList).head?) : c = '/' := by
  cases names with
  | nil => cases h
  | cons => simpa using h.symm

theorem isAncestorAt (hd : d ≤ p.depth) (h : a.segments = p.segments.take d) : p.IsAncestorAt d a := by
  have hdepth : a.depth = d := by
    rw [Path.depth, h, List.length_take]
    exact Nat.min_eq_left hd
  refine ⟨hd, hdepth, climb?_eq_some_iff.2 ⟨Nat.sub_le _ _, by rwa [Nat.sub_sub_self hd]⟩, h, a.parse_text,
    fun h0 ↦ eq_root_iff.2 (by rw [h, h0, List.take_zero]), fun hpos ↦ ?_⟩
  have ha : a.segments ≠ [] := fun hnil ↦ by
    rw [Path.depth, hnil, List.length_nil] at hdepth
    omega
  have hp : p.segments ≠ [] := fun hnil ↦ ha (by simp [h, hnil])
  refine ⟨String.ofList ((p.segments.drop d).flatMap fun name ↦ '/' :: name.toList), String.toList_injective ?_, ?_,
    fun c hc ↦ head?_flatMap_slash (by simpa using hc)⟩
  · rw [String.toList_append, String.toList_ofList, text, text, String.toList_ofList, String.toList_ofList,
      chars_of_segments ha, chars_of_segments hp, h, ← List.flatMap_append, List.take_append_drop]
  · rw [text, String.toList_ofList, chars_of_segments ha, count_slash a.valid]
    exact hdepth

theorem ancestorAt?_eq_some_iff : p.ancestorAt? d = some a ↔ p.IsAncestorAt d a := by
  rw [ancestorAt?_eq_some_iff_segments]
  exact ⟨fun h ↦ isAncestorAt h.1 h.2, fun h ↦ ⟨h.le, h.segments⟩⟩

theorem ancestorAt?_of_ancestorAt? (hd : d ≤ e) (h : p.ancestorAt? e = some a) :
    a.ancestorAt? d = p.ancestorAt? d := by
  obtain ⟨he, hsegments⟩ := ancestorAt?_eq_some_iff_segments.1 h
  have hdepth := (ancestorAt?_eq_some_iff.1 h).depth
  refine Option.ext fun b ↦ ?_
  rw [ancestorAt?_eq_some_iff_segments, ancestorAt?_eq_some_iff_segments, hdepth, hsegments, List.take_take,
    Nat.min_eq_left hd, and_iff_right hd, and_iff_right (hd.trans he)]

/-- The child of `p` of a name: a path whose parent and last segment they are, and whose text is theirs with a slash
between them. -/
structure IsChild (p : Path) (name : String) (q : Path) : Prop where
  segment : IsSegment name
  parent : q.parent? = some p
  named : q.name = name
  depth : q.depth = p.depth + 1
  text : q.text = (if p.isRoot then "" else p.text) ++ "/" ++ name
  read : parse q.text = .ok q

theorem child_eq_ok_iff_isChild : p.child name = .ok q ↔ p.IsChild name q := by
  constructor
  · intro h
    obtain ⟨hsegment, hsegments⟩ := child_eq_ok_iff_segments.1 h
    obtain ⟨hparent, hname⟩ := child_eq_ok_iff.1 h
    refine ⟨hsegment, hparent, hname, ?_, text_of_segments hsegments, q.parse_text⟩
    rw [depth, depth, hsegments, List.length_append, List.length_singleton]
  · intro h
    exact child_eq_ok_iff.2 ⟨h.parent, h.named⟩

theorem exists_child_iff : (∃ q, p.child name = .ok q) ↔ IsSegment name := by
  constructor
  · rintro ⟨q, h⟩
    exact (child_eq_ok_iff_segments.1 h).1
  · intro h
    exact ⟨_, dif_pos h⟩

/-- A path has its ancestor at each depth up to its own, where the ancestors of an ancestor are its own too. It has a
child of each name that can be a segment, and any path but the root is the child of its parent of its name. -/
theorem ancestors_and_children (p : Path) (name : String) :
    (∀ d, p.ancestorAt? d = none ↔ p.depth < d) ∧ (∀ d a, p.ancestorAt? d = some a ↔ p.IsAncestorAt d a) ∧
      (∀ d e a, d ≤ e → p.ancestorAt? e = some a → a.ancestorAt? d = p.ancestorAt? d) ∧
      ((∃ q, p.child name = .ok q) ↔ IsSegment name) ∧ (∀ q, p.child name = .ok q ↔ p.IsChild name q) ∧
      (∀ e, p.child name = .error e ↔ ¬ IsSegment name ∧ e = .invalidPath (p.text ++ "/" ++ name)) ∧
      (∀ q, p.parent? = some q ↔ q.child p.name = .ok p) ∧ (p.parent? = none ↔ p = .root) :=
  ⟨fun _ ↦ ancestorAt?_eq_none_iff, fun _ _ ↦ ancestorAt?_eq_some_iff, fun _ _ _ ↦ ancestorAt?_of_ancestorAt?,
    exists_child_iff, fun _ ↦ child_eq_ok_iff_isChild, fun _ ↦ child_eq_error_iff,
    fun _ ↦ by simp [child_eq_ok_iff], parent?_eq_none_iff⟩

theorem ancestors_and_children_grandchild :
    (1 ≤ 2 ∧ (⟨["a", "b", "c"], by decide⟩ : Path).ancestorAt? 2 = some ⟨["a", "b"], by decide⟩) ∧
      (⟨["a", "b"], by decide⟩ : Path).ancestorAt? 1 = (⟨["a", "b", "c"], by decide⟩ : Path).ancestorAt? 1 :=
  ⟨⟨by decide, rfl⟩, (ancestors_and_children ⟨["a", "b", "c"], by decide⟩ "d").2.2.1 1 2 _ (by decide) rfl⟩

end NodeStore.Path
