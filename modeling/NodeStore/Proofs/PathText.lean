import Mathlib.Data.List.TakeDrop
import NodeStore.Path
import NodeStore.Proofs.RevisionText

namespace NodeStore.Path

variable {p q : Path}

theorem flatMap_slash {names : List String} (h : names ≠ []) :
    (names.flatMap fun s ↦ '/' :: s.toList) = '/' :: ['/'].intercalate (names.map String.toList) := by
  induction names with
  | nil => exact absurd rfl h
  | cons name rest ih =>
    cases rest with
    | nil => simp
    | cons next rest =>
      have hrest := ih (by simp)
      rw [List.flatMap_cons, hrest, List.map_cons, List.map_cons, List.map_cons, List.intercalate_cons_cons]
      simp

theorem parse_text (p : Path) : parse p.text = .ok p := by
  obtain ⟨names, valid⟩ := p
  cases names with
  | nil =>
    have hchars : (Path.mk [] valid).text.toList = ['/'] := String.toList_ofList
    unfold parse
    rw [hchars]
    rfl
  | cons name rest =>
    have hchars : (Path.mk (name :: rest) valid).text.toList =
        '/' :: ['/'].intercalate ((name :: rest).map String.toList) := by
      rw [text, String.toList_ofList, ← flatMap_slash (by simp)]
      rfl
    have hsplit : (['/'].intercalate ((name :: rest).map String.toList)).splitOn '/' =
        (name :: rest).map String.toList := by
      refine List.splitOn_intercalate '/' (fun cs hcs ↦ ?_) (by simp)
      obtain ⟨s, hs, rfl⟩ := List.mem_map.1 hcs
      exact (valid s hs).2
    have hfirst : ['/'].intercalate ((name :: rest).map String.toList) ≠ [] := by
      intro h
      rw [h] at hsplit
      have hempty : [] = name.toList := by simpa using (List.cons.inj hsplit).1
      exact (valid name List.mem_cons_self).1 (by simpa using hempty.symm)
    have hsegments : [] ∉ (name :: rest).map String.toList := by
      intro h
      obtain ⟨s, hs, hempty⟩ := List.mem_map.1 h
      exact (valid s hs).1 (by simpa using hempty)
    have hback : ((name :: rest).map String.toList).map String.ofList = name :: rest := by simp
    unfold parse
    rw [hchars]
    split
    next h => exact absurd (List.cons.inj h).2 hfirst
    next h =>
      obtain rfl := (List.cons.inj h).2
      rw [dif_neg (by rwa [hsplit])]
      simp only [hsplit, hback]
    next h => exact absurd rfl (h _)

theorem span_colon {before after : List Char} (h : ':' ∉ before) :
    (before ++ ':' :: after).span (· != ':') = (before, ':' :: after) := by
  have hall : ∀ c ∈ before, (c != ':') = true := fun c hc ↦ bne_iff_ne.2 fun heq ↦ h (heq ▸ hc)
  rw [List.span_eq_takeWhile_dropWhile, List.takeWhile_append_of_pos hall, List.dropWhile_append_of_pos hall]
  simp

theorem span_id (p : Path) :
    p.id.toList.span (· != ':') = (Numeral.print 10 p.depth, ':' :: p.chars) := by
  rw [id, String.toList_ofList]
  exact span_colon (Numeral.not_mem_print (by decide) (by decide) (by decide) p.depth)

theorem ofId_of_id (p : Path) : ofId p.id = match Numeral.decimal? (Numeral.print 10 p.depth) with
    | none => .error (.invalidId p.id)
    | some depth => if p.depth = depth then .ok p else .error (.invalidId p.id) := by
  have hparse : parse (String.ofList p.chars) = .ok p := p.parse_text
  unfold ofId
  rw [p.span_id]
  cases hdepth : Numeral.decimal? (Numeral.print 10 p.depth) with
  | none => simp only [hdepth]
  | some depth => simp only [hdepth, hparse]

theorem ofId_id (h : p.depth < UInt64.size) : ofId p.id = .ok p := by
  have hdepth : Numeral.decimal? (Numeral.print 10 p.depth) = some p.depth :=
    Numeral.read?_print (by decide) (by decide) h
  rw [ofId_of_id, hdepth]
  exact if_pos rfl

theorem eq_of_ofId_id (h : ofId p.id = .ok q) : q = p := by
  rw [ofId_of_id] at h
  split at h
  · cases h
  · split at h
    · exact (Except.ok.inj h).symm
    · cases h

theorem id_injective (h : p.id = q.id) : p = q := by
  have hspan := p.span_id
  rw [h, q.span_id] at hspan
  have hchars : q.chars = p.chars := (List.cons.inj (Prod.mk.inj hspan).2).2
  have hparse := p.parse_text
  rw [text, ← hchars, ← text, q.parse_text] at hparse
  exact (Except.ok.inj hparse).symm

end NodeStore.Path
