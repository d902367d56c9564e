import Mathlib.Data.List.Nodup
import NodeStore.Proofs.RevisionGrammar
import NodeStore.Proofs.VectorJoin

namespace NodeStore

namespace RevisionVector

variable {v w : RevisionVector} {s : String} {parts before after : List String} {part : String}
  {rs : List Revision} {x : Revision} {e : RevisionError}

structure IsList (s : String) (parts : List String) : Prop where
  joined : s = ",".intercalate parts
  apart : ∀ p ∈ parts, ',' ∉ p.toList

structure Reads (parts : List String) (rs : List Revision) : Prop where
  each : parts.map Revision.parse = rs.map .ok
  members : (rs.map Revision.clusterId).Nodup

/-- Why a part cannot follow those of `rs`. -/
inductive Offends (rs : List Revision) (part : String) : RevisionError → Prop
  | unreadable {e : RevisionError} : Revision.parse part = .error e → Offends rs part e
  | repeated {x : Revision} : Revision.parse part = .ok x → x.clusterId ∈ rs.map Revision.clusterId →
      Offends rs part (.repeatedMember x.clusterId)

theorem splitOn_of_isList (h : IsList s parts) (hs : s ≠ "") : s.toList.splitOn ',' = parts.map String.toList := by
  have hparts : parts.map String.toList ≠ [] := fun hnil ↦ hs (by rw [h.joined, List.map_eq_nil_iff.1 hnil]; rfl)
  rw [h.joined, String.toList_intercalate]
  refine List.splitOn_intercalate ',' (fun cs hcs ↦ ?_) hparts
  obtain ⟨p, hp, rfl⟩ := List.mem_map.1 hcs
  exact h.apart p hp

theorem isList_splitOn (s : String) : IsList s ((s.toList.splitOn ',').map String.ofList) where
  joined := by
    rw [← String.toList_inj, String.toList_intercalate]
    simp [List.map_map, Function.comp_def, List.intercalate_splitOn]
  apart p hp := by
    obtain ⟨cs, hcs, rfl⟩ := List.mem_map.1 hp
    rw [String.toList_ofList]
    exact Text.not_mem_of_mem_splitOn hcs

theorem Reads.exists_snoc (h : Reads (parts ++ [part]) rs) : ∃ rs' x, rs = rs' ++ [x] ∧ Reads parts rs' ∧
    Revision.parse part = .ok x ∧ x.clusterId ∉ rs'.map Revision.clusterId := by
  obtain ⟨heach, hmembers⟩ := h
  rw [List.map_append, eq_comm, List.map_eq_append_iff] at heach
  obtain ⟨rs', last, rfl, hrs', hlast⟩ := heach
  obtain ⟨x, rfl, hx⟩ := List.map_eq_singleton_iff.1 hlast
  rw [List.map_append, List.map_singleton, List.nodup_append] at hmembers
  refine ⟨rs', x, rfl, ⟨hrs'.symm, hmembers.1⟩, hx.symm, fun hmem ↦ ?_⟩
  exact hmembers.2.2 _ hmem _ (List.mem_singleton.2 rfl) rfl

theorem Reads.snoc (h : Reads parts rs) (hpart : Revision.parse part = .ok x)
    (hx : x.clusterId ∉ rs.map Revision.clusterId) : Reads (parts ++ [part]) (rs ++ [x]) where
  each := by simp [h.each, hpart]
  members := by
    rw [List.map_append, List.map_singleton, List.nodup_append]
    refine ⟨h.members, by simp, fun a ha b hb hab ↦ hx ?_⟩
    rwa [← List.mem_singleton.1 hb, ← hab]

theorem contains_ofRevisions {c : UInt32} :
    (ofRevisions rs).components.contains c = true ↔ c ∈ rs.map Revision.clusterId := by
  rw [SortedMap.contains, Option.isSome_iff_exists, List.mem_map]
  constructor
  · rintro ⟨x, hx⟩
    exact ⟨x, mem_of_revision?_ofRevisions hx, (ofRevisions rs).keyed c x hx⟩
  · rintro ⟨x, hx, rfl⟩
    obtain ⟨y, hy, -⟩ := exists_revision?_of_mem hx
    exact ⟨y, hy⟩

theorem update_ofRevisions (hx : x.clusterId ∉ rs.map Revision.clusterId) :
    (ofRevisions rs).update x = ofRevisions (rs ++ [x]) := by
  have hnone : (ofRevisions rs).revision? x.clusterId = none := by
    rw [← contains_ofRevisions, SortedMap.contains, Option.isSome_iff_ne_none, not_not] at hx
    exact hx
  have hbehind : (ofRevisions rs).isBehind x = true := by rw [isBehind, hnone]
  rw [ofRevisions_append, join_ofRevisions_singleton, if_pos hbehind]

theorem parseParts_of_reads (h : Reads before rs) (rest : List (List Char)) :
    parseParts empty (before.map String.toList ++ rest) = parseParts (ofRevisions rs) rest := by
  induction before using List.reverseRecOn generalizing rs rest with
  | nil =>
    obtain rfl : rs = [] := List.map_eq_nil_iff.1 h.each.symm
    rfl
  | append_singleton before part ih =>
    obtain ⟨rs, x, rfl, h, hpart, hx⟩ := h.exists_snoc
    have hnew : ¬ (ofRevisions rs).components.contains x.clusterId = true := mt contains_ofRevisions.1 hx
    rw [List.map_append, List.append_assoc, ih h, ← update_ofRevisions hx]
    simp only [List.map_singleton, List.singleton_append, parseParts, String.ofList_toList, hpart, if_neg hnew]

theorem parseParts_of_offends (h : Reads before rs) (hpart : Offends rs part e) (rest : List (List Char)) :
    parseParts empty (before.map String.toList ++ part.toList :: rest) = .error e := by
  rw [parseParts_of_reads h, parseParts, String.ofList_toList]
  cases hpart with
  | unreadable hpart => rw [hpart]
  | repeated hpart hx => simp only [hpart, if_pos (contains_ofRevisions.2 hx)]

/-- All parts are read, or there is a first one that cannot follow those before it. -/
theorem reads_or_offends (parts : List String) : (∃ rs, Reads parts rs) ∨
    ∃ before part after rs e, parts = before ++ part :: after ∧ Reads before rs ∧ Offends rs part e := by
  induction parts using List.reverseRecOn with
  | nil => exact .inl ⟨[], rfl, .nil⟩
  | append_singleton parts part ih =>
    rcases ih with ⟨rs, h⟩ | ⟨before, bad, after, rs, e, rfl, h, hbad⟩
    · -- no part before this one is refused, so it is the first if it is
      cases hpart : Revision.parse part with
      | error e => exact .inr ⟨parts, part, [], rs, e, rfl, h, .unreadable hpart⟩
      | ok x =>
        by_cases hx : x.clusterId ∈ rs.map Revision.clusterId
        · exact .inr ⟨parts, part, [], rs, _, rfl, h, .repeated hpart hx⟩
        · exact .inl ⟨_, h.snoc hpart hx⟩
    · exact .inr ⟨before, bad, after ++ [part], rs, e, by simp, h, hbad⟩

theorem parse_of_isList (h : IsList s parts) (hs : s ≠ "") : parse s = parseParts empty (parts.map String.toList) := by
  rw [parse, if_neg (by simpa using hs), splitOn_of_isList h hs]

theorem parse_of_isList_of_reads (h : IsList s parts) (hs : s ≠ "") (hreads : Reads parts rs) :
    parse s = .ok (ofRevisions rs) := by
  rw [parse_of_isList h hs, ← List.append_nil (parts.map String.toList), parseParts_of_reads hreads]
  rfl

theorem parse_of_isList_of_offends (h : IsList s (before ++ part :: after)) (hs : s ≠ "") (hreads : Reads before rs)
    (hpart : Offends rs part e) : parse s = .error e := by
  rw [parse_of_isList h hs, List.map_append, List.map_cons]
  exact parseParts_of_offends hreads hpart _

theorem parse_cases (hs : s ≠ "") :
    (∃ parts rs, IsList s parts ∧ Reads parts rs ∧ parse s = .ok (ofRevisions rs)) ∨
    ∃ before part after rs e, IsList s (before ++ part :: after) ∧ Reads before rs ∧ Offends rs part e ∧
      parse s = .error e := by
  have hlist := isList_splitOn s
  rcases reads_or_offends ((s.toList.splitOn ',').map String.ofList) with
    ⟨rs, hreads⟩ | ⟨before, part, after, rs, e, heq, hreads, hpart⟩
  · exact .inl ⟨_, rs, hlist, hreads, parse_of_isList_of_reads hlist hs hreads⟩
  · rw [heq] at hlist
    exact .inr ⟨before, part, after, rs, e, hlist, hreads, hpart, parse_of_isList_of_offends hlist hs hreads hpart⟩

theorem mem_iff_of_nodup (h : (rs.map Revision.clusterId).Nodup) (x : Revision) :
    x ∈ rs ↔ (ofRevisions rs).revision? x.clusterId = some x := by
  constructor
  · intro hx
    obtain ⟨y, hy, -⟩ := exists_revision?_of_mem hx
    have hmem := mem_of_revision?_ofRevisions hy
    rw [hy, List.inj_on_of_nodup_map h hmem hx ((ofRevisions rs).keyed _ y hy)]
  · exact mem_of_revision?_ofRevisions

theorem parse_eq_ok_iff : parse s = .ok v ↔ s = "" ∧ v = empty ∨
    s ≠ "" ∧ ∃ parts rs, IsList s parts ∧ Reads parts rs ∧ ∀ x, x ∈ rs ↔ v.revision? x.clusterId = some x := by
  by_cases hs : s = ""
  · subst hs
    simp [parse, eq_comm]
  · simp only [hs, false_and, false_or, ne_eq, not_false_eq_true, true_and]
    constructor
    · intro h
      rcases parse_cases hs with ⟨parts, rs, hlist, hreads, hok⟩ | ⟨_, _, _, _, _, _, _, _, herror⟩
      · obtain rfl := Except.ok.inj (hok.symm.trans h)
        exact ⟨parts, rs, hlist, hreads, mem_iff_of_nodup hreads.members⟩
      · cases h.symm.trans herror
    · rintro ⟨parts, rs, hlist, hreads, hv⟩
      rw [parse_of_isList_of_reads hlist hs hreads, ofRevisions_eq hv]

theorem parse_eq_error_iff : parse s = .error e ↔ s ≠ "" ∧
    ∃ before part after rs, IsList s (before ++ part :: after) ∧ Reads before rs ∧ Offends rs part e := by
  by_cases hs : s = ""
  · subst hs
    simp [parse]
  · simp only [hs, ne_eq, not_false_eq_true, true_and]
    constructor
    · intro h
      rcases parse_cases hs with ⟨_, _, _, _, hok⟩ | ⟨before, part, after, rs, e, hlist, hreads, hpart, herror⟩
      · cases h.symm.trans hok
      · obtain rfl := Except.error.inj (herror.symm.trans h)
        exact ⟨before, part, after, rs, hlist, hreads, hpart⟩
    · rintro ⟨before, part, after, rs, hlist, hreads, hpart⟩
      exact parse_of_isList_of_offends hlist hs hreads hpart

example : parse "r1-0-1,b2-0-+01,x" = .error (.repeatedMember 1) := by decide +kernel

theorem entries_eq (v : RevisionVector) : v.components.entries = v.revisions.map fun x ↦ (x.clusterId, x) := by
  have hself : ∀ e ∈ v.components.entries, (e.2.clusterId, e.2) = e := by
    rintro ⟨c, x⟩ he
    rw [v.keyed c x (SortedMap.mem_entries_iff.1 he)]
  rw [revisions, SortedMap.values, List.map_map]
  exact (List.map_id _).symm.trans (List.map_congr_left fun e he ↦ (hself e he).symm)

theorem revisions_ascending (v : RevisionVector) : v.revisions.Pairwise fun x y ↦ x.clusterId < y.clusterId := by
  have h := v.components.ascending
  rw [entries_eq, List.pairwise_map] at h
  exact h.imp Std.compare_eq_lt.1

theorem comma_not_mem_text (r : Revision) : ',' ∉ r.text.toList := by
  have hprint (n : Nat) : ',' ∉ Numeral.print 16 n := Numeral.not_mem_print (by decide) (by decide) (by decide) n
  rw [Revision.text, String.toList_ofList, Revision.chars]
  cases r.branch <;> simp [List.intercalate, hprint]

theorem isList_text (v : RevisionVector) : IsList v.text (v.revisions.map Revision.text) where
  joined := by
    rw [← String.toList_inj, String.toList_intercalate, text, String.toList_ofList, chars]
    simp [List.map_map, Function.comp_def, Revision.text]
  apart p hp := by
    obtain ⟨r, -, rfl⟩ := List.mem_map.1 hp
    exact comma_not_mem_text r

theorem reads_text (v : RevisionVector) : Reads (v.revisions.map Revision.text) v.revisions where
  each := by simp [Function.comp_def, Revision.parse_text]
  members := List.pairwise_map.2 (v.revisions_ascending.imp fun h ↦ UInt32.ne_of_lt h)

theorem text_eq_empty_iff : v.text = "" ↔ v = empty := by
  constructor
  · intro h
    rw [← v.ofRevisions_revisions]
    rw [← String.toList_inj, text, String.toList_ofList, chars] at h
    cases hv : v.revisions with
    | nil => rfl
    | cons x rest =>
      rw [hv] at h
      cases rest <;> simp [List.intercalate, Revision.chars] at h
  · rintro rfl
    rfl

theorem parse_text (v : RevisionVector) : parse v.text = .ok v := by
  rw [parse_eq_ok_iff]
  by_cases hv : v = empty
  · exact .inl ⟨text_eq_empty_iff.2 hv, hv⟩
  · exact .inr ⟨mt text_eq_empty_iff.1 hv, _, _, v.isList_text, v.reads_text, fun _ ↦ mem_revisions⟩

theorem text_injective (h : v.text = w.text) : v = w :=
  Except.ok.inj (v.parse_text.symm.trans (h ▸ w.parse_text))

/-- The vectors that lists of revisions and texts give, and their updates, removals and joins. -/
inductive Arises : RevisionVector → Prop
  | collected (rs : List Revision) : Arises (ofRevisions rs)
  | read {s : String} {v : RevisionVector} : parse s = .ok v → Arises v
  | updated {v : RevisionVector} (x : Revision) : Arises v → Arises (v.update x)
  | removed {v : RevisionVector} (c : UInt32) : Arises v → Arises (v.remove c)
  | joined {v w : RevisionVector} : Arises v → Arises w → Arises (v.join w)

theorem arises (v : RevisionVector) : v.Arises := by
  rw [← v.ofRevisions_revisions]
  exact .collected _

/-- Every vector arises from texts and revisions, keeps each component under its cluster id and is read back from its
written form, which is in the order of cluster ids. The texts that are read list revisions of different members, and
each other text is refused for its first part that cannot follow those before it. -/
theorem parse_iff_reads (s : String) (v : RevisionVector) :
    (v.Arises ∧ (v.components.entries = v.revisions.map fun x ↦ (x.clusterId, x)) ∧ parse v.text = .ok v) ∧
    (parse s = .ok v ↔ s = "" ∧ v = empty ∨
      s ≠ "" ∧ ∃ parts rs, IsList s parts ∧ Reads parts rs ∧ ∀ x, x ∈ rs ↔ v.revision? x.clusterId = some x) ∧
    (∀ e, parse s = .error e ↔ s ≠ "" ∧
      ∃ before part after rs, IsList s (before ++ part :: after) ∧ Reads before rs ∧ Offends rs part e) ∧
    (v.text = ",".intercalate (v.revisions.map Revision.text) ∧
      v.revisions.Pairwise fun x y ↦ x.clusterId < y.clusterId) ∧
    ∀ t w, parse s = .ok v → parse t = .ok w → (v = w ↔ v.text = w.text) :=
  ⟨⟨v.arises, v.entries_eq, v.parse_text⟩, parse_eq_ok_iff, fun _ ↦ parse_eq_error_iff,
    ⟨v.isList_text.joined, v.revisions_ascending⟩, fun _ _ _ _ ↦ ⟨congrArg text, text_injective⟩⟩

theorem parse_iff_reads_twoMembers :
    parse "r10-0-2,b20-1-1" = .ok (ofRevisions [.onTrunk 16 0 2, .onBranch 32 1 1]) ∧
      parse "b020-1-+1,r10-0-2" = .ok (ofRevisions [.onBranch 32 1 1, .onTrunk 16 0 2]) ∧
      (ofRevisions [.onTrunk 16 0 2, .onBranch 32 1 1]).text = (ofRevisions [.onBranch 32 1 1, .onTrunk 16 0 2]).text := by
  have hs : parse "r10-0-2,b20-1-1" = .ok (ofRevisions [.onTrunk 16 0 2, .onBranch 32 1 1]) := by decide +kernel
  have ht : parse "b020-1-+1,r10-0-2" = .ok (ofRevisions [.onBranch 32 1 1, .onTrunk 16 0 2]) := by decide +kernel
  obtain ⟨-, -, -, -, hsame⟩ := parse_iff_reads "r10-0-2,b20-1-1" (ofRevisions [.onTrunk 16 0 2, .onBranch 32 1 1])
  exact ⟨hs, ht, (hsame _ _ hs ht).1 (by decide +kernel)⟩

end RevisionVector

end NodeStore
