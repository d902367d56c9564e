import NodeStore.Proofs.RecordedCheckpoints

namespace NodeStore

namespace Revision

variable {a b : Revision}

def newer (a b : Revision) : Revision := if b.isAfter a then b else a

instance : Std.Associative newer where
  assoc a b c := by
    unfold newer
    by_cases hba : b.isAfter a = true
    · by_cases hcb : c.isAfter b = true
      · simp [hba, hcb, isAfter_trans hcb hba]
      · simp [hba, hcb]
    · by_cases hcb : c.isAfter b = true
      · simp [hba, hcb]
      · -- `c` is not after `b`, which is not after `a`
        have hca : c.isAfter a ≠ true := fun h ↦
          hcb (isAfter_of_isAfter_of_not h (Bool.eq_false_iff.2 hba))
        simp [hba, hcb, hca]

instance : Std.IdempotentOp newer where
  idempotent a := by rw [newer, isAfter_self]; rfl

theorem toTrunk_eq_iff : a.toTrunk = b.toTrunk ↔ a.isAfter b = false ∧ b.isAfter a = false := by
  have hfields : a.toTrunk = b.toTrunk ↔ compareTime a b = .eq := by
    rw [compareTime_eq_eq]
    simp [toTrunk]
  have hswap : compareTime b a = (compareTime a b).swap := Std.OrientedCmp.eq_swap
  rw [hfields, isAfter, isAfter, hswap]
  cases compareTime a b <;> decide

end Revision

namespace RevisionVector

open Revision (newer)

variable {u v w : RevisionVector} {l m : List Revision} {c : UInt32} {r x : Revision}

theorem mem_revisions : x ∈ v.revisions ↔ v.revision? x.clusterId = some x := by
  rw [revisions, SortedMap.mem_values_iff]
  constructor
  · intro hx
    obtain ⟨c, hc⟩ := hx
    rwa [v.keyed c x hc]
  · exact fun hx ↦ ⟨_, hx⟩

theorem ofRevisions_revisions (v : RevisionVector) : ofRevisions v.revisions = v :=
  ofRevisions_eq fun _ ↦ mem_revisions

theorem revision?_observe_eq_merge (v : RevisionVector) (x : Revision) (c : UInt32) :
    (v.observe x).revision? c = (v.revision? c).merge newer (if x.clusterId = c then some x else none) := by
  rw [revision?_observe]
  by_cases hc : x.clusterId = c
  · subst hc
    cases hv : v.revision? x.clusterId with
    | none => simp [isBehind, hv]
    | some y => simp [isBehind, hv, newer]; split <;> rfl
  · simp [hc, Ne.symm hc]

theorem revision?_foldl_observe_eq_merge (v : RevisionVector) (l : List Revision) (c : UInt32) :
    (l.foldl observe v).revision? c = (v.revision? c).merge newer ((ofRevisions l).revision? c) := by
  induction l generalizing v with
  | nil => exact Option.merge_none_right.symm
  | cons x l ih =>
    have hnone : empty.revision? c = none := rfl
    rw [ofRevisions, List.foldl_cons, List.foldl_cons, ih, ih (empty.observe x), revision?_observe_eq_merge,
      revision?_observe_eq_merge, hnone, Option.merge_none_left]
    exact Std.Associative.assoc ..

theorem revision?_join (v w : RevisionVector) (c : UInt32) :
    (v.join w).revision? c = (v.revision? c).merge newer (w.revision? c) := by
  rw [join, revision?_foldl_observe_eq_merge, ofRevisions_revisions]

theorem foldl_observe (v : RevisionVector) (l : List Revision) : l.foldl observe v = v.join (ofRevisions l) :=
  ext_revision? fun c ↦ by rw [revision?_foldl_observe_eq_merge, revision?_join]

theorem join_assoc (u v w : RevisionVector) : (u.join v).join w = u.join (v.join w) :=
  ext_revision? fun c ↦ by
    simp only [revision?_join]
    exact Std.Associative.assoc ..

theorem join_self (v : RevisionVector) : v.join v = v :=
  ext_revision? fun c ↦ by
    rw [revision?_join]
    exact Std.IdempotentOp.idempotent _

theorem empty_join (v : RevisionVector) : empty.join v = v := v.ofRevisions_revisions

theorem join_empty (v : RevisionVector) : v.join empty = v := rfl

/-- `w` has every member of `v`, and no component of `v` is after that of `w`. -/
def IsBelow (v w : RevisionVector) : Prop :=
  ∀ c x, v.revision? c = some x → ∃ y, w.revision? c = some y ∧ x.isAfter y = false

theorem isBelow_iff : v.IsBelow w ↔ ∀ r, w.isBehind r = true → v.isBehind r = true := by
  constructor
  · intro h r hr
    rw [isBehind] at hr ⊢
    cases hv : v.revision? r.clusterId with
    | none => rfl
    | some x =>
      obtain ⟨y, hy, hxy⟩ := h _ x hv
      rw [hy] at hr
      exact Revision.isAfter_of_isAfter_of_not hr hxy
  · intro h c x hx
    obtain rfl := v.keyed c x hx
    refine exists_revision?_of_not_behind (Bool.eq_false_iff.2 fun hw ↦ ?_)
    -- what `w` is behind `v` would be behind, but `v` has it
    have hself := h x hw
    simp [isBehind, hx, Revision.isAfter_self] at hself

theorem isBehind_join : (v.join w).isBehind r = true ↔ v.isBehind r = true ∧ w.isBehind r = true := by
  have hw := isBehind_ofRevisions w.revisions r
  rw [ofRevisions_revisions] at hw
  rw [join, isBehind_foldl_observe, hw]

/-- The least vector above two others, by revision time. -/
structure IsLeastAbove (v w u : RevisionVector) : Prop where
  left : v.IsBelow u
  right : w.IsBelow u
  least (t : RevisionVector) : v.IsBelow t → w.IsBelow t → u.IsBelow t

theorem isLeastAbove_join (v w : RevisionVector) : IsLeastAbove v w (v.join w) where
  left := isBelow_iff.2 fun _ hr ↦ (isBehind_join.1 hr).1
  right := isBelow_iff.2 fun _ hr ↦ (isBehind_join.1 hr).2
  least _ hv hw := isBelow_iff.2 fun r hr ↦ isBehind_join.2 ⟨isBelow_iff.1 hv r hr, isBelow_iff.1 hw r hr⟩

def AgreesInTime (v w : RevisionVector) : Prop :=
  ∀ c, (v.revision? c).map Revision.toTrunk = (w.revision? c).map Revision.toTrunk

theorem AgreesInTime.of_isBelow (h : v.IsBelow w) (h' : w.IsBelow v) : v.AgreesInTime w := by
  intro c
  cases hv : v.revision? c with
  | none =>
    cases hw : w.revision? c with
    | none => rfl
    | some y =>
      obtain ⟨x, hx, -⟩ := h' c y hw
      cases hv.symm.trans hx
  | some x =>
    obtain ⟨y, hy, hxy⟩ := h c x hv
    obtain ⟨x', hx', hyx⟩ := h' c y hy
    obtain rfl := Option.some.inj (hv.symm.trans hx')
    rw [hy, Option.map_some, Option.map_some, Revision.toTrunk_eq_iff.2 ⟨hxy, hyx⟩]

theorem join_agreesInTime (v w : RevisionVector) : (v.join w).AgreesInTime (w.join v) :=
  have h := isLeastAbove_join v w
  have h' := isLeastAbove_join w v
  .of_isBelow (h.least _ h'.right h'.left) (h'.least _ h.right h.left)

def OnTrunk (v : RevisionVector) : Prop := ∀ x ∈ v.revisions, x.branch = false

theorem OnTrunk.branch (h : v.OnTrunk) (hx : v.revision? c = some x) : x.branch = false := by
  obtain rfl := v.keyed c x hx
  exact h x (mem_revisions.2 hx)

theorem OnTrunk.join (hv : v.OnTrunk) (hw : w.OnTrunk) : (v.join w).OnTrunk := by
  intro x hx
  have hchoice (a b : Revision) : newer a b = a ∨ newer a b = b := by
    unfold newer
    split
    · exact .inr rfl
    · exact .inl rfl
  rw [mem_revisions, revision?_join] at hx
  rcases Option.merge_eq_or_eq hchoice (v.revision? x.clusterId) (w.revision? x.clusterId) with h | h
  · exact hv.branch (h.symm.trans hx)
  · exact hw.branch (h.symm.trans hx)

theorem AgreesInTime.eq_of_onTrunk (h : v.AgreesInTime w) (hv : v.OnTrunk) (hw : w.OnTrunk) : v = w := by
  have htrunk {x : Revision} (hx : x.branch = false) : x.toTrunk = x := by
    rw [Revision.toTrunk, ← hx]
  have hself {v : RevisionVector} (hv : v.OnTrunk) (c : UInt32) :
      (v.revision? c).map Revision.toTrunk = v.revision? c := by
    cases hc : v.revision? c with
    | none => rfl
    | some x => rw [Option.map_some, htrunk (hv.branch hc)]
  refine ext_revision? fun c ↦ ?_
  rw [← hself hv, ← hself hw, h c]

/-- The first revision of `c` in the list that none of `c` there is after. -/
def newest? (l : List Revision) (c : UInt32) : Option Revision :=
  l.find? fun x ↦ x.clusterId = c ∧ ∀ y ∈ l, y.clusterId = c → y.isAfter x = false

theorem exists_split_of_revision?_ofRevisions (h : (ofRevisions l).revision? c = some x) :
    ∃ before after, l = before ++ x :: after ∧ ∀ y ∈ before, y.clusterId = c → x.isAfter y = true := by
  induction l using List.reverseRecOn with
  | nil => cases h
  | append_singleton l z ih =>
    rw [ofRevisions, List.foldl_append, List.foldl_cons, List.foldl_nil, revision?_observe] at h
    split at h
    next hz =>
      obtain rfl := Option.some.inj h
      obtain ⟨rfl, hbehind⟩ := hz
      exact ⟨l, [], rfl, (isBehind_ofRevisions l z).1 hbehind⟩
    next =>
      obtain ⟨before, after, rfl, hbefore⟩ := ih h
      exact ⟨before, after ++ [z], by simp, hbefore⟩

theorem mem_of_revision?_ofRevisions (h : (ofRevisions l).revision? c = some x) : x ∈ l := by
  obtain ⟨before, after, rfl, -⟩ := exists_split_of_revision?_ofRevisions h
  exact List.mem_append_cons_self

theorem exists_revision?_of_mem (h : x ∈ l) :
    ∃ y, (ofRevisions l).revision? x.clusterId = some y ∧ x.isAfter y = false := by
  refine exists_revision?_of_not_behind (Bool.eq_false_iff.2 fun hbehind ↦ ?_)
  have hself := (isBehind_ofRevisions l x).1 hbehind x h rfl
  rw [Revision.isAfter_self] at hself
  cases hself

theorem revision?_ofRevisions (l : List Revision) (c : UInt32) : (ofRevisions l).revision? c = newest? l c := by
  unfold newest?
  cases hx : (ofRevisions l).revision? c with
  | none =>
    refine (List.find?_eq_none.2 fun y hy hnewest ↦ ?_).symm
    obtain ⟨rfl, -⟩ := of_decide_eq_true hnewest
    obtain ⟨x, hx', -⟩ := exists_revision?_of_mem hy
    cases hx.symm.trans hx'
  | some x =>
    obtain ⟨before, after, hl, hbefore⟩ := exists_split_of_revision?_ofRevisions hx
    symm
    rw [List.find?_eq_some_iff_append]
    refine ⟨decide_eq_true ⟨(ofRevisions l).keyed c x hx, ?_⟩, before, after, hl, fun y hy ↦ ?_⟩
    · intro y hy hc
      obtain ⟨x', hx', hafter⟩ := exists_revision?_of_mem hy
      rw [hc, hx] at hx'
      obtain rfl := Option.some.inj hx'
      exact hafter
    · rw [Bool.not_eq_true', decide_eq_false_iff_not]
      rintro ⟨hc, hnewest⟩
      have hnot := hnewest x (by simp [hl]) ((ofRevisions l).keyed c x hx)
      rw [hbefore y hy hc] at hnot
      cases hnot

theorem ofRevisions_append (l m : List Revision) : ofRevisions (l ++ m) = (ofRevisions l).join (ofRevisions m) := by
  rw [ofRevisions, List.foldl_append, foldl_observe]
  rfl

theorem ofRevisions_agreesInTime (h : l.Perm m) : (ofRevisions l).AgreesInTime (ofRevisions m) := by
  have hbelow {l m : List Revision} (h : l.Perm m) : (ofRevisions l).IsBelow (ofRevisions m) := by
    refine isBelow_iff.2 fun r hr ↦ ?_
    rw [isBehind_ofRevisions] at hr ⊢
    exact fun x hx ↦ hr x (h.mem_iff.1 hx)
  exact .of_isBelow (hbelow h) (hbelow h.symm)

theorem join_ofRevisions_singleton (v : RevisionVector) (r : Revision) :
    v.join (ofRevisions [r]) = if v.isBehind r then v.update r else v := (foldl_observe v [r]).symm

theorem update_ne_of_isBehind (h : v.isBehind r = true) : v.update r ≠ v := by
  intro hsame
  rw [← hsame, isBehind_update, if_pos rfl, Revision.isAfter_self] at h
  cases h

/-- A join is a least vector above both, with the branch flags of the first where they are at one time, and so only
these depend on the order. The vector of a list has the first newest revision of each member and turns appending into
joining, and a vector is behind just the revisions that joining would put into it. -/
theorem join_laws (u v w : RevisionVector) (l m : List Revision) (r : Revision) :
    ((u.join v).join w = u.join (v.join w) ∧ v.join v = v ∧ empty.join v = v ∧ v.join empty = v) ∧
    ((v.join w).AgreesInTime (w.join v) ∧ (v.OnTrunk → w.OnTrunk → v.join w = w.join v)) ∧
    IsLeastAbove v w (v.join w) ∧
    ((∀ c, (ofRevisions l).revision? c = newest? l c) ∧
      ofRevisions (l ++ m) = (ofRevisions l).join (ofRevisions m) ∧
      (l.Perm m → (ofRevisions l).AgreesInTime (ofRevisions m))) ∧
    ((v.isBehind r = true ↔ v.join (ofRevisions [r]) ≠ v) ∧
      (v.isBehind r = true → v.join (ofRevisions [r]) = v.update r)) := by
  refine ⟨⟨join_assoc u v w, join_self v, empty_join v, join_empty v⟩,
    ⟨join_agreesInTime v w, fun hv hw ↦ (join_agreesInTime v w).eq_of_onTrunk (hv.join hw) (hw.join hv)⟩,
    isLeastAbove_join v w, ⟨revision?_ofRevisions l, ofRevisions_append l m, ofRevisions_agreesInTime⟩, ?_⟩
  rw [join_ofRevisions_singleton]
  cases hr : v.isBehind r with
  | false => simp
  | true => simp [update_ne_of_isBehind hr]

def atOneTime : List Revision := [.onTrunk 1 0 1, .onBranch 2 0 2, .onTrunk 2 0 2]

theorem join_laws_atOneTime :
    (ofRevisions [.onTrunk 1 0 1]).OnTrunk ∧ (ofRevisions [.onTrunk 2 0 2]).OnTrunk ∧
      (ofRevisions [.onTrunk 1 0 1]).join (ofRevisions [.onTrunk 2 0 2]) =
        (ofRevisions [.onTrunk 2 0 2]).join (ofRevisions [.onTrunk 1 0 1]) ∧
      atOneTime.Perm atOneTime.reverse ∧
      (ofRevisions atOneTime).AgreesInTime (ofRevisions atOneTime.reverse) ∧
      ofRevisions atOneTime ≠ ofRevisions atOneTime.reverse ∧
      (ofRevisions [.onTrunk 1 0 1]).isBehind (.onBranch 2 0 2) = true ∧
      (ofRevisions [.onTrunk 1 0 1]).join (ofRevisions [.onBranch 2 0 2]) =
        (ofRevisions [.onTrunk 1 0 1]).update (.onBranch 2 0 2) := by
  have hv : (ofRevisions [.onTrunk 1 0 1]).OnTrunk := by unfold OnTrunk; decide
  have hw : (ofRevisions [.onTrunk 2 0 2]).OnTrunk := by unfold OnTrunk; decide
  have hperm : atOneTime.Perm atOneTime.reverse := atOneTime.reverse_perm.symm
  have hbehind : (ofRevisions [.onTrunk 1 0 1]).isBehind (.onBranch 2 0 2) = true := by decide
  obtain ⟨-, ⟨-, hcomm⟩, -, ⟨-, -, hreordered⟩, -, hupdate⟩ := join_laws empty (ofRevisions [.onTrunk 1 0 1])
    (ofRevisions [.onTrunk 2 0 2]) atOneTime atOneTime.reverse (.onBranch 2 0 2)
  exact ⟨hv, hw, hcomm hv hw, hperm, hreordered hperm, by decide, hbehind, hupdate hbehind⟩

end RevisionVector

end NodeStore
