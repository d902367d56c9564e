import Mathlib.Data.Set.Card
import NodeStore.Proofs.MemberSweep

namespace NodeStore

theorem encard_of_nodup {α : Type} {l : List α} (h : l.Nodup) : {a | a ∈ l}.encard = l.length := by
  classical
  rw [← List.coe_toFinset, Set.encard_coe_eq_coe_finsetCard, List.toFinset_card_of_nodup h]

theorem encard_sum {α β : Type} {P : α → β → Prop} {n : α → Nat} {l : List α} (nodup : l.Nodup)
    (unique : ∀ a ∈ l, ∀ a' ∈ l, ∀ b, P a b → P a' b → a = a') (h : ∀ a ∈ l, {b | P a b}.encard = n a) :
    {b | ∃ a ∈ l, P a b}.encard = ((l.map n).sum : Nat) := by
  induction l with
  | nil => simp
  | cons a l ih =>
    have hmem {a' : α} (h : a' ∈ l) : a' ∈ a :: l := List.mem_cons_of_mem _ h
    rw [List.nodup_cons] at nodup
    have hrest := ih nodup.2 (fun b hb b' hb' ↦ unique b (hmem hb) b' (hmem hb')) fun b hb ↦ h b (hmem hb)
    have hsplit : {b | ∃ a' ∈ a :: l, P a' b} = {b | P a b} ∪ {b | ∃ a' ∈ l, P a' b} := by
      ext b
      exact List.exists_mem_cons_iff ..
    have hdisjoint : Disjoint {b | P a b} {b | ∃ a' ∈ l, P a' b} := by
      rw [Set.disjoint_left]
      intro b hb hx
      obtain ⟨a', ha', hb'⟩ := hx
      obtain rfl := unique a List.mem_cons_self a' (hmem ha') b hb hb'
      exact nodup.1 ha'
    rw [hsplit, Set.encard_union_eq hdisjoint, h a List.mem_cons_self, hrest, List.map_cons, List.sum_cons,
      Nat.cast_add]

theorem encard_mul {α β : Type} {P : α → β → Prop} {n : Nat} {l : List α} (nodup : l.Nodup)
    (unique : ∀ a ∈ l, ∀ a' ∈ l, ∀ b, P a b → P a' b → a = a') (h : ∀ a, {b | P a b}.encard = n) :
    {b | ∃ a ∈ l, P a b}.encard = (n * l.length : Nat) := by
  rw [encard_sum nodup unique fun a _ ↦ h a, List.map_const', List.sum_replicate_nat, Nat.mul_comm]

namespace Finding

variable {d : Document} {f : Finding} {r : Revision}

theorem changes_mark_iff : f.Changes d (.entry Property.branchCommits r) (.insertEntry "true") ↔
    ((∃ merge, f.verdict = .merged merge) ∧ Sweep.isMarked d f.revision = false) ∧ f.revision = r := by
  constructor
  · intro h
    generalize hk : Key.entry Property.branchCommits r = k at h
    generalize hc : Change.insertEntry "true" = c at h
    cases h with
    | entry | marker | flag => cases hc
    | mark hv hm => exact ⟨⟨⟨_, hv⟩, hm⟩, (Option.some.inj (congrArg Key.revision hk)).symm⟩
  · intro h
    obtain ⟨⟨⟨merge, hv⟩, hm⟩, rfl⟩ := h
    exact .mark hv hm

end Finding

namespace Correction

variable (d : Document)

theorem reverted_ofFindings (fs : List Finding) :
    (ofFindings d fs).reverted = fs.countP (·.verdict == .uncommitted) := by
  induction fs using List.reverseRecOn with
  | nil => rfl
  | append_singleton fs f ih =>
    rw [ofFindings_concat, List.countP_append, ← ih, add]
    cases hv : f.verdict with
    | merged merge => dsimp only; split <;> simp [hv]
    | uncommitted | ahead | unmerged | committed => simp [hv]

theorem marked_ofFindings {fs : List Finding} (spares : ∀ f ∈ fs, f.SparesMarks) :
    {r | ∃ f ∈ fs, f.Changes d (.entry Property.branchCommits r) (.insertEntry "true")}.encard =
      (ofFindings d fs).marked := by
  induction fs using List.reverseRecOn with
  | nil => simp [ofFindings, start]
  | append_singleton fs f ih =>
    have hfs := fun g hg ↦ spares g (List.mem_append_left _ hg)
    have hchange := (changes_ofFindings (d := d) hfs (.entry Property.branchCommits f.revision))
    simp only [exists_mem_concat, Finding.changes_mark_iff (f := f)]
    rw [ofFindings_concat, add]
    cases hv : f.verdict with
    | uncommitted | ahead | unmerged | committed => simpa [hv] using ih hfs
    | merged merge =>
      cases hm : Sweep.isMarked d f.revision with
      | true => simpa [hv, hm] using ih hfs
      | false =>
        cases hc : (ofFindings d fs).update.change? Property.branchCommits (some f.revision) with
        | none =>
          have hnew : f.revision ∉ {r | ∃ g ∈ fs,
              g.Changes d (.entry Property.branchCommits r) (.insertEntry "true")} := by
            intro hr
            cases hc.symm.trans ((hchange _).2 hr)
          have hset : {r | (∃ g ∈ fs, g.Changes d (.entry Property.branchCommits r) (.insertEntry "true")) ∨
              f.revision = r} = insert f.revision {r | ∃ g ∈ fs,
                g.Changes d (.entry Property.branchCommits r) (.insertEntry "true")} := by
            ext r
            rw [Set.mem_insert_iff, or_comm, eq_comm]
            rfl
          simp [hset, Set.encard_insert_of_notMem hnew, ih hfs]
        | some w =>
          obtain ⟨g, hg, hgw⟩ := (hchange w).1 hc
          obtain ⟨rfl, -⟩ := hgw.at_branchCommits (hfs g hg)
          have hset : {r | (∃ g ∈ fs, g.Changes d (.entry Property.branchCommits r) (.insertEntry "true")) ∨
              f.revision = r} = {r | ∃ g ∈ fs,
                g.Changes d (.entry Property.branchCommits r) (.insertEntry "true")} := by
            ext r
            refine or_iff_left_of_imp fun hr ↦ ?_
            subst hr
            exact ⟨g, hg, hgw⟩
          simp [hset, ih hfs]

end Correction

namespace Sweep

variable (s : Sweep) (head : Revision) (d : Document) (commit : Revision → Option String)

theorem entries_view_nodup : (s.entries d.view).Nodup := by
  rw [entries, List.nodup_flatMap]
  constructor
  · intro name _
    cases d.view.document.map? name with
    | none => exact .nil
    | some m =>
      have hkeys := m.keys_nodup.filter fun r ↦ r.clusterId == s.clusterId
      exact hkeys.map fun _ _ heq ↦ (Prod.mk.inj heq).2
  · refine (d.maps.keys_nodup.filter _).imp fun hne e he he' ↦ hne ?_
    dsimp only at he he'
    split at he
    · cases he
    · split at he'
      · cases he'
      · obtain ⟨_, -, rfl⟩ := List.mem_map.1 he
        obtain ⟨_, -, heq⟩ := List.mem_map.1 he'
        exact (congrArg Prod.fst heq).symm

theorem reverted_correctionOf :
    {e : String × Revision | s.Visits d e.1 e.2 ∧ s.IsLeftover head d commit e.2}.encard =
      (s.correctionOf head d commit).reverted := by
  have hset : {e : String × Revision | s.Visits d e.1 e.2 ∧ s.IsLeftover head d commit e.2} =
      {e | e ∈ (s.entries d.view).filter fun e : String × Revision ↦
        s.judge head d e.2 (commit e.2) == .uncommitted} := by
    ext e
    obtain ⟨name, r⟩ := e
    simp only [Set.mem_ofPred_eq, List.mem_filter, mem_entries_view, beq_iff_eq]
    exact and_congr_right fun hvisit ↦ (s.judge_eq_uncommitted_iff head d commit hvisit.2.2).symm
  rw [hset, encard_of_nodup ((s.entries_view_nodup d).filter _), correctionOf,
    Correction.reverted_ofFindings, List.countP_map, List.countP_eq_length_filter]
  rfl

theorem marked_correctionOf :
    {r | (∃ name, s.Visits d name r) ∧ IsUnmarkedMerge d commit r}.encard =
      (s.correctionOf head d commit).marked := by
  rw [correctionOf, ← Correction.marked_ofFindings d fun _ hf ↦ s.sparesMarks_findingOn head d commit hf]
  congr 1
  ext r
  rw [Set.mem_ofPred_eq, Set.mem_ofPred_eq, changes_findingOn_iff]
  constructor
  · intro hx
    obtain ⟨⟨name, hvisit⟩, hmerge⟩ := hx
    exact .mark hvisit hmerge
  · intro h
    rcases h.at_entry with ⟨hc, -⟩ | ⟨-, -, hmerge, hvisit⟩
    · cases hc
    · exact ⟨hvisit, hmerge⟩

variable {s head d commit} in
theorem counts_of_no_change (h : ∀ k c, ¬ s.TableChange head d commit k c) :
    (s.correctionOf head d commit).reverted = 0 ∧ (s.correctionOf head d commit).marked = 0 := by
  have hidle := no_change_iff.1 h
  constructor
  · rw [← Nat.cast_eq_zero (R := ℕ∞), ← reverted_correctionOf, Set.encard_eq_zero, Set.eq_empty_iff_forall_notMem]
    exact fun e he ↦ (hidle e.1 e.2 he.1).1 he.2
  · rw [← Nat.cast_eq_zero (R := ℕ∞), ← marked_correctionOf, Set.encard_eq_zero, Set.eq_empty_iff_forall_notMem]
    intro r hr
    obtain ⟨⟨name, hvisit⟩, hmerge⟩ := hr
    exact (hidle name r hvisit).2 hmerge

end Sweep

namespace Member.Sweeps

variable {m : Member} {config : SweepConfig} {s t : Store} {head : Revision} {checkpoint : RevisionVector}
  {outcome : MemberOutcome}

theorem encard_candidates (hs : s.WellFormed) {β : Type} {P : Document → β → Prop} {n : Document → Nat}
    (h : ∀ d, {b | P d b}.encard = n d) :
    {e : String × β | ∃ d, s.documents.get? e.1 = some d ∧ m.isCandidate checkpoint d = true ∧
      P d e.2}.encard = (((m.candidates s checkpoint).map n).sum : Nat) := by
  have hone (d : Document) : {e : String × β | d.id = e.1 ∧ P d e.2}.encard = n d := by
    have hset : {e : String × β | d.id = e.1 ∧ P d e.2} = (fun b ↦ (d.id, b)) '' {b | P d b} := by
      ext e
      obtain ⟨id, b⟩ := e
      simp [and_comm]
    have hinjective : Function.Injective fun b : β ↦ (d.id, b) := fun _ _ heq ↦ (Prod.mk.inj heq).2
    rw [hset, hinjective.encard_image, h d]
  rw [← encard_sum (candidates_nodup hs checkpoint) ?_ fun d _ ↦ hone d]
  · congr 1
    ext e
    obtain ⟨id, b⟩ := e
    simp only [Set.mem_ofPred_eq, mem_candidates hs]
    constructor
    · intro hx
      obtain ⟨d, hd, hcandidate, hb⟩ := hx
      exact ⟨d, ⟨hs.stored hd, hcandidate⟩, (hs id d hd).1, hb⟩
    · intro hx
      obtain ⟨d, ⟨hd, hcandidate⟩, rfl, hb⟩ := hx
      exact ⟨d, hd, hcandidate, hb⟩
  · intro d hd d' hd' e he he'
    have hget := ((mem_candidates hs).1 hd').1
    rw [he'.1, ← he.1, ((mem_candidates hs).1 hd).1] at hget
    exact Option.some.inj hget

/-- A sweep reports as reverted the entries of leftovers on the swept documents. -/
theorem encard_reverted (h : m.Sweeps config s head checkpoint outcome t) (hs : s.WellFormed) :
    {e : String × String × Revision | ∃ d, s.documents.get? e.1 = some d ∧ m.isCandidate checkpoint d = true ∧
      (m.toSweep config).Visits d e.2.1 e.2.2 ∧
        (m.toSweep config).IsLeftover head d (s.commitOf d) e.2.2}.encard = outcome.counts.reverted := by
  rw [h.reverted]
  exact encard_candidates hs fun d ↦ (m.toSweep config).reverted_correctionOf head d (s.commitOf d)

/-- A sweep reports as marked the merged revisions without a mark on the swept documents. -/
theorem encard_marked (h : m.Sweeps config s head checkpoint outcome t) (hs : s.WellFormed) :
    {e : String × Revision | ∃ d, s.documents.get? e.1 = some d ∧ m.isCandidate checkpoint d = true ∧
      (∃ name, (m.toSweep config).Visits d name e.2) ∧
        Sweep.IsUnmarkedMerge d (s.commitOf d) e.2}.encard = outcome.counts.marked := by
  rw [h.marked]
  exact encard_candidates hs fun d ↦ (m.toSweep config).marked_correctionOf head d (s.commitOf d)

end Member.Sweeps

end NodeStore
