import NodeStore.Proofs.UpdateHistory

namespace NodeStore

/-- The update sets the entry to `v` if it is missing. It may require and change more. -/
structure Update.Claims (u : Update) (id name : String) (r : Revision) (v : String) : Prop where
  document : u.id = id
  absent : u.condition? name (some r) = some .absent
  value : u.change? name (some r) = some (.insertEntry v)

theorem Update.Claims.free_of_meets {u : Update} {id name : String} {r : Revision} {v : String}
    (h : u.Claims id name r v) {d : Document} (hm : d.meets u = true) : d.valueAt? name r = none :=
  Option.isNone_iff_eq_none.1 (Document.satisfies_of_meets hm h.absent)

/-- The call does not change the entry, and leaves its document in the store. -/
def Edit.Spares (id name : String) (r : Revision) : Edit → Prop
  | upsert u | updateIf u => u.id = id → u.change? name (some r) = none
  | remove other => other ≠ id

inductive Turn where
  | claim (u : Update)
  | other (e : Edit)

namespace Turn

def edit : Turn → Edit
  | claim u => .updateIf u
  | other e => e

def claim? : Turn → Option Update
  | claim u => some u
  | other _ => none

def Contends (id name : String) (r : Revision) : Turn → Prop
  | claim u => ∃ v, u.Claims id name r v
  | other e => e.Spares id name r

end Turn

namespace Store

def Shows (s : Store) (id name : String) (r : Revision) (value : Option String) : Prop :=
  ∃ d, s.documents.get? id = some d ∧ d.valueAt? name r = value

def accepts (s : Store) (u : Update) : Bool :=
  match (s.updateIf u).1 with
  | .ok answer => answer.isSome
  | .error _ => false

def winners (s : Store) : List Turn → List Update
  | [] => []
  | turn :: turns => (turn.claim?.filter s.accepts).toList ++ (turn.edit.apply s).winners turns

def afterTurns (s : Store) (turns : List Turn) : Store := s.after (turns.map Turn.edit)

/-- The entry has the value `v`, and no claim changes anything. -/
def Settled (s : Store) (id name : String) (r : Revision) (v : String) : Prop :=
  s.Shows id name r (some v) ∧ ∀ u v', u.Claims id name r v' → s.updateIf u = (.ok none, s)

variable {s : Store} {id name : String} {r : Revision} {value : Option String} {v v' : String} {u : Update}
  {turn : Turn} {turns : List Turn}

section Step

theorem available_edit (e : Edit) (s : Store) : (e.apply s).available = s.available := by
  have houtcome := e.outcome s
  generalize e.apply s = t at houtcome
  cases houtcome <;> rfl

theorem available_of_accepts (h : s.accepts u = true) : s.available = true := by
  by_contra ha
  rw [accepts, updateIf, if_neg ha] at h
  cases h

theorem filter_accepts_claim (s : Store) (u : Update) :
    (Turn.claim u).claim?.filter s.accepts = if s.accepts u = true then some u else none := Option.filter_some

theorem turn_rejected (h : s.accepts u = false ∧ (s.updateIf u).2 = s) :
    (Turn.claim u).claim?.filter s.accepts = none ∧ (Turn.claim u).edit.apply s = s :=
  ⟨by rw [filter_accepts_claim, if_neg (Bool.eq_false_iff.1 h.1)], h.2⟩

theorem Shows.spared (h : s.Shows id name r value) {e : Edit} (he : e.Spares id name r) :
    (e.apply s).Shows id name r value := by
  obtain ⟨d, hd, hvalue⟩ := h
  have hkept : Event.edit e ≠ .edit (.remove id) := fun heq ↦ by
    obtain rfl := Event.edit.inj heq
    exact he rfl
  have hspares : ∀ u ∈ ((Event.edit e).made? id s).toList, u.change? name (some r) = none := by
    intro u hu
    obtain ⟨call, heq, hcall, hid⟩ := Event.of_made? (Option.mem_toList.1 hu)
    obtain rfl := Event.edit.inj heq
    cases e with
    | upsert u' | updateIf u' =>
      obtain rfl := Option.some.inj hcall
      exact he hid
    | remove other => cases hcall
  have hunfolds := s.unfolds_apply hkept
  rw [hd] at hunfolds
  generalize hafter : ((Event.edit e).apply s).documents.get? id = after at hunfolds
  cases hunfolds with
  | kept => exact ⟨_, hafter, (d.valueAt?_applyAll_of_no_change hspares).trans hvalue⟩

theorem Shows.claimed (h : s.Shows id name r none) (hu : u.Claims id name r v) :
    s.accepts u = true ∧ (s.updateIf u).2.Shows id name r (some v) ∨
      s.accepts u = false ∧ (s.updateIf u).2 = s := by
  obtain ⟨d, hd, -⟩ := h
  rw [← hu.document] at hd
  have hanswer := s.updateIf_answers u
  unfold accepts
  generalize s.updateIf u = answer at hanswer ⊢
  cases hanswer with
  | @changed d' =>
    refine .inl ⟨rfl, d'.apply u, ?_, ?_⟩
    · rw [put, hu.document, SortedMap.get?_insert_self]
    · simp only [Document.valueAt?_apply, hu.value, Change.effect]
  | made hmakes => cases hd.symm.trans hmakes.missing
  | rejected | offline => exact .inr ⟨rfl, rfl⟩
  | unreadable _ hmissing => cases hd.symm.trans hmissing

theorem Shows.accepts_of_only (h : s.Shows id name r none) (hu : u.Claims id name r v)
    (honly : ∀ k ∈ u.conditions.keys, k = .entry name r) (ha : s.available = true) : s.accepts u = true := by
  obtain ⟨d, hd, hfree⟩ := h
  have hmeets : d.meets u = true := by
    refine List.all_eq_true.2 fun e he ↦ ?_
    obtain ⟨k, c⟩ := e
    obtain rfl := honly k (List.mem_map_of_mem he)
    obtain rfl := Option.some.inj ((SortedMap.mem_entries_iff.1 he).symm.trans hu.absent)
    exact Option.isNone_iff_eq_none.2 hfree
  rw [Store.accepts, updateIf_of_meets ha (by rw [hu.document]; exact hd) hmeets]
  rfl

theorem Shows.settled (h : s.Shows id name r (some v)) (ha : s.available = true) : s.Settled id name r v := by
  refine ⟨h, fun u v' hu ↦ ?_⟩
  obtain ⟨d, hd, hvalue⟩ := h
  have hmeets : ¬ d.meets u = true := fun hm ↦ by
    rw [hu.free_of_meets hm] at hvalue
    cases hvalue
  unfold updateIf
  rw [if_pos ha, hu.document, hd]
  exact if_neg hmeets

theorem Shows.turn_taken (h : s.Shows id name r (some v)) (ht : turn.Contends id name r) :
    turn.claim?.filter s.accepts = none ∧ (turn.edit.apply s).Shows id name r (some v) := by
  cases turn with
  | other e => exact ⟨rfl, h.spared ht⟩
  | claim u =>
    obtain ⟨v', hu⟩ := ht
    have hrejected : s.accepts u = false ∧ (s.updateIf u).2 = s := by
      cases ha : s.available with
      | true =>
        rw [Store.accepts, (h.settled ha).2 u v' hu]
        exact ⟨rfl, rfl⟩
      | false =>
        rw [Store.accepts, updateIf, ha]
        exact ⟨rfl, rfl⟩
    obtain ⟨hnone, hsame⟩ := turn_rejected hrejected
    rw [hsame]
    exact ⟨hnone, h⟩

theorem Shows.turn_free (h : s.Shows id name r none) (ht : turn.Contends id name r) :
    (turn.claim?.filter s.accepts = none ∧ (turn.edit.apply s).Shows id name r none) ∨
      ∃ u v, turn.claim?.filter s.accepts = some u ∧ u.Claims id name r v ∧
        (turn.edit.apply s).Shows id name r (some v) := by
  cases turn with
  | other e => exact .inl ⟨rfl, h.spared ht⟩
  | claim u =>
    obtain ⟨v, hu⟩ := ht
    rcases h.claimed hu with ⟨haccepts, hshows⟩ | hrejected
    · exact .inr ⟨u, v, by rw [filter_accepts_claim, if_pos haccepts], hu, hshows⟩
    · obtain ⟨hnone, hsame⟩ := turn_rejected hrejected
      rw [hsame]
      exact .inl ⟨hnone, h⟩

end Step

section Run

theorem afterTurns_append (s : Store) (turns turns' : List Turn) :
    s.afterTurns (turns ++ turns') = (s.afterTurns turns).afterTurns turns' := by
  rw [afterTurns, List.map_append, after, List.foldl_append]
  rfl

theorem available_afterTurns (s : Store) (turns : List Turn) : (s.afterTurns turns).available = s.available := by
  induction turns generalizing s with
  | nil => rfl
  | cons turn turns ih => exact (ih (turn.edit.apply s)).trans (available_edit turn.edit s)

theorem Shows.run_taken (h : s.Shows id name r (some v)) (hturns : ∀ turn ∈ turns, turn.Contends id name r) :
    s.winners turns = [] ∧ (s.afterTurns turns).Shows id name r (some v) := by
  induction turns generalizing s with
  | nil => exact ⟨rfl, h⟩
  | cons turn turns ih =>
    rw [List.forall_mem_cons] at hturns
    obtain ⟨hnone, hnext⟩ := h.turn_taken hturns.1
    obtain ⟨hwinners, hshows⟩ := ih hnext hturns.2
    exact ⟨by rw [winners, hnone, hwinners]; rfl, hshows⟩

theorem Shows.run_free (h : s.Shows id name r none) (hturns : ∀ turn ∈ turns, turn.Contends id name r) :
    (s.winners turns = [] ∧ (s.afterTurns turns).Shows id name r none) ∨
      ∃ u v, s.winners turns = [u] ∧ u.Claims id name r v ∧ (s.afterTurns turns).Shows id name r (some v) := by
  induction turns generalizing s with
  | nil => exact .inl ⟨rfl, h⟩
  | cons turn turns ih =>
    rw [List.forall_mem_cons] at hturns
    rw [winners]
    rcases h.turn_free hturns.1 with ⟨hnone, hnext⟩ | ⟨u, v, hsome, hu, hnext⟩
    · rw [hnone]
      exact ih hnext hturns.2
    · obtain ⟨hwinners, hshows⟩ := hnext.run_taken hturns.2
      exact .inr ⟨u, v, by rw [hsome, hwinners]; rfl, hu, hshows⟩

theorem winners_of_offline (ha : s.available = false) (turns : List Turn) : s.winners turns = [] := by
  induction turns generalizing s with
  | nil => rfl
  | cons turn turns ih =>
    have hnone : turn.claim?.filter s.accepts = none := by
      refine Option.filter_eq_none_iff.2 fun u _ h ↦ ?_
      cases ha.symm.trans (available_of_accepts h)
    rw [winners, hnone, ih ((available_edit turn.edit s).trans ha)]
    rfl

theorem Shows.winners_of_only (h : s.Shows id name r none) (hturns : ∀ turn ∈ turns, turn.Contends id name r)
    (honly : ∀ u, .claim u ∈ turns → ∀ k ∈ u.conditions.keys, k = .entry name r) (ha : s.available = true) :
    s.winners turns = (turns.filterMap Turn.claim?).take 1 := by
  induction turns generalizing s with
  | nil => rfl
  | cons turn turns ih =>
    rw [List.forall_mem_cons] at hturns
    cases turn with
    | other e =>
      rw [List.filterMap_cons_none rfl]
      exact ih (h.spared hturns.1) hturns.2 (fun u hu ↦ honly u (List.mem_cons_of_mem _ hu))
        ((available_edit e s).trans ha)
    | claim u =>
      obtain ⟨v, hu⟩ := hturns.1
      have haccepts := h.accepts_of_only hu (honly u List.mem_cons_self) ha
      have hnext := ((h.claimed hu).resolve_right (by simp [haccepts])).2
      have hwinners : (s.updateIf u).2.winners turns = [] := (hnext.run_taken hturns.2).1
      rw [winners, filter_accepts_claim, if_pos haccepts, Turn.edit, Edit.apply, hwinners]
      rfl

theorem Shows.settled_of_accepts {before after : List Turn} (h : s.Shows id name r none)
    (hbefore : ∀ turn ∈ before, turn.Contends id name r) (hafter : ∀ turn ∈ after, turn.Contends id name r)
    (hu : u.Claims id name r v) (haccepts : (s.afterTurns before).accepts u = true) :
    (s.afterTurns (before ++ .claim u :: after)).Settled id name r v := by
  have hnext : ((s.afterTurns before).updateIf u).2.Shows id name r (some v) := by
    rcases h.run_free hbefore with ⟨-, hfree⟩ | ⟨-, v', -, -, htaken⟩
    · exact ((hfree.claimed hu).resolve_right (by simp [haccepts])).2
    · have hcontends : (Turn.claim u).Contends id name r := ⟨v, hu⟩
      have hnone := (htaken.turn_taken hcontends).1
      rw [filter_accepts_claim, if_pos haccepts] at hnone
      cases hnone
  have hshows := (hnext.run_taken hafter).2
  rw [afterTurns_append]
  refine hshows.settled ?_
  rw [available_afterTurns, ← available_of_accepts haccepts]
  exact available_edit (.updateIf u) _

end Run

/-- Of the writers that contend for an entry that is missing one succeeds at most. From then on the entry has its
value, and the other writers change nothing. If they require nothing else the first of them succeeds. -/
theorem one_claim_wins (h : s.Shows id name r none) (hturns : ∀ turn ∈ turns, turn.Contends id name r) :
    (s.winners turns).length ≤ 1 ∧
      (∀ before u v after, turns = before ++ .claim u :: after → u.Claims id name r v →
        (s.afterTurns before).accepts u = true →
        ∀ mid, mid <+: after → (s.afterTurns (before ++ .claim u :: mid)).Settled id name r v) ∧
      ((∀ u, .claim u ∈ turns → ∀ k ∈ u.conditions.keys, k = .entry name r) →
        s.winners turns = if s.available then (turns.filterMap Turn.claim?).take 1 else []) := by
  refine ⟨?_, fun before u v after hsplit hu haccepts mid hmid ↦ ?_, fun honly ↦ ?_⟩
  · rcases h.run_free hturns with ⟨hwinners, -⟩ | ⟨u, -, hwinners, -⟩ <;> simp [hwinners]
  · subst hsplit
    rw [List.forall_mem_append, List.forall_mem_cons] at hturns
    exact h.settled_of_accepts hturns.1 (fun turn ht ↦ hturns.2.2 turn (hmid.subset ht)) hu haccepts
  · split
    next ha => exact h.winners_of_only hturns honly ha
    next ha => exact winners_of_offline (Bool.eq_false_iff.2 ha) turns

def claimable : Store := empty.after [.upsert firstWrite]

def rivalWrite : Update :=
  ((Update.start "1:/a" false).insertEntry "p" (.onTrunk 2 0 1) "rival").requireEntry "p" (.onTrunk 2 0 1) false

def carefulWrite : Update := rivalWrite.requireEntry "q" (.onTrunk 1 0 1) true

def contention : List Turn :=
  [.claim carefulWrite, .other (.updateIf ((Update.start "1:/a" false).eraseEntry "p" (.onTrunk 1 0 1))),
    .claim rivalWrite, .other (.remove "1:/b"), .claim secondWrite]

theorem one_claim_wins_contention :
    claimable.Shows "1:/a" "p" (.onTrunk 2 0 1) none ∧
      (∀ turn ∈ contention, turn.Contends "1:/a" "p" (.onTrunk 2 0 1)) ∧
      (claimable.winners contention).length ≤ 1 ∧
      (claimable.afterTurns (contention.take 2)).accepts rivalWrite = true ∧
      (claimable.afterTurns contention).Settled "1:/a" "p" (.onTrunk 2 0 1) "rival" ∧
      claimable.winners contention.tail = [rivalWrite] := by
  have hshows : claimable.Shows "1:/a" "p" (.onTrunk 2 0 1) none :=
    ⟨(Document.blank ⟨["a"], by decide⟩).apply firstWrite, by decide +kernel, by decide +kernel⟩
  have hrival : rivalWrite.Claims "1:/a" "p" (.onTrunk 2 0 1) "rival" := ⟨rfl, by decide +kernel, by decide +kernel⟩
  have hcareful : carefulWrite.Claims "1:/a" "p" (.onTrunk 2 0 1) "rival" :=
    ⟨rfl, by decide +kernel, by decide +kernel⟩
  have hsecond : secondWrite.Claims "1:/a" "p" (.onTrunk 2 0 1) "second" :=
    ⟨rfl, by decide +kernel, by decide +kernel⟩
  have hturns : ∀ turn ∈ contention, turn.Contends "1:/a" "p" (.onTrunk 2 0 1) := by
    simp only [contention, List.forall_mem_cons]
    exact ⟨⟨_, hcareful⟩, fun _ ↦ (by decide +kernel), ⟨_, hrival⟩, (by decide : "1:/b" ≠ "1:/a"), ⟨_, hsecond⟩,
      List.forall_mem_nil _⟩
  have haccepts : (claimable.afterTurns (contention.take 2)).accepts rivalWrite = true := by decide +kernel
  have htail : ∀ u, .claim u ∈ contention.tail → ∀ k ∈ u.conditions.keys, k = .entry "p" (.onTrunk 2 0 1) := by
    have honly : ∀ u ∈ [rivalWrite, secondWrite], ∀ k ∈ u.conditions.keys, k = .entry "p" (.onTrunk 2 0 1) := by
      decide +kernel
    intro u hu
    exact honly u (by simpa [contention] using hu)
  obtain ⟨hone, hsettled, -⟩ := one_claim_wins hshows hturns
  obtain ⟨-, -, hfirst⟩ := one_claim_wins hshows fun turn ht ↦ hturns turn (List.mem_of_mem_tail ht)
  exact ⟨hshows, hturns, hone, haccepts, hsettled _ _ _ _ rfl hrival haccepts _ (List.prefix_refl _), hfirst htail⟩

end Store

end NodeStore
