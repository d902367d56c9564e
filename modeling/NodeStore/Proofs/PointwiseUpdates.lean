import Mathlib.Data.List.Basic
import NodeStore.Proofs.Entries

namespace NodeStore

def Change.flag (c : Change) (k : Key) (old : Bool) : Bool :=
  match c with
  | setFlag value => if k.name = Property.deletedOnce then value else old
  | _ => old

def Change.Writes (c : Change) (k : Key) (name : String) : Prop :=
  (∃ r, k = .entry name r) ∧ ∀ value, c ≠ .setFlag value

namespace Update

def Writes (u : Update) (name : String) : Prop := ∃ k c, u.changes.get? k = some c ∧ c.Writes k name

def Raises (u : Update) : Prop := ∃ k, k.name = Property.deletedOnce ∧ u.changes.get? k = some (.setFlag true)

def OnlyRaises (u : Update) : Prop := ∀ k value, u.changes.get? k = some (.setFlag value) → value = true

/-- The update changes entries of the member `c` only, and does not reset the flag. -/
structure IsOwn (c : UInt32) (u : Update) : Prop where
  entries : ∀ name r ch, u.change? name (some r) = some ch → r.clusterId = c
  flag : u.OnlyRaises

theorem Writes.congr {u v : Update} (h : ∀ name r, u.change? name (some r) = v.change? name (some r)) {name : String}
    (hw : u.Writes name) : v.Writes name := by
  obtain ⟨_, c, hc, ⟨r, rfl⟩, hflag⟩ := hw
  exact ⟨_, c, (h name r).symm.trans hc, ⟨r, rfl⟩, hflag⟩

end Update

namespace Document

variable {d e : Document} {name : String} {k : Key} {c : Change} {u v : Update}

theorem ext_map? (id : d.id = e.id) (path : d.path = e.path) (maps : ∀ name, d.map? name = e.map? name)
    (deletedOnce : d.deletedOnce = e.deletedOnce) (modCount : d.modCount = e.modCount) : d = e := by
  cases d
  cases e
  exact (Document.mk.injEq ..).mpr ⟨id, path, SortedMap.ext_get? maps, deletedOnce, modCount⟩

def Fills (d : Document) (name : String) : Prop :=
  (d.map? name).isSome = true → ∃ r, (d.valueAt? name r).isSome = true

theorem Fills.congr (hd : d.Fills name) (h : e.map? name = d.map? name) : e.Fills name := by
  unfold Fills valueAt?
  rw [h]
  exact hd

theorem map?_eq_of_fills (hd : d.Fills name) (he : e.Fills name) (h : ∀ r, d.valueAt? name r = e.valueAt? name r) :
    d.map? name = e.map? name := by
  unfold Fills at hd he
  unfold valueAt? at hd he h
  cases hm : d.map? name with
  | none =>
    cases hn : e.map? name with
    | none => rfl
    | some n =>
      obtain ⟨r, hr⟩ := he (by rw [hn]; rfl)
      rw [← h r, hm] at hr
      cases hr
  | some m =>
    cases hn : e.map? name with
    | none =>
      obtain ⟨r, hr⟩ := hd (by rw [hm]; rfl)
      rw [h r, hn] at hr
      cases hr
    | some n =>
      simp only [hm, hn, Option.bind_some] at h
      rw [SortedMap.ext_get? h]

section Step

theorem map?_insertEntry_of_ne (d : Document) {name' : String} (h : name' ≠ name) (r : Revision) (value : String) :
    (d.insertEntry name r value).map? name' = d.map? name' := SortedMap.get?_insert_of_ne _ _ h

theorem map?_applyChange (d : Document) (h : ¬ c.Writes k name) : (d.applyChange k c).map? name = d.map? name := by
  obtain ⟨name', revision⟩ := k
  have hne (hc : ∀ value, c ≠ .setFlag value) {r : Revision} (hr : revision = some r) : name ≠ name' := fun hname ↦
    h ⟨⟨r, by rw [hname, hr]; rfl⟩, hc⟩
  cases c with
  | setFlag value =>
    rw [applyChange]
    split <;> rfl
  | insertEntry value =>
    cases hr : revision with
    | none => rfl
    | some r => exact map?_insertEntry_of_ne d (hne (by simp) hr) r value
  | eraseEntry =>
    cases hr : revision with
    | none => rfl
    | some r =>
      have hname := hne (by simp) hr
      simp only [applyChange, Option.elim, eraseEntry]
      split
      · rfl
      · split
        · exact SortedMap.get?_erase_of_ne _ hname
        · exact SortedMap.get?_insert_of_ne _ _ hname
  | raiseEntry x =>
    cases hr : revision with
    | none => rfl
    | some r =>
      have hinsert := map?_insertEntry_of_ne d (hne (by simp) hr) r x.text
      simp only [applyChange, Option.elim, raiseEntry]
      split
      · split
        · exact hinsert
        · rfl
      · exact hinsert

theorem fills_eraseEntry (d : Document) (name : String) (r : Revision) : (d.eraseEntry name r).Fills name := by
  intro hsome
  unfold eraseEntry at hsome ⊢
  split at hsome
  next hnone =>
    rw [hnone] at hsome
    cases hsome
  next m hm =>
    split at hsome
    next =>
      rw [map?, SortedMap.get?_erase_self] at hsome
      cases hsome
    next hrest =>
      rw [if_neg hrest]
      rw [SortedMap.isEmpty_iff, not_forall] at hrest
      obtain ⟨r', hr'⟩ := hrest
      refine ⟨r', ?_⟩
      rw [valueAt?, map?, SortedMap.get?_insert_self, Option.bind_some]
      exact Option.isSome_iff_ne_none.2 hr'

theorem fills_applyChange (d : Document) (h : c.Writes k name) : (d.applyChange k c).Fills name := by
  obtain ⟨⟨r, rfl⟩, hflag⟩ := h
  have hvalue := d.valueAt?_applyChange name r (.entry name r) c
  rw [if_pos rfl] at hvalue
  cases c with
  | setFlag value => exact absurd rfl (hflag value)
  | eraseEntry => exact d.fills_eraseEntry name r
  | insertEntry value => exact fun _ ↦ ⟨r, by rw [hvalue]; rfl⟩
  | raiseEntry x =>
    refine fun _ ↦ ⟨r, ?_⟩
    rw [hvalue]
    cases hold : (d.valueAt? name r).bind Revision.parse? with
    | none => simp only [Change.effect, hold, Option.isSome_some]
    | some y =>
      obtain ⟨old, hold', -⟩ := Option.bind_eq_some_iff.1 hold
      simp only [Change.effect, hold]
      split
      · rfl
      · rw [hold']
        rfl

theorem deletedOnce_applyChange (d : Document) (k : Key) (c : Change) :
    (d.applyChange k c).deletedOnce = c.flag k d.deletedOnce := by
  obtain ⟨maps, flag, heq, hflag⟩ := d.applyChange_eq k c
  cases c with
  | setFlag value =>
    rw [applyChange, Change.flag]
    split <;> rfl
  | insertEntry | eraseEntry | raiseEntry =>
    rw [heq]
    exact hflag.resolve_right (by simp)

end Step

section Run

theorem map?_foldl (d : Document) {l : List (Key × Change)} (h : ∀ e ∈ l, ¬ e.2.Writes e.1 name) :
    (l.foldl (fun d e ↦ d.applyChange e.1 e.2) d).map? name = d.map? name := by
  induction l generalizing d with
  | nil => rfl
  | cons e l ih =>
    rw [List.forall_mem_cons] at h
    rw [List.foldl_cons, ih _ h.2, map?_applyChange d h.1]

theorem fills_foldl (d : Document) {l : List (Key × Change)}
    (h : d.Fills name ∨ ∃ e ∈ l, e.2.Writes e.1 name) :
    (l.foldl (fun d e ↦ d.applyChange e.1 e.2) d).Fills name := by
  induction l generalizing d with
  | nil => exact h.resolve_right (by simp)
  | cons e l ih =>
    rw [List.foldl_cons]
    refine ih _ ?_
    by_cases hw : e.2.Writes e.1 name
    · exact .inl (d.fills_applyChange hw)
    · refine h.imp (fun hd ↦ hd.congr (d.map?_applyChange hw)) fun hx ↦ ?_
      exact (List.exists_mem_cons_iff ..).1 hx |>.resolve_left hw

theorem map?_apply (d : Document) (h : ¬ u.Writes name) : (d.apply u).map? name = d.map? name :=
  d.map?_foldl fun e he hw ↦ h ⟨e.1, e.2, SortedMap.mem_entries_iff.1 he, hw⟩

theorem fills_apply (d : Document) (h : d.Fills name ∨ u.Writes name) : (d.apply u).Fills name :=
  d.fills_foldl (h.imp_right fun ⟨k, c, hc, hw⟩ ↦ ⟨(k, c), SortedMap.mem_entries_iff.2 hc, hw⟩)

theorem modCount_apply (d : Document) (u : Update) : (d.apply u).modCount = d.modCount + 1 := by
  obtain ⟨_, _, h, -⟩ := d.apply_eq u
  rw [h]

theorem deletedOnce_apply_eq (d : Document) (u : Update) :
    (d.apply u).deletedOnce = u.changes.entries.foldl (fun flag e ↦ e.2.flag e.1 flag) d.deletedOnce := by
  have hfold (l : List (Key × Change)) : (l.foldl (fun d e ↦ d.applyChange e.1 e.2) d).deletedOnce =
      l.foldl (fun flag e ↦ e.2.flag e.1 flag) d.deletedOnce := by
    induction l generalizing d with
    | nil => rfl
    | cons e l ih => rw [List.foldl_cons, List.foldl_cons, ih, deletedOnce_applyChange]
  exact hfold u.changes.entries

theorem deletedOnce_apply_iff (d : Document) (h : u.OnlyRaises) :
    (d.apply u).deletedOnce = true ↔ d.deletedOnce = true ∨ u.Raises := by
  have hfold (l : List (Key × Change)) (hl : ∀ e ∈ l, ∀ value, e.2 = .setFlag value → value = true) (flag : Bool) :
      l.foldl (fun flag e ↦ e.2.flag e.1 flag) flag = true ↔
        flag = true ∨ ∃ e ∈ l, e.1.name = Property.deletedOnce ∧ e.2 = .setFlag true := by
    induction l generalizing flag with
    | nil => simp
    | cons e l ih =>
      rw [List.forall_mem_cons] at hl
      rw [List.foldl_cons, ih hl.2, List.exists_mem_cons_iff, ← or_assoc]
      refine or_congr_left ?_
      cases hc : e.2 with
      | setFlag value =>
        obtain rfl := hl.1 value hc
        simp only [Change.flag]
        split <;> simp_all
      | insertEntry | eraseEntry | raiseEntry => simp [Change.flag]
  have hflag := hfold u.changes.entries
    (fun e he value hc ↦ h e.1 value (SortedMap.mem_entries_iff.1 (by rw [← hc]; exact he))) d.deletedOnce
  rw [deletedOnce_apply_eq, hflag]
  refine or_congr_right ⟨?_, ?_⟩
  · intro hx
    obtain ⟨⟨k, c⟩, he, hname, rfl⟩ := hx
    exact ⟨k, hname, SortedMap.mem_entries_iff.1 he⟩
  · intro hx
    obtain ⟨k, hname, hc⟩ := hx
    exact ⟨(k, _), SortedMap.mem_entries_iff.2 hc, hname, rfl⟩

theorem apply_congr (entries : ∀ name r, u.change? name (some r) = v.change? name (some r))
    (flag : (d.apply u).deletedOnce = (d.apply v).deletedOnce) : d.apply u = d.apply v := by
  refine ext_map? (by simp) (by simp) (fun name ↦ ?_) flag (by rw [modCount_apply, modCount_apply])
  by_cases hw : u.Writes name
  · refine map?_eq_of_fills (d.fills_apply (.inr hw)) (d.fills_apply (.inr (hw.congr entries))) fun r ↦ ?_
    rw [valueAt?_apply, valueAt?_apply, entries]
  · have hw' : ¬ v.Writes name := fun hv ↦ hw (hv.congr fun name r ↦ (entries name r).symm)
    rw [d.map?_apply hw, d.map?_apply hw']

/-- Updates of different entries can be made in any order, if they agree about the flag. -/
theorem apply_comm (entries : ∀ name r, u.change? name (some r) = none ∨ v.change? name (some r) = none)
    (flag : ((d.apply u).apply v).deletedOnce = ((d.apply v).apply u).deletedOnce) :
    (d.apply u).apply v = (d.apply v).apply u := by
  refine ext_map? (by simp) (by simp) (fun name ↦ ?_) flag (by simp only [modCount_apply])
  by_cases hw : u.Writes name ∨ v.Writes name
  · have hu : (d.apply u).Fills name ∨ v.Writes name := hw.imp_left fun h ↦ d.fills_apply (.inr h)
    have hv : (d.apply v).Fills name ∨ u.Writes name := hw.symm.imp_left fun h ↦ d.fills_apply (.inr h)
    refine map?_eq_of_fills (fills_apply _ hu) (fills_apply _ hv) fun r ↦ ?_
    simp only [valueAt?_apply]
    rcases entries name r with h | h <;> simp only [h]
  · rw [not_or] at hw
    rw [map?_apply _ hw.2, map?_apply _ hw.1, map?_apply _ hw.1, map?_apply _ hw.2]

theorem apply_comm_of_onlyRaises
    (entries : ∀ name r, u.change? name (some r) = none ∨ v.change? name (some r) = none)
    (hu : u.OnlyRaises) (hv : v.OnlyRaises) : (d.apply u).apply v = (d.apply v).apply u := by
  refine apply_comm entries ?_
  rw [Bool.eq_iff_iff, deletedOnce_apply_iff _ hv, deletedOnce_apply_iff _ hu, deletedOnce_apply_iff _ hu,
    deletedOnce_apply_iff _ hv, or_right_comm]

theorem apply_comm_of_isOwn {c c' : UInt32} (hne : c ≠ c') (hu : u.IsOwn c) (hv : v.IsOwn c') :
    (d.apply u).apply v = (d.apply v).apply u := by
  refine apply_comm_of_onlyRaises (fun name r ↦ ?_) hu.flag hv.flag
  cases hc : u.change? name (some r) with
  | none => exact .inl rfl
  | some ch =>
    cases hc' : v.change? name (some r) with
    | none => exact .inr rfl
    | some ch' => exact absurd ((hu.entries name r ch hc).symm.trans (hv.entries name r ch' hc')) hne

theorem foldl_apply_comm {c c' : UInt32} (hne : c ≠ c') {us vs : List Update} (hus : ∀ u ∈ us, u.IsOwn c)
    (hvs : ∀ v ∈ vs, v.IsOwn c') (d : Document) :
    vs.foldl apply (us.foldl apply d) = us.foldl apply (vs.foldl apply d) := by
  have hone (us : List Update) (hus : ∀ u ∈ us, u.IsOwn c) {v : Update} (hv : v.IsOwn c') (d : Document) :
      (us.foldl apply d).apply v = us.foldl apply (d.apply v) := by
    induction us generalizing d with
    | nil => rfl
    | cons u us ih =>
      rw [List.forall_mem_cons] at hus
      rw [List.foldl_cons, List.foldl_cons, ih hus.2, apply_comm_of_isOwn hne hus.1 hv]
  induction vs generalizing d with
  | nil => rfl
  | cons v vs ih =>
    rw [List.forall_mem_cons] at hvs
    rw [List.foldl_cons, List.foldl_cons, hone us hus hvs.1, ih hvs.2]

end Run

end Document

end NodeStore
