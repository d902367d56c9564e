import NodeStore.Proofs.Delivery

namespace NodeStore

inductive Call where
  | find (id : String)
  | updateIf (u : Update)

namespace Client

variable {α β : Type} (others : Nat → Store → Store)

/-- The calls of a client among others, each with the store that serves it. -/
def served : Client α → Nat → Store → List (Call × Store)
  | done _, _, _ => []
  | find id next, k, s =>
    (.find id, others k s) :: (next ((others k s).find id)).served (k + 1) (others k s)
  | updateIf u next, k, s =>
    (.updateIf u, others k s) ::
      (next ((others k s).updateIf u).1).served (k + 1) ((others k s).updateIf u).2
  | note _ next, k, s => next.served k s

theorem served_bind (c : Client α) (f : α → Client β) (k : Nat) (s : Store) :
    (c.bind f).served others k s = c.served others k s ++
      (f (c.runAmong others k s).1).served others (k + (c.served others k s).length)
        (c.runAmong others k s).2 := by
  induction c generalizing k s with
  | done a => rfl
  | find id next ih =>
    simp only [bind, runAmong, served, List.length_cons, ih, Nat.add_assoc, Nat.add_comm 1, List.cons_append]
  | updateIf u next ih =>
    simp only [bind, runAmong, served, List.length_cons, ih, Nat.add_assoc, Nat.add_comm 1, List.cons_append]
  | note line next ih => exact ih k s

theorem runAmong_bind (c : Client α) (f : α → Client β) (k : Nat) (s : Store) :
    (c.bind f).runAmong others k s =
      (f (c.runAmong others k s).1).runAmong others (k + (c.served others k s).length)
        (c.runAmong others k s).2 := by
  induction c generalizing k s with
  | done a => rfl
  | find id next ih => simp only [bind, runAmong, served, List.length_cons, ih, Nat.add_assoc, Nat.add_comm 1]
  | updateIf u next ih => simp only [bind, runAmong, served, List.length_cons, ih, Nat.add_assoc, Nat.add_comm 1]
  | note line next ih => exact ih k s

end Client

namespace Receiver

variable {others : Nat → Store → Store}

abbrev Reread := (Revision × Path) × Store

def Reread.call (e : Reread) : Call × Store := (.find e.1.2.id, e.2)

def Reread.recordIn (e : Reread) (s : Store) : Option String := s.recordAt? e.1.2 e.1.1

/-- The receiver only reads until it knows about the commit roots. If it finds none of them committed, it has
read them all. -/
theorem committedSince_served (others : Nat → Store → Store) (path : Path) (roots : List (Revision × Path))
    (k : Nat) (s : Store) :
    ∃ rereads : List Reread, (committedSince path roots).served others k s = rereads.map Reread.call ∧
      (((committedSince path roots).runAmong others k s).1 = .ok false →
        rereads.map Prod.fst = roots ∧ ∀ e ∈ rereads, e.recordIn e.2 = none) := by
  induction roots generalizing k s with
  | nil => exact ⟨[], rfl, fun _ ↦ ⟨rfl, by simp⟩⟩
  | cons e roots ih =>
    obtain ⟨r, root⟩ := e
    simp only [committedSince, Client.served, Client.runAmong]
    cases ha : (others k s).available with
    | false =>
      have hfind : (others k s).find root.id = .error Store.offline := by rw [Store.find, ha]; rfl
      refine ⟨[((r, root), others k s)], ?_, ?_⟩
      · simp only [hfind, Client.served, List.map_cons, List.map_nil, Reread.call]
      · simp [hfind, Client.runAmong]
    | true =>
      have hfind := Store.find_of_available ha root.id
      cases hrecord : (others k s).recordAt? root r with
      | some v =>
        have hcommitted : (((others k s).documents.get? root.id).bind (·.committedValue? r)).isSome = true := by
          rw [← Store.recordAt?, hrecord]
          rfl
        refine ⟨[((r, root), others k s)], ?_, ?_⟩
        · simp only [hfind, hcommitted, if_true, Client.served, List.map_cons, List.map_nil, Reread.call]
        · simp [hfind, hcommitted, Client.runAmong]
      | none =>
        have huncommitted :
            (((others k s).documents.get? root.id).bind (·.committedValue? r)).isSome = false := by
          rw [← Store.recordAt?, hrecord]
          rfl
        obtain ⟨rereads, hserved, hread⟩ := ih (k + 1) (others k s)
        refine ⟨((r, root), others k s) :: rereads, ?_, ?_⟩
        · simp only [hfind, huncommitted, Bool.false_eq_true, if_false, hserved, List.map_cons, Reread.call]
        · simp only [hfind, huncommitted, Bool.false_eq_true, if_false]
          intro hfalse
          obtain ⟨hroots, hnone⟩ := hread hfalse
          refine ⟨by rw [List.map_cons, hroots], fun e he ↦ ?_⟩
          rcases List.mem_cons.1 he with rfl | he
          · exact hrecord
          · exact hnone e he

theorem receiveOne_served (others : Nat → Store → Store) (path : Path) (u : Update) (tally : Tally) (k : Nat)
    (s : Store) :
    ∃ rereads : List Reread, (receiveOne path u tally).served others k s = rereads.map Reread.call ∨
      ∃ now, (receiveOne path u tally).served others k s = rereads.map Reread.call ++ [(.updateIf u, now)] ∧
        rereads.map Prod.fst = namedRoots path u ∧ ∀ e ∈ rereads, e.recordIn e.2 = none := by
  obtain ⟨rereads, hserved, hread⟩ := committedSince_served others path (namedRoots path u) k s
  refine ⟨rereads, ?_⟩
  rw [receiveOne, Client.served_bind, hserved]
  cases hc : ((committedSince path (namedRoots path u)).runAmong others k s).1 with
  | error e => exact .inl (by simp [Client.served])
  | ok committed =>
    cases committed with
    | true => exact .inl (by simp [Client.served])
    | false =>
      refine .inr ⟨others (k + (rereads.map Reread.call).length)
        ((committedSince path (namedRoots path u)).runAmong others k s).2, ?_, hread hc⟩
      simp only [Client.served, List.append_cancel_left_eq, List.cons_eq_cons, true_and]
      split <;> rfl

/-- The calls of the delivery of a batch: reads, and updates right after reads of all the commit roots that they
name, which were found uncommitted. -/
inductive Delivers (batch : Batch) : List (Call × Store) → Prop
  | done : Delivers batch []
  | read (rereads : List Reread) {rest : List (Call × Store)} : Delivers batch rest →
      Delivers batch (rereads.map Reread.call ++ rest)
  | update {path : Path} {u : Update} (rereads : List Reread) (now : Store) {rest : List (Call × Store)} :
      (path, u) ∈ batch → rereads.map Prod.fst = namedRoots path u → (∀ e ∈ rereads, e.recordIn e.2 = none) →
      Delivers batch rest → Delivers batch (rereads.map Reread.call ++ (.updateIf u, now) :: rest)

theorem Delivers.mono {batch batch' : Batch} (h : ∀ e ∈ batch, e ∈ batch') {calls : List (Call × Store)}
    (hd : Delivers batch calls) : Delivers batch' calls := by
  induction hd with
  | done => exact .done
  | read rereads _ ih => exact .read rereads ih
  | update rereads now hmem hroots hnone _ ih => exact .update rereads now (h _ hmem) hroots hnone ih

theorem receive_delivers (batch : Batch) (tally : Tally) (k : Nat) (s : Store) :
    Delivers batch ((receive batch tally).served others k s) := by
  induction batch generalizing tally k s with
  | nil => exact .done
  | cons e batch ih =>
    obtain ⟨path, u⟩ := e
    rw [receive, Client.served_bind]
    have hone (rest : List (Call × Store)) (hrest : Delivers ((path, u) :: batch) rest) :
        Delivers ((path, u) :: batch) ((receiveOne path u tally).served others k s ++ rest) := by
      obtain ⟨rereads, hone | ⟨now, hone, hroots, hnone⟩⟩ := receiveOne_served others path u tally k s
      · rw [hone]
        exact .read rereads hrest
      · rw [hone, List.append_assoc]
        exact .update rereads now List.mem_cons_self hroots hnone hrest
    refine hone _ ?_
    cases ((receiveOne path u tally).runAmong others k s).1 with
    | error e => exact .done
    | ok tally => exact (ih tally _ _).mono fun e he ↦ List.mem_cons_of_mem _ he

theorem reads_before_updateIf (rereads : List Reread) {rest before after : List (Call × Store)} {u : Update}
    {now : Store} (h : rereads.map Reread.call ++ rest = before ++ (.updateIf u, now) :: after) :
    ∃ later, before = rereads.map Reread.call ++ later ∧ rest = later ++ (.updateIf u, now) :: after := by
  induction rereads generalizing before with
  | nil => exact ⟨before, rfl, h⟩
  | cons e rereads ih =>
    cases before with
    | nil => cases (List.cons.inj h).1
    | cons c before =>
      obtain ⟨hc, htail⟩ := List.cons.inj h
      obtain ⟨later, hbefore, hrest⟩ := ih htail
      exact ⟨later, by rw [← hc, hbefore]; rfl, hrest⟩

theorem Delivers.before_updateIf {batch : Batch} {calls before after : List (Call × Store)} {u : Update}
    {now : Store} (hd : Delivers batch calls) (h : calls = before ++ (.updateIf u, now) :: after) :
    ∃ path earlier, ∃ rereads : List Reread, (path, u) ∈ batch ∧
      before = earlier ++ rereads.map Reread.call ∧ rereads.map Prod.fst = namedRoots path u ∧
      ∀ e ∈ rereads, e.recordIn e.2 = none := by
  induction hd generalizing before with
  | done => simp at h
  | read rereads _ ih =>
    obtain ⟨later, hbefore, hrest⟩ := reads_before_updateIf rereads h
    obtain ⟨path, earlier, rereads', hmem, hlater, hread⟩ := ih hrest
    exact ⟨path, _, rereads', hmem, by rw [hbefore, hlater, List.append_assoc], hread⟩
  | @update path v rereads then' rest hmem hroots hnone _ ih =>
    obtain ⟨later, hbefore, hrest⟩ := reads_before_updateIf rereads h
    cases later with
    | nil =>
      obtain ⟨hcall, -⟩ := List.cons.inj hrest
      obtain rfl := Call.updateIf.inj (Prod.mk.inj hcall).1
      exact ⟨path, [], rereads, hmem, by rw [hbefore, List.append_nil, List.nil_append], hroots, hnone⟩
    | cons c later =>
      obtain ⟨path', earlier, rereads', hmem', hlater, hread⟩ := ih (List.cons.inj hrest).2
      refine ⟨path', rereads.map Reread.call ++ c :: earlier, rereads', hmem', ?_, hread⟩
      rw [hbefore, hlater]
      simp

end Receiver

/-- The update `u` is the correction of `d`, swept by the commit values of the store `s`. -/
def IsCorrection (s : Store) (d : Document) (path : Path) (u : Update) : Prop :=
  path = d.path ∧ ∃ sw head c,
    (Sweep.correct sw (Surroundings.ofStore.lookup ⟨s, .zero⟩) head d.view).value = (c, none) ∧
      c.update? = some u

/-- An update reverts a change at `r`, whose commit root on `d` is the document at `root`. -/
def RevertsOn (d : Document) (u : Update) (r : Revision) (root : Path) : Prop :=
  (∃ name, u.change? name (some r) = some .eraseEntry) ∧
    (d.valueAt? Property.commitRoot r).bind d.path.ancestorAtText? = some root

def RevertsNoCommit (d : Document) (u : Update) (now : Store) : Prop :=
  ∀ r root, RevertsOn d u r root → now.recordAt? root r = none

namespace IsCorrection

variable {s : Store} {d : Document} {path : Path} {u : Update}

theorem exists_correctionIn (h : IsCorrection s d path u) :
    path = d.path ∧ ∃ (sw : Sweep) (head : Revision), u = (sw.correctionIn head s d).update := by
  obtain ⟨hpath, sw, head, c, hcorrect, hu⟩ := h
  obtain rfl := sw.correct_value_of_success head d (s.commitOf d)
    (fun _ _ hvalue ↦ Store.commitOf_of_commitValue hvalue) hcorrect
  exact ⟨hpath, sw, head, Sweep.update?_correctionOf hu⟩

theorem mem_namedRoots (h : IsCorrection s d path u) (r : Revision) (root : Path) :
    (r, root) ∈ Receiver.namedRoots path u ↔ RevertsOn d u r root := by
  obtain ⟨rfl, sw, head, rfl⟩ := h.exists_correctionIn
  rw [Sweep.correctionIn, Sweep.mem_namedRoots_correctionOf, RevertsOn]
  have hchange (name : String) : (sw.correctionOf head d (s.commitOf d)).update.change? name (some r) =
      some .eraseEntry ↔ sw.TableChange head d (s.commitOf d) (.entry name r) .eraseEntry :=
    sw.changes_correctionOf head d _ _ _
  simp only [hchange]
  constructor
  · intro hx
    obtain ⟨⟨name, hvisit⟩, hleft, hroot⟩ := hx
    exact ⟨⟨name, .entry hvisit hleft⟩, hroot⟩
  · intro hx
    obtain ⟨⟨name, hc⟩, hroot⟩ := hx
    rcases hc.at_entry with ⟨-, hleft, hvisit⟩ | ⟨hmark, -⟩
    · exact ⟨hvisit, hleft, hroot⟩
    · cases hmark

/-- An update for which all commit roots of the reverted changes were read reverts no commit exactly if the
records are still as they were read. -/
theorem revertsNoCommit_iff (h : IsCorrection s d path u) {rereads : List Receiver.Reread}
    (hroots : rereads.map Prod.fst = Receiver.namedRoots path u) (hnone : ∀ e ∈ rereads, e.recordIn e.2 = none)
    (now : Store) : RevertsNoCommit d u now ↔ ∀ e ∈ rereads, e.recordIn now = e.recordIn e.2 := by
  constructor
  · intro hspares e he
    rw [hnone e he]
    refine hspares e.1.1 e.1.2 ((h.mem_namedRoots _ _).1 ?_)
    rw [← hroots]
    exact List.mem_map_of_mem he
  · intro hsame r root hreverts
    have hmem := (h.mem_namedRoots r root).2 hreverts
    rw [← hroots] at hmem
    obtain ⟨⟨_, store⟩, he, rfl⟩ := List.mem_map.1 hmem
    exact (hsame _ he).trans (hnone _ he)

end IsCorrection

namespace Receiver

/-- Every update of a delivery, whatever other clients do between the calls, is made right after its commit
roots were read again and found uncommitted. So it reverts no commit exactly if nobody committed on one of them
between that read and the update. -/
theorem receive_revertsNoCommit_iff (others : Nat → Store → Store) (batch : Batch) (tally : Tally) (k : Nat)
    (s : Store) {before after : List (Call × Store)} {u : Update} {now : Store}
    (h : (receive batch tally).served others k s = before ++ (.updateIf u, now) :: after) :
    ∃ path earlier, ∃ rereads : List Reread, (path, u) ∈ batch ∧
      before = earlier ++ rereads.map Reread.call ∧ rereads.map Prod.fst = namedRoots path u ∧
      (∀ e ∈ rereads, e.recordIn e.2 = none) ∧
      ∀ swept d, IsCorrection swept d path u →
        (RevertsNoCommit d u now ↔ ∀ e ∈ rereads, e.recordIn now = e.recordIn e.2) := by
  obtain ⟨path, earlier, rereads, hmem, hbefore, hroots, hnone⟩ :=
    (receive_delivers batch tally k s).before_updateIf h
  exact ⟨path, earlier, rereads, hmem, hbefore, hroots, hnone,
    fun _ _ hcorrection ↦ hcorrection.revertsNoCommit_iff hroots hnone now⟩

def pendingWrite : Document :=
  { Document.blank ⟨["a"], by decide⟩ with maps := .ofList [
      ("p", .ofList [(.onTrunk 100 0 1, "new")]),
      (Property.commitRoot, .ofList [(.onTrunk 100 0 1, "0")])] }

def pendingStore : Store := .ofDocuments [.blank .root, pendingWrite]

def pendingSweep : Sweep := ⟨1, RevisionVector.empty.update (.onTrunk 200 0 1), .standard, .relevant⟩

def pendingRevert : Update := (pendingSweep.correctionIn (.onTrunk 200 0 1) pendingStore pendingWrite).update

def committing (k : Nat) (s : Store) : Store :=
  if k = 1 then (s.updateIf ((Update.start Path.root.id false).insertCommit (.onTrunk 100 0 1) "c")).2 else s

theorem isCorrection_pendingRevert : IsCorrection pendingStore pendingWrite pendingWrite.path pendingRevert := by
  refine ⟨rfl, pendingSweep, .onTrunk 200 0 1, _, pendingSweep.correct_value _ _ _ fun r ↦
    Store.commitValue_eq_ok rfl pendingWrite r, ?_⟩
  exact if_pos (by decide +kernel)

theorem receive_revertsNoCommit_iff_pendingRevert :
    (receive [(pendingWrite.path, pendingRevert)] .zero).served (fun _ s ↦ s) 0 pendingStore =
        [(.find Path.root.id, pendingStore)] ++ (.updateIf pendingRevert, pendingStore) :: [] ∧
      ∃ path earlier, ∃ rereads : List Reread,
        (path, pendingRevert) ∈ [(pendingWrite.path, pendingRevert)] ∧
        [(.find Path.root.id, pendingStore)] = earlier ++ rereads.map Reread.call ∧
        rereads.map Prod.fst = namedRoots path pendingRevert ∧
        (∀ e ∈ rereads, e.recordIn e.2 = none) ∧
        ∀ swept d, IsCorrection swept d path pendingRevert →
          (RevertsNoCommit d pendingRevert pendingStore ↔
            ∀ e ∈ rereads, e.recordIn pendingStore = e.recordIn e.2) := by
  have hserved : (receive [(pendingWrite.path, pendingRevert)] .zero).served (fun _ s ↦ s) 0 pendingStore =
      [(.find Path.root.id, pendingStore)] ++ (.updateIf pendingRevert, pendingStore) :: [] := by rfl
  exact ⟨hserved, receive_revertsNoCommit_iff _ _ _ _ _ hserved⟩

/-- A commit on the commit root between its last read and the update is reverted. -/
theorem exists_reverted_commit : ¬ ∀ (others : Nat → Store → Store) (batch : Batch) (tally : Tally) (k : Nat)
    (s : Store) (before after : List (Call × Store)) (u : Update) (now : Store) (path : Path) (swept : Store)
    (d : Document), (receive batch tally).served others k s = before ++ (.updateIf u, now) :: after →
      (∃ old, (now.updateIf u).1 = .ok (some old)) → (path, u) ∈ batch → IsCorrection swept d path u →
      RevertsNoCommit d u now := by
  intro claim
  have hserved : (receive [(pendingWrite.path, pendingRevert)] .zero).served committing 0 pendingStore =
      [(.find Path.root.id, pendingStore)] ++ (.updateIf pendingRevert, committing 1 pendingStore) :: [] := by
    rfl
  have hdocument : (committing 1 pendingStore).documents.get? pendingRevert.id = some pendingWrite := by
    decide +kernel
  have happlied := Store.updateIf_of_meets (s := committing 1 pendingStore) rfl hdocument
    (by decide +kernel : pendingWrite.meets pendingRevert = true)
  have hreverts : RevertsOn pendingWrite pendingRevert (.onTrunk 100 0 1) .root :=
    ⟨⟨"p", by decide +kernel⟩, by decide +kernel⟩
  have hcommitted : (committing 1 pendingStore).recordAt? .root (.onTrunk 100 0 1) = some "c" := by
    decide +kernel
  have hnone := claim committing _ .zero 0 pendingStore _ _ _ _ _ pendingStore pendingWrite hserved
    ⟨pendingWrite, by rw [happlied]⟩ List.mem_cons_self isCorrection_pendingRevert _ _ hreverts
  cases hcommitted.symm.trans hnone

end Receiver

end NodeStore
