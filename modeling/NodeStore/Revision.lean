import NodeStore.SortedMap
import NodeStore.Text

namespace NodeStore

/-- A write, named by the writer's clock in milliseconds, a counter within the millisecond and the writer's
cluster id. A revision of a branch that is not merged yet carries the branch flag. -/
structure Revision where
  timestamp : UInt64
  counter : UInt32
  clusterId : UInt32
  branch : Bool
deriving DecidableEq, Repr

namespace Revision

def onTrunk (timestamp : UInt64) (counter clusterId : UInt32) : Revision :=
  ⟨timestamp, counter, clusterId, false⟩

def onBranch (timestamp : UInt64) (counter clusterId : UInt32) : Revision :=
  ⟨timestamp, counter, clusterId, true⟩

def toTrunk (r : Revision) : Revision := { r with branch := false }

def toBranch (r : Revision) : Revision := { r with branch := true }

/-- Revision time: timestamp, then counter, then cluster id. The branch flag does not count. -/
def compareTime : Revision → Revision → Ordering :=
  compareLex (compareOn timestamp) (compareLex (compareOn counter) (compareOn clusterId))

instance : Std.TransCmp compareTime :=
  inferInstanceAs (Std.TransCmp (compareLex _ (compareLex _ _)))

def isAfter (a b : Revision) : Bool := compareTime a b == .gt

/-- Revisions are sorted by revision time; of two at one time the trunk revision comes first. -/
instance : Ord Revision := ⟨compareLex compareTime (compareOn branch)⟩

instance : Std.TransOrd Revision :=
  inferInstanceAs (Std.TransCmp (compareLex compareTime (compareOn branch)))

theorem compareTime_eq_eq {a b : Revision} : compareTime a b = .eq ↔
    a.timestamp = b.timestamp ∧ a.counter = b.counter ∧ a.clusterId = b.clusterId := by
  simp [compareTime, compareLex, compareOn, Ordering.then_eq_eq]

instance : Std.LawfulEqOrd Revision where
  compare_self := Std.ReflOrd.compare_self
  eq_of_compare {a b} h := by
    obtain ⟨time, branch⟩ := Ordering.then_eq_eq.1
      (show (compareTime a b).then (compare a.branch b.branch) = .eq from h)
    obtain ⟨timestamp, counter, clusterId⟩ := compareTime_eq_eq.1 time
    have := Std.LawfulEqOrd.eq_of_compare branch
    cases a; cases b; simp_all

end Revision

inductive RevisionError where
  | empty
  | unknownKind (text : String)
  | malformed (text : String)
  | repeatedMember (clusterId : UInt32)
deriving DecidableEq, Repr

def RevisionError.message : RevisionError → String
  | empty => "Revision string is empty"
  | unknownKind text => "Unknown revision prefix in '" ++ text ++ "', expected 'r' or 'b'"
  | malformed text => "Malformed revision '" ++ text ++ "'"
  | repeatedMember clusterId =>
    "Duplicate cluster id " ++ toString clusterId.toNat ++ " in revision vector"

namespace Revision

def chars (r : Revision) : List Char :=
  (if r.branch then 'b' else 'r') ::
    ['-'].intercalate [Numeral.print 16 r.timestamp.toNat, Numeral.print 16 r.counter.toNat,
      Numeral.print 16 r.clusterId.toNat]

def text (r : Revision) : String := String.ofList r.chars

/-- Reads the three numbers after the first character. Digits may be of either case, have leading zeros and
follow one plus sign. -/
def fields? (branch : Bool) (cs : List Char) : Option Revision :=
  match cs.splitOn '-' with
  | [t, c, i] => do
    let timestamp ← Numeral.read? 16 UInt64.size t
    let counter ← Numeral.read? 16 UInt32.size c
    let clusterId ← Numeral.read? 16 UInt32.size i
    some ⟨.ofNat timestamp, .ofNat counter, .ofNat clusterId, branch⟩
  | _ => none

def parse (s : String) : Except RevisionError Revision :=
  match s.toList with
  | [] => .error .empty
  | 'r' :: cs => (fields? false cs).elim (.error (.malformed s)) .ok
  | 'b' :: cs => (fields? true cs).elim (.error (.malformed s)) .ok
  | _ => .error (.unknownKind s)

def parse? (s : String) : Option Revision := (parse s).toOption

def sort (rs : List Revision) : List Revision := rs.mergeSort fun a b ↦ (compare a b).isLE

end Revision

/-- At most one revision for each cluster member. -/
structure RevisionVector where
  components : SortedMap UInt32 Revision
  keyed : ∀ c r, components.get? c = some r → r.clusterId = c
deriving DecidableEq

namespace RevisionVector

def empty : RevisionVector := ⟨.empty, by simp⟩

def revision? (v : RevisionVector) (c : UInt32) : Option Revision := v.components.get? c

def revisions (v : RevisionVector) : List Revision := v.components.values

def dimensions (v : RevisionVector) : Nat := v.components.size

def isEmpty (v : RevisionVector) : Bool := v.components.isEmpty

def update (v : RevisionVector) (r : Revision) : RevisionVector where
  components := v.components.insert r.clusterId r
  keyed c s h := by
    rw [SortedMap.get?_insert] at h
    split at h
    · simp_all
    · exact v.keyed c s h

def remove (v : RevisionVector) (c : UInt32) : RevisionVector where
  components := v.components.erase c
  keyed d s h := by
    rw [SortedMap.get?_erase] at h
    split at h
    · simp at h
    · exact v.keyed d s h

/-- Newer than the component of its member, or of a member that was not observed. -/
def isBehind (v : RevisionVector) (r : Revision) : Bool :=
  match v.revision? r.clusterId with
  | some current => r.isAfter current
  | none => true

def observe (v : RevisionVector) (r : Revision) : RevisionVector :=
  if v.isBehind r then v.update r else v

/-- The newest revision of each member; of equally new ones the first. -/
def ofRevisions (rs : List Revision) : RevisionVector := rs.foldl observe empty

/-- The maximum of each component by revision time; of equally new ones that of `v`. -/
def join (v w : RevisionVector) : RevisionVector := w.revisions.foldl observe v

def chars (v : RevisionVector) : List Char := [','].intercalate (v.revisions.map Revision.chars)

def text (v : RevisionVector) : String := String.ofList v.chars

/-- Adds the revisions read from `parts`, which must be of members without a component. -/
def parseParts (v : RevisionVector) : List (List Char) → Except RevisionError RevisionVector
  | [] => .ok v
  | part :: rest =>
    match Revision.parse (String.ofList part) with
    | .error e => .error e
    | .ok r =>
      if v.components.contains r.clusterId then .error (.repeatedMember r.clusterId)
      else parseParts (v.update r) rest

def parse (s : String) : Except RevisionError RevisionVector :=
  if s.toList = [] then .ok empty else parseParts empty (s.toList.splitOn ',')

end RevisionVector

inductive CommitValue where
  /-- Committed on trunk, visible at the revision itself. -/
  | trunk
  /-- Committed on a branch, visible at the revision of the merge. -/
  | mergedBranch (merge : Revision)
deriving DecidableEq, Repr

namespace CommitValue

def parse? (value : String) : Option CommitValue :=
  match value.toList with
  | ['c'] => some .trunk
  | 'c' :: '-' :: cs => (Revision.parse? (String.ofList cs)).map .mergedBranch
  | _ => none

def text : CommitValue → String
  | trunk => "c"
  | mergedBranch merge => String.ofList ('c' :: '-' :: merge.chars)

/-- Where a change written at `r` became visible. -/
def commitRevision (r : Revision) : CommitValue → Revision
  | trunk => r
  | mergedBranch merge => merge

/-- A stored value counts as a commit when it begins with `c`. -/
def recordsCommit (value : String) : Bool := value.toList.head? == some 'c'

/-- Where a change written at `r` with this commit value became visible; a value that cannot be read stands
for `r` itself. -/
def resolve (r : Revision) (value : String) : Revision :=
  ((parse? value).map (commitRevision r)).getD r

end CommitValue

end NodeStore
