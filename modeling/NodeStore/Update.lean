import NodeStore.Basic
import NodeStore.Revision
import NodeStore.SortedMap
import NodeStore.Text

namespace NodeStore

/-- What a change or a condition is about: a property, and the revision of one of its entries. -/
structure Key where
  name : String
  revision : Option Revision
deriving DecidableEq, Repr

namespace Key

/-- By name, then by revision; no revision comes first. -/
instance : Ord Key := ⟨compareLex (compareOn name) (compareOn revision)⟩

instance : Std.TransOrd Key :=
  inferInstanceAs (Std.TransCmp (compareLex (compareOn name) (compareOn revision)))

instance : Std.LawfulEqOrd Key where
  compare_self := Std.ReflOrd.compare_self
  eq_of_compare {a b} h := by
    obtain ⟨name, revision⟩ := Ordering.then_eq_eq.1
      (show (compare a.name b.name).then (compare a.revision b.revision) = .eq from h)
    have := Std.LawfulEqOrd.eq_of_compare name
    have := Std.LawfulEqOrd.eq_of_compare revision
    cases a; cases b; simp_all

end Key

def Key.entry (name : String) (r : Revision) : Key := ⟨name, some r⟩

inductive Change where
  | insertEntry (value : String)
  | eraseEntry
  | setFlag (value : Bool)
  /-- Sets the entry to a revision unless a newer one, or one of the same time, is stored. -/
  | raiseEntry (r : Revision)
deriving DecidableEq, Repr

inductive Condition where
  | present
  | absent
  | equals (value : String)
deriving DecidableEq, Repr

/-- Changes to the document `id` and the conditions under which they are made. A new update may create its
document. -/
structure Update where
  id : String
  isNew : Bool
  changes : SortedMap Key Change
  conditions : SortedMap Key Condition
deriving DecidableEq

namespace Update

def start (id : String) (isNew : Bool) : Update := ⟨id, isNew, .empty, .empty⟩

def hasChanges (u : Update) : Bool := !u.changes.isEmpty

def change? (u : Update) (name : String) (r : Option Revision) : Option Change := u.changes.get? ⟨name, r⟩

def condition? (u : Update) (name : String) (r : Option Revision) : Option Condition :=
  u.conditions.get? ⟨name, r⟩

def withChange (u : Update) (k : Key) (c : Change) : Update :=
  { u with changes := u.changes.insert k c }

def withCondition (u : Update) (k : Key) (c : Condition) : Update :=
  { u with conditions := u.conditions.insert k c }

def insertEntry (u : Update) (name : String) (r : Revision) (value : String) : Update :=
  u.withChange (.entry name r) (.insertEntry value)

def eraseEntry (u : Update) (name : String) (r : Revision) : Update :=
  u.withChange (.entry name r) .eraseEntry

def setFlag (u : Update) (name : String) (value : Bool) : Update :=
  u.withChange ⟨name, none⟩ (.setFlag value)

def raiseEntry (u : Update) (name : String) (r value : Revision) : Update :=
  u.withChange (.entry name r) (.raiseEntry value)

def requireEntry (u : Update) (name : String) (r : Revision) (isPresent : Bool) : Update :=
  u.withCondition (.entry name r) (if isPresent then .present else .absent)

def requireValue (u : Update) (name : String) (r : Revision) (value : String) : Update :=
  u.withCondition (.entry name r) (.equals value)

def eraseCommitRoot (u : Update) (r : Revision) : Update := u.eraseEntry Property.commitRoot r

def eraseCommit (u : Update) (r : Revision) : Update := u.eraseEntry Property.revisions r

def insertCommitRoot (u : Update) (r : Revision) (depth : Nat) : Update :=
  u.insertEntry Property.commitRoot r (String.ofList (Numeral.print 10 depth))

def insertCommit (u : Update) (r : Revision) (commitValue : String) : Update :=
  u.insertEntry Property.revisions r commitValue

def markBranchCommit (u : Update) (r : Revision) : Update := u.insertEntry Property.branchCommits r "true"

def markDeletedOnce (u : Update) : Update := u.setFlag Property.deletedOnce true

/-- Moves the sweep checkpoint of the member of `r` up to `r`. It is kept under the zero revision of that
member. -/
def advanceCheckpoint (u : Update) (r : Revision) : Update :=
  u.raiseEntry Property.sweepRevision (.onTrunk 0 0 r.clusterId) r

end Update

end NodeStore
