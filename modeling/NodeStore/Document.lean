import NodeStore.Basic
import NodeStore.Path
import NodeStore.Text
import NodeStore.Update

namespace NodeStore

abbrev RevisionMap := SortedMap Revision String

structure Document where
  id : String
  path : Path
  maps : SortedMap String RevisionMap
  deletedOnce : Bool
  modCount : UInt64
deriving DecidableEq

namespace Document

def blank (p : Path) : Document := ⟨p.id, p, .empty, false, 0⟩

def ofId (id : String) : Except StoreError Document := (Path.ofId id).map blank

def map? (d : Document) (name : String) : Option RevisionMap := d.maps.get? name

def valueAt? (d : Document) (name : String) (r : Revision) : Option String :=
  (d.map? name).bind (·.get? r)

def deleted? (d : Document) : Option RevisionMap := d.map? Property.deleted

def commitRoots? (d : Document) : Option RevisionMap := d.map? Property.commitRoot

def commits? (d : Document) : Option RevisionMap := d.map? Property.revisions

def branchCommits (d : Document) : List Revision := ((d.map? Property.branchCommits).map (·.keys)).getD []

/-- The revisions of a cluster member that changed this document, sorted and each once. Sweep checkpoints are
no changes. -/
def revisionsBy (d : Document) (clusterId : UInt32) : List Revision :=
  let changes := d.maps.entries.filter (·.1 != Property.sweepRevision)
  let revisions := (changes.flatMap fun e ↦ e.2.keys).filter (·.clusterId == clusterId)
  (SortedMap.ofList (revisions.map fun r ↦ (r, ()))).keys

def insertEntry (d : Document) (name : String) (r : Revision) (value : String) : Document :=
  { d with maps := d.maps.insert name (((d.map? name).getD .empty).insert r value) }

def eraseEntry (d : Document) (name : String) (r : Revision) : Document :=
  match d.map? name with
  | none => d
  | some m =>
    if (m.erase r).isEmpty then { d with maps := d.maps.erase name }
    else { d with maps := d.maps.insert name (m.erase r) }

/-- Sets an entry to `value` unless it holds a revision that `value` is not newer than. -/
def raiseEntry (d : Document) (name : String) (r value : Revision) : Document :=
  match (d.valueAt? name r).bind Revision.parse? with
  | some current => if value.isAfter current then d.insertEntry name r value.text else d
  | none => d.insertEntry name r value.text

/-- Makes one change. A change that does not fit its key has no effect: entries need a revision, and the only
flag is `_deletedOnce`. -/
def applyChange (d : Document) (key : Key) : Change → Document
  | .insertEntry value => key.revision.elim d (d.insertEntry key.name · value)
  | .eraseEntry => key.revision.elim d (d.eraseEntry key.name)
  | .raiseEntry value => key.revision.elim d (d.raiseEntry key.name · value)
  | .setFlag value => if key.name = Property.deletedOnce then { d with deletedOnce := value } else d

def apply (d : Document) (u : Update) : Document :=
  let changed := u.changes.entries.foldl (fun d e ↦ d.applyChange e.1 e.2) d
  { changed with modCount := changed.modCount + 1 }

def satisfies (d : Document) (key : Key) (condition : Condition) : Bool :=
  match condition, key.revision.bind (d.valueAt? key.name) with
  | .present, current => current.isSome
  | .absent, current => current.isNone
  | .equals value, current => current == some value

def meets (d : Document) (u : Update) : Bool := u.conditions.entries.all fun e ↦ d.satisfies e.1 e.2

end Document

def Revision.describe (r : Revision) : String :=
  "Revision \x7b timestamp: " ++ toString r.timestamp.toNat ++ ", counter: " ++ toString r.counter.toNat ++
    ", cluster_id: " ++ toString r.clusterId.toNat ++ ", branch: " ++ toString r.branch ++ " \x7d"

def Change.describe : Change → String
  | insertEntry value => "SetMapEntry(" ++ Text.quote value ++ ")"
  | eraseEntry => "RemoveMapEntry"
  | setFlag value => "SetFlag(" ++ toString value ++ ")"
  | raiseEntry r => "MaxRevision(" ++ r.describe ++ ")"

def Change.fits (key : Key) : Change → Bool
  | setFlag _ => key.name == Property.deletedOnce
  | _ => key.revision.isSome

namespace Document

def ignoredLine (d : Document) (key : Key) (c : Change) : LogLine :=
  .warn ("Ignoring unsupported change " ++ c.describe ++ " on " ++ key.name ++ " for " ++ d.id)

def applyLines (d : Document) (u : Update) : List LogLine :=
  (u.changes.entries.filter fun e ↦ !e.2.fits e.1).map fun e ↦ d.ignoredLine e.1 e.2

end Document

end NodeStore
