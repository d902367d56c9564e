import NodeStore.Basic
import NodeStore.Document
import NodeStore.Revision
import NodeStore.Sweep.Config

namespace NodeStore

/-- A document and the names under which its maps are visited, in this order. -/
structure View where
  document : Document
  names : List String

def Document.view (d : Document) : View := ⟨d, d.maps.keys⟩

structure Sweep where
  clusterId : UInt32
  head : RevisionVector
  config : SweepConfig
  filter : PropertyFilter

inductive Verdict where
  | ahead
  | unmerged
  /-- Not committed, and to be reverted. A branch commit without a mark counts as such; its branch can no longer
  be merged. -/
  | uncommitted
  | committed
  | merged (merge : Revision)
deriving DecidableEq, Repr

structure Finding where
  property : String
  revision : Revision
  verdict : Verdict
deriving DecidableEq, Repr

namespace Finding

def line (d : Document) (head : Revision) (f : Finding) : LogLine :=
  let place := " on " ++ d.id ++ ", " ++ f.property ++ " @ " ++ f.revision.text
  match f.verdict with
  | .ahead => .debug ("Uncommitted change" ++ place ++ " newer than head " ++ head.text)
  | .unmerged => .debug ("Unmerged branch commit" ++ place)
  | .uncommitted => .debug ("Uncommitted change" ++ place)
  | .committed => .debug ("Committed change" ++ place)
  | .merged merge =>
    .debug ("Committed branch change" ++ place ++ "/" ++ merge.text ++
      if merge.isAfter head then " (newer than head)" else "")

end Finding

/-- The commit value of a change on a document, if it is committed; the look-up may fail. -/
abbrev CommitLookup := Document → Revision → Logged (Except StoreError (Option String))

namespace Sweep

def entries (s : Sweep) (v : View) : List (String × Revision) :=
  (v.names.filter s.filter).flatMap fun name ↦
    match v.document.map? name with
    | none => []
    | some m => (m.keys.filter (·.clusterId == s.clusterId)).map fun r ↦ (name, r)

def isMarked (d : Document) (r : Revision) : Bool := (d.valueAt? Property.branchCommits r).isSome

def judge (s : Sweep) (head : Revision) (d : Document) (r : Revision) : Option String → Verdict
  | none =>
    if r.isAfter head && !s.config.beyondHead then .ahead
    else if isMarked d r then .unmerged
    else .uncommitted
  | some value =>
    let commit := CommitValue.resolve r value
    if commit = r then .committed else .merged commit

/-- The findings on a list of entries, up to the first whose commit value cannot be looked up. -/
def examine (s : Sweep) (lookup : CommitLookup) (head : Revision) (d : Document) :
    List (String × Revision) → Logged (List Finding × Option StoreError)
  | [] => pure ([], none)
  | (name, r) :: rest => do
    match ← lookup d r with
    | .error e => pure ([], some e)
    | .ok value =>
      let f : Finding := ⟨name, r, s.judge head d r value⟩
      Logged.log [f.line d head]
      let found ← s.examine lookup head d rest
      pure (f :: found.1, found.2)

def findings (s : Sweep) (lookup : CommitLookup) (head : Revision) (v : View) :
    Logged (List Finding × Option StoreError) :=
  s.examine lookup head v.document (s.entries v)

end Sweep

/-- An update, the number of entries it reverts and the number of branch commits it marks. -/
structure Correction where
  update : Update
  reverted : Nat
  marked : Nat
deriving DecidableEq

namespace Correction

def start (d : Document) : Correction := ⟨.start d.id false, 0, 0⟩

/-- Removes the commit marker of `r`, if it is as it was seen: the commit root, or else the commit record. -/
def removeMarker (d : Document) (r : Revision) (u : Update) : Update :=
  match d.valueAt? Property.commitRoot r with
  | some depth => (u.eraseCommitRoot r).requireValue Property.commitRoot r depth
  | none =>
    match d.valueAt? Property.revisions r with
    | some value => (u.eraseCommit r).requireValue Property.revisions r value
    | none => (u.eraseCommit r).requireEntry Property.revisions r false

/-- A creation that failed still leaves a node that existed. -/
def recordCreation (d : Document) (name : String) (r : Revision) (u : Update) : Update :=
  if name = Property.deleted && !d.deletedOnce &&
      d.valueAt? Property.deleted r == some Property.notDeleted then
    u.markDeletedOnce
  else u

def revert (d : Document) (name : String) (r : Revision) (u : Update) : Update :=
  recordCreation d name r (removeMarker d r ((u.eraseEntry name r).requireEntry name r true))

def mark (r : Revision) (u : Update) : Update :=
  (u.markBranchCommit r).requireEntry Property.branchCommits r false

def add (d : Document) (c : Correction) (f : Finding) : Correction :=
  match f.verdict with
  | .uncommitted => { c with update := revert d f.property f.revision c.update, reverted := c.reverted + 1 }
  | .merged _ =>
    if !Sweep.isMarked d f.revision &&
        (c.update.change? Property.branchCommits (some f.revision)).isNone then
      { c with update := mark f.revision c.update, marked := c.marked + 1 }
    else c
  | _ => c

def ofFindings (d : Document) (fs : List Finding) : Correction := fs.foldl (add d) (start d)

def update? (c : Correction) : Option Update := if c.update.hasChanges then some c.update else none

end Correction

/-- The correction of a document. After a failed look-up it covers the entries before the failure. -/
def Sweep.correct (s : Sweep) (lookup : CommitLookup) (head : Revision) (v : View) :
    Logged (Correction × Option StoreError) := do
  let found ← s.findings lookup head v
  pure (.ofFindings v.document found.1, found.2)

end NodeStore
