import NodeStore.Revision
import NodeStore.Store.Basic
import NodeStore.Store.Snapshot
import NodeStore.Sweep.Config
import NodeStore.Sweep.Member
import NodeStore.Text

namespace NodeStore

inductive Write where
  | trunk
  | uncommitted
  | failedCreation
  /-- A branch commit merged into trunk, without a mark. -/
  | mergedBranch
deriving DecidableEq, Repr

namespace Write

/-- The changed document: a shared one by number, or one that only this write knows. -/
def documentId (w : Write) (clusterId : UInt32) (ts : UInt64) (number : Nat) : String :=
  match w with
  | failedCreation => "1:/c" ++ toString clusterId.toNat ++ "-" ++ toString ts.toNat
  | _ => "1:/n" ++ toString number

def update (w : Write) (clusterId : UInt32) (ts : UInt64) (number : Nat) : Update :=
  let r := Revision.onTrunk ts 0 clusterId
  let value := "\"" ++ toString clusterId.toNat ++ "-" ++ toString ts.toNat ++ "\""
  let u := Update.start (w.documentId clusterId ts number) true
  match w with
  | trunk => (u.insertEntry "p" r value).insertCommit r CommitValue.trunk.text
  | uncommitted => (u.insertEntry "p" r value).insertCommitRoot r 0
  | failedCreation => (u.insertEntry Property.deleted r Property.notDeleted).insertCommitRoot r 0
  | mergedBranch =>
    (u.insertEntry "p" r value).insertCommit r (CommitValue.mergedBranch (.onTrunk (ts + 1) 0 clusterId)).text

def apply (w : Write) (clusterId : UInt32) (ts : UInt64) (number : Nat) (s : Store) :
    Except SweepError Unit × Store :=
  match s.upsert (w.update clusterId ts number) with
  | (.ok _, s) => (.ok (), s)
  | (.error e, s) => (.error (.store e), s)

end Write

end NodeStore

namespace NodeStore.Recovery

def total {α : Type} (count : α → Nat) (xs : List α) : Nat := xs.foldl (fun n x ↦ n + count x) 0

def memberAt (clusterId : UInt32) (ts : UInt64) : Member :=
  ⟨clusterId, .ofRevisions [.onTrunk ts 0 clusterId]⟩

/-- Sweeps the members one after the other. A failed sweep does not keep the others from running. -/
def sweepEach : List (UInt32 × UInt64) → Store → List (Except SweepHalt MemberOutcome) × Store
  | [], s => ([], s)
  | (clusterId, ts) :: rest, s =>
    let outcome := ((memberAt clusterId ts).sweep .recovery (fun _ ↦ 0) s).value
    let others := sweepEach rest outcome.2
    (outcome.1 :: others.1, others.2)

/-- Recovers the members whose last timestamps are given. The first failure counts. -/
def recoverMembers (heads : List (UInt32 × UInt64)) (s : Store) :
    Except SweepError (List MemberOutcome) × Store :=
  let swept := sweepEach heads s
  ((swept.1.filterMap SweepHalt.reply?).mapM id, swept.2)

/-- The number of entries of a member with a commit root but without a commit record on the root document. -/
def leftovers (s : Store) (clusterId : UInt32) : Except SweepError Nat :=
  match s.findAt Path.root, s.changedBy clusterId with
  | .ok root, .ok documents =>
    let revisions := documents.flatMap fun d ↦ (d.commitRoots?.map (·.keys)).getD []
    .ok ((revisions.filter (·.clusterId == clusterId)).countP fun r ↦
      (root.bind (·.valueAt? Property.revisions r)).isNone)
  | .error e, _ => .error (.store e)
  | _, .error e => .error (.store e)

end NodeStore.Recovery

namespace NodeStore

structure RecoveryReport where
  members : Nat
  writes : Nat
  crashed : Nat
  documents : Nat
  reverted : Nat
  marked : Nat
  rejected : Nat
  resweepUpdates : Nat
  leftovers : Nat
deriving DecidableEq, Repr

namespace RecoveryReport

def padLeft (width : Nat) (s : String) : String :=
  String.ofList (List.replicate (width - s.length) ' ' ++ s.toList)

def row (label : String) (value : Nat) : String := "║  " ++ label ++ padLeft 30 (toString value) ++ " ║"

def top : String := "\n╔════════════════════════════════════════════════════════════╗"
def bottom : String := "╚════════════════════════════════════════════════════════════╝"

def lines (s : RecoveryReport) (millis : Nat) : List String :=
  [top,
    "║              Recovery Statistics                           ║",
    "╠════════════════════════════════════════════════════════════╣",
    row "Cluster Members:           " s.members,
    row "Writes per Member:         " s.writes,
    row "Crashed Members:           " s.crashed,
    row "Documents in Store:        " s.documents,
    row "Reverted Changes:          " s.reverted,
    row "Branch Commits Marked:     " s.marked,
    row "Rejected Corrections:      " s.rejected,
    row "Updates on Second Sweep:   " s.resweepUpdates,
    row "Uncommitted Leftovers:     " s.leftovers,
    "║  Total Time:                " ++ padLeft 29 (Duration.seconds millis) ++ "s ║",
    bottom]

end RecoveryReport

end NodeStore

namespace NodeStore.Recovery

abbrev Step := Nat × Write

def initialStore : Store :=
  let r := Revision.onTrunk 1 0 1
  .ofDocuments [((Document.blank .root).insertEntry Property.deleted r Property.notDeleted).insertEntry
    Property.revisions r CommitValue.trunk.text]

def startTime : UInt64 := 10

/-- Makes the writes of a member. A merged branch takes two timestamps, so each write moves on by two. -/
def writeAll (clusterId : UInt32) : List Step → UInt64 → Store → Except SweepError UInt64 × Store
  | [], ts, s => (.ok ts, s)
  | (number, w) :: rest, ts, s =>
    match w.apply clusterId (ts + 2) number s with
    | (.ok (), s) => writeAll clusterId rest (ts + 2) s
    | (.error e, s) => (.error e, s)

def writeMembers : List (UInt32 × List Step) → Store → Except SweepError (List (UInt32 × UInt64)) × Store
  | [], s => (.ok [], s)
  | (clusterId, steps) :: rest, s =>
    match writeAll clusterId steps startTime s with
    | (.error e, s) => (.error e, s)
    | (.ok ts, s) =>
      let (heads, s) := writeMembers rest s
      (heads.map ((clusterId, ts) :: ·), s)

def recoverTwice (members writes : Nat) (heads : List (UInt32 × UInt64)) (s : Store) :
    Except SweepError RecoveryReport := do
  let (outcomes, s) := recoverMembers heads s
  let outcomes ← outcomes
  let restored ← (Store.restore s.snapshot).mapError SweepError.store
  let (again, s) := recoverMembers heads restored
  let again ← again
  let leftovers ← heads.mapM fun h ↦ leftovers s h.1
  pure {
    members
    writes
    crashed := heads.length
    documents := s.size
    reverted := total (·.counts.reverted) outcomes
    marked := total (·.counts.marked) outcomes
    rejected := total (·.tally.rejected) outcomes
    resweepUpdates := total (·.counts.updated) again
    leftovers := total (fun n ↦ n) leftovers }

def rehearse (writes : Nat) (steps : List (UInt32 × List Step)) (crashed : Nat) :
    Except SweepError RecoveryReport := do
  let (heads, s) := writeMembers steps initialStore
  recoverTwice steps.length writes ((← heads).take crashed) s

def announcements (members writes crashed : Nat) : List String :=
  [RecoveryReport.top,
    "║        Crash and Recovery Simulation                       ║",
    "║  Members: " ++ toString members ++ " | Writes/Member: " ++ toString writes ++ " | Crashed: " ++
      toString crashed ++ " ║",
    RecoveryReport.bottom,
    "\n[Phase 1/3] Cluster members writing...",
    "[Phase 1/3] ✓ Completed",
    "[Phase 2/3] Recovering crashed members...",
    "[Phase 2/3] ✓ Completed",
    "[Phase 3/3] Sweeping a restored snapshot again...",
    "[Phase 3/3] ✓ Completed"]

structure Dice where
  state : UInt64
deriving DecidableEq, Repr

namespace Dice

def ofSeed (seed : UInt64) : Dice := ⟨seed * 6364136223846793005 + 1442695040888963407⟩

def roll (d : Dice) (n : Nat) : Nat × Dice :=
  let next : UInt64 := d.state * 6364136223846793005 + 1442695040888963407
  ((next >>> 33).toNat % n, ⟨next⟩)

end Dice

def drawWrite (isCrashed : Bool) (d : Dice) : Write × Dice :=
  let (k, d) := d.roll 10
  if isCrashed then (if k < 3 then .failedCreation else .uncommitted, d)
  else (if k < 2 then .mergedBranch else .trunk, d)

def drawSteps (shared : Nat) (crashAfter : Option Nat) (done : Nat) : Nat → Dice → List Step
  | 0, _ => []
  | n + 1, d =>
    let (number, d) := d.roll shared
    let (w, d) := drawWrite (crashAfter.any (· ≤ done)) d
    (number, w) :: drawSteps shared crashAfter (done + 1) n d

def draw (members writes crashed : Nat) : List (UInt32 × List Step) :=
  (List.range members).map fun i ↦
    let clusterId := UInt32.ofNat (i + 1)
    let crashAfter := if i < crashed then some (writes * 3 / 4) else none
    (clusterId, drawSteps (max writes 1) crashAfter 0 writes (.ofSeed clusterId.toUInt64))

def simulate (members writes crashed : Nat) : Except SweepError RecoveryReport :=
  rehearse writes (draw members writes crashed) crashed

end NodeStore.Recovery
