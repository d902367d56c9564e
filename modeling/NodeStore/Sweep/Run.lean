import NodeStore.Basic
import NodeStore.Sweep.Correction
import NodeStore.Text

namespace NodeStore

structure Progress where
  clusterId : UInt32
  interval : Nat
  total : Nat
  sinceReport : Nat
  startedAt : Nat
  reportedAt : Nat
deriving DecidableEq, Repr

/-- What a report states: documents and time since the start, and since the report before. -/
structure ProgressReport where
  clusterId : UInt32
  total : Nat
  totalElapsed : Nat
  recent : Nat
  recentElapsed : Nat
deriving DecidableEq, Repr

namespace ProgressReport

/-- Documents per minute, rounded down; zero when no time has passed. The product is kept within a 64-bit word. -/
def rate (count elapsed : Nat) : Nat :=
  if elapsed = 0 then 0 else min (count * 60000) (UInt64.size - 1) / elapsed

def line (r : ProgressReport) : LogLine :=
  .info ("Sweep on cluster node [" ++ toString r.clusterId.toNat ++ "]: " ++ toString r.total ++
    " nodes scanned in " ++ Duration.text r.totalElapsed ++ " (~" ++ toString (rate r.total r.totalElapsed) ++
    "/m) - last interval " ++ toString r.recent ++ " nodes in " ++ Duration.text r.recentElapsed ++ " (~" ++
    toString (rate r.recent r.recentElapsed) ++ "/m)")

end ProgressReport

namespace Progress

def start (clusterId : UInt32) (interval now : Nat) : Progress := ⟨clusterId, interval, 0, 0, now, now⟩

/-- Counts a document scanned at the time `now`, with a report if the last one is an interval ago. A clock that
went back counts as standing still. -/
def scanned (p : Progress) (now : Nat) : Progress × Option ProgressReport :=
  let p := { p with total := p.total + 1, sinceReport := p.sinceReport + 1 }
  if now - p.reportedAt < p.interval then (p, none)
  else
    ({ p with reportedAt := now, sinceReport := 0 },
      some ⟨p.clusterId, p.total, now - p.startedAt, p.sinceReport, now - p.reportedAt⟩)

end Progress

abbrev Batch := List (Path × Update)

/-- What a sweep needs from the world around it, whose state is a `σ`. -/
structure Surroundings (σ : Type) where
  lookup : σ → CommitLookup
  deliver : σ → Batch → Logged (Except StoreError Unit × σ)

structure SweepCounts where
  scanned : Nat
  updated : Nat
  reverted : Nat
  marked : Nat
  batches : Nat
deriving DecidableEq, Repr

def SweepCounts.zero : SweepCounts := ⟨0, 0, 0, 0, 0⟩

structure SweepRun (σ : Type) where
  world : σ
  counts : SweepCounts
  pending : Batch
  progress : Progress
  taken : Nat
  failure : Option StoreError

/-- The end of a run. The result is the new sweep revision of the member, or none if the head has no component
for it. -/
structure SweepResult (σ : Type) where
  result : Except SweepHalt (Option Revision)
  world : σ
  counts : SweepCounts
  taken : Nat

namespace SweepRun

variable {σ : Type}

def start (s : Sweep) (world : σ) (now : Nat) : SweepRun σ :=
  ⟨world, .zero, [], .start s.clusterId s.config.progressInterval now, 0, none⟩

def deliver (around : Surroundings σ) (run : SweepRun σ) : Logged (SweepRun σ) := do
  let reply ← around.deliver run.world run.pending
  let run := { run with world := reply.2, pending := [] }
  match reply.1 with
  | .ok () => pure { run with counts := { run.counts with batches := run.counts.batches + 1 } }
  | .error e => pure { run with failure := some e }

/-- Adds a correction to the pending ones and delivers them when the batch is full. -/
def enqueue (s : Sweep) (around : Surroundings σ) (path : Path) (u : Update) (run : SweepRun σ) :
    Logged (SweepRun σ) :=
  let run := { run with
    pending := run.pending ++ [(path, u)], counts := { run.counts with updated := run.counts.updated + 1 } }
  if max s.config.batchSize 1 ≤ run.pending.length then run.deliver around else pure run

def countScanned (now : Nat) (run : SweepRun σ) : Logged (SweepRun σ) := do
  let next := run.progress.scanned now
  Logged.log (next.2.map ProgressReport.line).toList
  pure { run with progress := next.1, counts := { run.counts with scanned := run.counts.scanned + 1 } }

/-- Examines the next document. `clock k` is the time after the `k`-th document was examined. -/
def scan (s : Sweep) (around : Surroundings σ) (head : Revision) (clock : Nat → Nat) (v : View)
    (run : SweepRun σ) : Logged (SweepRun σ) := do
  let found ← s.correct (around.lookup run.world) head v
  let run := { run with
    taken := run.taken + 1
    failure := found.2
    counts := { run.counts with
      reverted := run.counts.reverted + found.1.reverted, marked := run.counts.marked + found.1.marked } }
  match found.2 with
  | some _ => pure run
  | none =>
    let run ← run.countScanned (clock run.taken)
    match found.1.update? with
    | some u => run.enqueue s around v.document.path u
    | none => pure run

def scanAll (s : Sweep) (around : Surroundings σ) (head : Revision) (clock : Nat → Nat) :
    List View → SweepRun σ → Logged (SweepRun σ)
  | [], run => pure run
  | v :: rest, run => do
    let run ← run.scan s around head clock v
    if run.failure.isSome then pure run else scanAll s around head clock rest run

def finish (around : Surroundings σ) (run : SweepRun σ) : Logged (SweepRun σ) :=
  if run.failure.isSome || run.pending.isEmpty then pure run else run.deliver around

end SweepRun

namespace Sweep

variable {σ : Type}

/-- Sweeps documents. `clock 0` is the time at the start. Batches that were received stay received when a
later document or batch fails. -/
def run (s : Sweep) (around : Surroundings σ) (clock : Nat → Nat) (views : List View) (world : σ) :
    Logged (SweepResult σ) := do
  match s.head.revision? s.clusterId with
  | none =>
    Logged.log [.warn ("Head revision does not have an entry for clusterId " ++ toString s.clusterId.toNat ++
      ". Sweeping of documents is skipped.")]
    pure ⟨.ok none, world, .zero, 0⟩
  | some head =>
    if s.config.fits then
      let run ← SweepRun.scanAll s around head clock views (.start s world (clock 0))
      let run ← run.finish around
      match run.failure with
      | some e => pure ⟨.error (.failed (.store e)), run.world, run.counts, run.taken⟩
      | none =>
        Logged.log [.debug "Document sweep finished"]
        pure ⟨.ok (some head), run.world, run.counts, run.taken⟩
    else pure ⟨.error .oversized, world, .zero, 0⟩

end Sweep

end NodeStore
