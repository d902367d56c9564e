import NodeStore.Revision
import NodeStore.Store.Basic
import NodeStore.Sweep.Config
import NodeStore.Sweep.Run
import NodeStore.Text

namespace NodeStore

/-- How many corrections were applied, and how many rejected because something changed since the sweep. -/
structure Tally where
  applied : Nat
  rejected : Nat
deriving DecidableEq, Repr

def Tally.zero : Tally := ⟨0, 0⟩

namespace Receiver

def namedRoot? (path : Path) (key : Key) (condition : Condition) : Option (Revision × Path) :=
  match key.revision, condition with
  | some r, .equals depth =>
    if key.name = Property.commitRoot then (path.ancestorAtText? depth).map (r, ·) else none
  | _, _ => none

def committedSince (path : Path) : List (Revision × Path) → Client (Except StoreError Bool)
  | [] => .done (.ok false)
  | (r, root) :: rest =>
    .find root.id fun answer ↦
      match answer with
      | .error e => .done (.error e)
      | .ok found =>
        if (found.bind (·.committedValue? r)).isSome then
          .note (.debug
            (path.text ++ " @ " ++ r.text ++ " committed on " ++ root.text ++ " since it was swept"))
            (.done (.ok true))
        else committedSince path rest

def namedRoots (path : Path) (u : Update) : List (Revision × Path) :=
  u.conditions.entries.filterMap fun e ↦ namedRoot? path e.1 e.2

def receiveOne (path : Path) (u : Update) (tally : Tally) : Client (Except StoreError Tally) :=
  (committedSince path (namedRoots path u)).bind fun committed ↦
    match committed with
    | .error e => .done (.error e)
    | .ok true => .done (.ok { tally with rejected := tally.rejected + 1 })
    | .ok false =>
      .updateIf u fun answer ↦
        match answer with
        | .error e => .done (.error e)
        | .ok (some _) => .done (.ok { tally with applied := tally.applied + 1 })
        | .ok none =>
          .note (.debug ("Sweep update on " ++ path.text ++ " rejected, document changed"))
            (.done (.ok { tally with rejected := tally.rejected + 1 }))

def receive : Batch → Tally → Client (Option StoreError × Tally)
  | [], tally => .done (none, tally)
  | (path, u) :: rest, tally =>
    (receiveOne path u tally).bind fun answer ↦
      match answer with
      | .error e => .done (some e, tally)
      | .ok tally => receive rest tally

end Receiver

structure Receiving where
  store : Store
  tally : Tally

def Surroundings.ofStore : Surroundings Receiving where
  lookup world := fun d r ↦ ⟨world.store.commitValue d r, Store.commitValueLines d r⟩
  deliver world batch := do
    let reply ← (Receiver.receive batch world.tally).run world.store
    pure (reply.1.1.elim (.ok ()) .error, ⟨reply.2, reply.1.2⟩)

def Update.checkpoint (r : Revision) : Update := (Update.start Path.root.id true).advanceCheckpoint r

namespace Store

def persistCheckpoint (s : Store) (r : Revision) : Except SweepError Unit × Store :=
  match s.upsert (.checkpoint r) with
  | (.ok _, s) => (.ok (), s)
  | (.error e, s) => (.error (.store e), s)

def checkpointsOf (d : Document) : Except RevisionError RevisionVector :=
  ((((d.map? Property.sweepRevision).map (·.values)).getD []).mapM Revision.parse).map
    RevisionVector.ofRevisions

def checkpoints (s : Store) : Except SweepError RevisionVector :=
  match s.findAt Path.root with
  | .error e => .error (.store e)
  | .ok none => .ok .empty
  | .ok (some d) =>
    match checkpointsOf d with
    | .error e => .error (.revision e)
    | .ok v => .ok v

end Store

structure Member where
  clusterId : UInt32
  head : RevisionVector

structure MemberOutcome where
  sweepRevision : Option Revision
  counts : SweepCounts
  tally : Tally
deriving DecidableEq

namespace Member

def toSweep (m : Member) (config : SweepConfig) : Sweep := ⟨m.clusterId, m.head, config, .relevant⟩

def isCandidate (m : Member) (checkpoint : RevisionVector) (d : Document) : Bool :=
  (d.revisionsBy m.clusterId).any checkpoint.isBehind

def startLine (m : Member) (checkpoint : RevisionVector) (documents : List Document) : LogLine :=
  .info ("Sweeping " ++ toString documents.length ++ " candidate documents for cluster node [" ++
    toString m.clusterId.toNat ++ "] since " ++
    Text.quoteOption ((checkpoint.revision? m.clusterId).map Revision.text))

def doneLine (m : Member) (r : Revision) : LogLine :=
  .info ("Sweep on cluster node [" ++ toString m.clusterId.toNat ++ "] done, sweep revision is now " ++ r.text)

def sweepSince (m : Member) (around : Surroundings Receiving) (config : SweepConfig) (clock : Nat → Nat)
    (checkpoint : RevisionVector) (documents : List Document) (s : Store) :
    Logged (Except SweepHalt MemberOutcome × Store) := do
  Logged.log [m.startLine checkpoint documents]
  let views := (documents.filter (m.isCandidate checkpoint)).map Document.view
  let outcome ← (m.toSweep config).run around clock views ⟨s, .zero⟩
  match outcome.result with
  | .error e => pure (.error e, outcome.world.store)
  | .ok none => pure (.ok ⟨none, outcome.counts, outcome.world.tally⟩, outcome.world.store)
  | .ok (some r) =>
    match outcome.world.store.persistCheckpoint r with
    | (.error e, store) => pure (.error (.failed e), store)
    | (.ok (), store) =>
      Logged.log [m.doneLine r]
      pure (.ok ⟨some r, outcome.counts, outcome.world.tally⟩, store)

/-- The sweep of a member in given surroundings. `clock` gives the times at its start and after each
document. -/
def sweepAmid (m : Member) (around : Surroundings Receiving) (config : SweepConfig) (clock : Nat → Nat)
    (s : Store) : Logged (Except SweepHalt MemberOutcome × Store) :=
  match config.validate with
  | .error e => pure (.error (.failed e), s)
  | .ok () =>
    match s.checkpoints with
    | .error e => pure (.error (.failed e), s)
    | .ok checkpoint =>
      match s.changedBy m.clusterId with
      | .error e => pure (.error (.failed (.store e)), s)
      | .ok documents => m.sweepSince around config clock checkpoint documents s

def sweep (m : Member) (config : SweepConfig) (clock : Nat → Nat) (s : Store) :
    Logged (Except SweepHalt MemberOutcome × Store) :=
  m.sweepAmid .ofStore config clock s

end Member

end NodeStore
