import NodeStore.Sweep.Member

namespace NodeStore

structure Clock where
  now : UInt64
deriving DecidableEq, Repr

namespace Clock

def advance (c : Clock) (millis : UInt64) : Clock := ⟨c.now + millis⟩

def set (_ : Clock) (millis : UInt64) : Clock := ⟨millis⟩

/-- The clock after `n` moves by the given ticks, taken again from the first when they are used up; `skip` ticks
are passed over before. -/
def ticking (c : Clock) (ticks : List UInt64) (skip n : Nat) : Clock :=
  (List.range n).foldl (fun c i ↦ c.advance (ticks[(skip + i) % ticks.length]?.getD 0)) c

end Clock

structure CommitTable where
  values : SortedMap Revision String
  failing : List Revision

def CommitTable.lookup (t : CommitTable) : CommitLookup := fun _ r ↦
  if t.failing.contains r then pure (.error (.notFound r.text)) else pure (.ok (t.values.get? r))

structure Recorder where
  calls : Nat
  batches : List Batch

namespace Recorder

def empty : Recorder := ⟨0, []⟩

def receive (failingCall : Nat) (r : Recorder) (batch : Batch) : Except StoreError Unit × Recorder :=
  if r.calls + 1 = failingCall then (.error (.unavailable "listener failed"), ⟨r.calls + 1, r.batches⟩)
  else (.ok (), ⟨r.calls + 1, r.batches ++ [batch]⟩)

end Recorder

def Surroundings.ofTable (t : CommitTable) (failingCall : Nat) : Surroundings Recorder where
  lookup _ := t.lookup
  deliver r batch := pure (r.receive failingCall batch)

/-- A store that becomes unavailable after some calls of its receiver. -/
structure Outage where
  store : Store
  tally : Tally
  kept : List Batch
  calls : Nat

namespace Outage

def start (s : Store) : Outage := ⟨s, .zero, [], 0⟩

def endCall (lastCall : Option Nat) (o : Outage) : Outage :=
  if some (o.calls + 1) = lastCall then { o with calls := o.calls + 1, store := o.store.setAvailable false }
  else { o with calls := o.calls + 1 }

end Outage

def Surroundings.ofOutage (lastCall : Option Nat) (keep : Bool) : Surroundings Outage where
  lookup o := fun d r ↦ ⟨o.store.commitValue d r, Store.commitValueLines d r⟩
  deliver o batch :=
    if keep then pure (.ok (), { o with kept := o.kept ++ [batch] }.endCall lastCall)
    else do
      let (answer, world) ← Surroundings.ofStore.deliver ⟨o.store, o.tally⟩ batch
      pure (answer, { o with store := world.store, tally := world.tally }.endCall lastCall)

end NodeStore
