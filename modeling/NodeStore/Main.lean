import NodeStore.Recovery

namespace NodeStore.Recovery

def runs : List (Nat × Nat × Nat) := [(3, 200, 1), (8, 1000, 4), (16, 2000, 16)]

def report (members writes crashed : Nat) : IO Bool := do
  let before ← IO.monoMsNow
  match simulate members writes crashed with
  | .error e =>
    IO.eprintln ("Simulation failed: " ++ e.message)
    pure false
  | .ok stats =>
    (announcements members writes crashed).forM IO.println
    let after ← IO.monoMsNow
    (stats.lines (after - before)).forM IO.println
    pure true

end NodeStore.Recovery

def main : IO UInt32 := do
  IO.println ("\n" ++ NodeStore.RecoveryReport.top)
  IO.println "║            CLUSTER RECOVERY SIMULATIONS                     ║"
  IO.println NodeStore.RecoveryReport.bottom
  for (members, writes, crashed) in NodeStore.Recovery.runs do
    unless ← NodeStore.Recovery.report members writes crashed do
      return 1
  IO.println "\n✓ All recovery simulations completed successfully!"
  return 0
