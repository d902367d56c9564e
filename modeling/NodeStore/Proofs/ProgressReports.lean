import Mathlib.Algebra.BigOperators.Group.List.Basic
import Mathlib.Data.List.Chain
import NodeStore.Proofs.BatchOrder

namespace NodeStore

structure TimedReport where
  reading : Nat
  report : ProgressReport

namespace ProgressReport

/-- A number of documents per minute, told without a division: a whole number, rounded down, of at most 64 bits
in its product, and zero when no time has passed. -/
def IsRate (count elapsed rate : Nat) : Prop :=
  (elapsed = 0 ∧ rate = 0) ∨
    (0 < elapsed ∧ rate * elapsed ≤ min (count * 60000) (UInt64.size - 1) ∧
      min (count * 60000) (UInt64.size - 1) < (rate + 1) * elapsed)

theorem isRate_rate (count elapsed : Nat) : IsRate count elapsed (rate count elapsed) := by
  rcases Nat.eq_zero_or_pos elapsed with h | h
  · exact .inl ⟨h, if_pos h⟩
  · refine .inr ⟨h, ?_⟩
    rw [rate, if_neg h.ne']
    exact ⟨Nat.div_mul_le_self _ _, Nat.lt_mul_of_div_lt (Nat.lt_succ_self _) h⟩

/-- The line states the total of the report and its recent documents, each with the time they took and their rate. -/
def Says (r : ProgressReport) (l : LogLine) : Prop :=
  ∃ m n, IsRate r.total r.totalElapsed m ∧ IsRate r.recent r.recentElapsed n ∧
    l = .info ("Sweep on cluster node [" ++ toString r.clusterId.toNat ++ "]: " ++ toString r.total ++
      " nodes scanned in " ++ Duration.text r.totalElapsed ++ " (~" ++ toString m ++ "/m) - last interval " ++
      toString r.recent ++ " nodes in " ++ Duration.text r.recentElapsed ++ " (~" ++ toString n ++ "/m)")

theorem says_line (r : ProgressReport) : r.Says r.line := ⟨_, _, isRate_rate _ _, isRate_rate _ _, rfl⟩

end ProgressReport

namespace Progress

def elapsed (since now : Nat) : Nat := ((now : Int) - since).toNat

theorem elapsed_eq_sub (since now : Nat) : elapsed since now = now - since := Int.toNat_sub now since

def after (p : Progress) (readings : List Nat) : Progress := readings.foldl (fun p now ↦ (p.scanned now).1) p

def reportAt (p : Progress) (now : Nat) : List TimedReport := ((p.scanned now).2.map (⟨now, ·⟩)).toList

def reports (p : Progress) : List Nat → List TimedReport
  | [] => []
  | now :: rest => p.reportAt now ++ (p.scanned now).1.reports rest

def lastReading (started : Nat) (made : List TimedReport) : Nat := (made.getLast?.map (·.reading)).getD started

def lastTotal (made : List TimedReport) : Nat := (made.getLast?.map (·.report.total)).getD 0

variable {p : Progress} {c : UInt32} {gap started : Nat} {readings : List Nat} {made : List TimedReport}

theorem after_append (p : Progress) (readings rest : List Nat) :
    p.after (readings ++ rest) = (p.after readings).after rest := List.foldl_append

theorem reports_append (p : Progress) (readings rest : List Nat) :
    p.reports (readings ++ rest) = p.reports readings ++ (p.after readings).reports rest := by
  induction readings generalizing p with
  | nil => rfl
  | cons now readings ih =>
    rw [List.cons_append, reports, ih, reports, List.append_assoc]
    rfl

theorem after_concat (p : Progress) (readings : List Nat) (now : Nat) :
    p.after (readings ++ [now]) = ((p.after readings).scanned now).1 := after_append p readings [now]

theorem reports_concat (p : Progress) (readings : List Nat) (now : Nat) :
    p.reports (readings ++ [now]) = p.reports readings ++ (p.after readings).reportAt now := by
  rw [reports_append, reports, reports, List.append_nil]

theorem scanned_cases (p : Progress) (now : Nat) :
    (elapsed p.reportedAt now < p.interval ∧
      p.scanned now = ({ p with total := p.total + 1, sinceReport := p.sinceReport + 1 }, none)) ∨
    (p.interval ≤ elapsed p.reportedAt now ∧
      p.scanned now = ({ p with total := p.total + 1, sinceReport := 0, reportedAt := now },
        some ⟨p.clusterId, p.total + 1, elapsed p.startedAt now, p.sinceReport + 1, elapsed p.reportedAt now⟩)) := by
  simp only [elapsed_eq_sub]
  rcases Nat.lt_or_ge (now - p.reportedAt) p.interval with h | h
  · exact .inl ⟨h, if_pos h⟩
  · exact .inr ⟨h, if_neg h.not_gt⟩

/-- A report is due at a reading if the interval has passed since the last one. It counts every document scanned so
far, and those since the last report, the document at hand among them. -/
def due (c : UInt32) (gap started : Nat) (readings : List Nat) (made : List TimedReport) (now : Nat) :
    List TimedReport :=
  if gap ≤ elapsed (lastReading started made) now then
    [⟨now, c, readings.length + 1, elapsed started now, readings.length + 1 - lastTotal made,
      elapsed (lastReading started made) now⟩]
  else []

/-- The counters and times of a state are those of the reports made so far and of the readings since the last
one. -/
structure Tracks (p : Progress) (c : UInt32) (gap started : Nat) (readings : List Nat) (made : List TimedReport) :
    Prop where
  clusterId : p.clusterId = c
  interval : p.interval = gap
  startedAt : p.startedAt = started
  reportedAt : p.reportedAt = lastReading started made
  total : p.total = readings.length
  sinceReport : p.sinceReport + lastTotal made = readings.length
  recent : (made.map (·.report.recent)).sum = lastTotal made
  apart : 0 < gap → (started :: made.map (·.reading)).IsChain fun s t ↦ s + gap ≤ t

theorem tracks_start (c : UInt32) (gap started : Nat) : Tracks (.start c gap started) c gap started [] [] where
  clusterId := rfl
  interval := rfl
  startedAt := rfl
  reportedAt := rfl
  total := rfl
  sinceReport := rfl
  recent := rfl
  apart := fun _ ↦ .singleton started

theorem lastReading_concat (started : Nat) (made : List TimedReport) (r : TimedReport) :
    lastReading started (made ++ [r]) = r.reading := by
  rw [lastReading, List.getLast?_concat]
  rfl

theorem lastTotal_concat (made : List TimedReport) (r : TimedReport) : lastTotal (made ++ [r]) = r.report.total := by
  rw [lastTotal, List.getLast?_concat]
  rfl

theorem Tracks.reportAt (h : Tracks p c gap started readings made) (now : Nat) :
    p.reportAt now = due c gap started readings made now := by
  have hsince : p.sinceReport + 1 = readings.length + 1 - lastTotal made := by
    have := h.sinceReport
    omega
  rcases scanned_cases p now with ⟨hlt, hstep⟩ | ⟨hle, hstep⟩
  · rw [h.interval, h.reportedAt] at hlt
    rw [due, if_neg hlt.not_ge, Progress.reportAt, hstep]
    rfl
  · rw [h.interval, h.reportedAt] at hle
    rw [due, if_pos hle, Progress.reportAt, hstep, h.clusterId, h.total, h.startedAt, h.reportedAt, hsince]
    rfl

theorem getLast?_readings (started : Nat) (made : List TimedReport) :
    (started :: made.map (·.reading)).getLast? = some (lastReading started made) := by
  rw [List.getLast?_cons, List.getLast?_map]
  rfl

theorem Tracks.isChain_concat (h : Tracks p c gap started readings made) {now : Nat} (hgap : 0 < gap)
    (hdue : gap ≤ elapsed (lastReading started made) now) :
    (started :: (made.map (·.reading) ++ [now])).IsChain fun s t ↦ s + gap ≤ t := by
  have hstep : lastReading started made + gap ≤ now := by
    rw [elapsed_eq_sub] at hdue
    omega
  rw [← List.cons_append]
  refine (h.apart hgap).append (.singleton now) fun s hs t ht ↦ ?_
  rw [getLast?_readings, Option.mem_some_iff] at hs
  obtain rfl : now = t := by simpa using ht
  exact hs ▸ hstep

theorem Tracks.scanned (h : Tracks p c gap started readings made) (now : Nat) :
    Tracks (p.scanned now).1 c gap started (readings ++ [now]) (made ++ p.reportAt now) := by
  have hlength : (readings ++ [now]).length = readings.length + 1 := List.length_append
  rcases scanned_cases p now with ⟨-, hstep⟩ | ⟨hle, hstep⟩
  · have hnone : p.reportAt now = [] := by rw [Progress.reportAt, hstep]; rfl
    rw [hstep, hnone, List.append_nil]
    refine { h with total := ?_, sinceReport := ?_ }
    · rw [hlength, ← h.total]
    · rw [hlength, Nat.add_right_comm, h.sinceReport]
  · rw [h.interval, h.reportedAt] at hle
    rw [h.reportAt, due, if_pos hle, hstep]
    refine ⟨h.clusterId, h.interval, h.startedAt, ?_, ?_, ?_, ?_, fun hgap ↦ ?_⟩
    · rw [lastReading_concat]
    · rw [hlength, ← h.total]
    · rw [lastTotal_concat, hlength, Nat.zero_add]
    · have htotal : lastTotal made ≤ readings.length + 1 := by
        have := h.sinceReport
        omega
      rw [lastTotal_concat, List.map_append, List.sum_append, h.recent, List.map_singleton, List.sum_singleton]
      exact Nat.add_sub_of_le htotal
    · rw [List.map_append, List.map_singleton]
      exact h.isChain_concat hgap hle

/-- Documents scanned one by one from the start are tracked, by induction on the last of them. -/
theorem tracks_after (c : UInt32) (gap started : Nat) (readings : List Nat) :
    Tracks ((Progress.start c gap started).after readings) c gap started readings
      ((Progress.start c gap started).reports readings) := by
  induction readings using List.reverseRecOn with
  | nil => exact tracks_start c gap started
  | append_singleton readings now ih =>
    rw [after_concat, reports_concat]
    exact ih.scanned now

/-- The next report says the number of documents scanned so far, and counts the ones since the last report; it is
made if the interval has passed since then. So the reports account for every document, and with an interval that
is not zero, they are that far apart, also on a clock that goes back. -/
theorem reports_account (c : UInt32) (interval started : Nat) (readings : List Nat) :
    let start := Progress.start c interval started
    let made := start.reports readings
    (start.after readings).total = readings.length ∧
      (start.after readings).sinceReport + lastTotal made = readings.length ∧
      (made.map (·.report.recent)).sum + (start.after readings).sinceReport = readings.length ∧
      (∀ now, start.reports (readings ++ [now]) = made ++ due c interval started readings made now) ∧
      (0 < interval → (started :: made.map (·.reading)).IsChain fun s t ↦ s + interval ≤ t) ∧
      ∀ r ∈ made, r.report.Says r.report.line := by
  have h := tracks_after c interval started readings
  refine ⟨h.total, h.sinceReport, ?_, fun now ↦ ?_, h.apart, fun r _ ↦ r.report.says_line⟩
  · rw [h.recent, Nat.add_comm, h.sinceReport]
  · rw [reports_concat, h.reportAt]

theorem reports_account_backwards : 0 < 60000 ∧
    (0 :: ((Progress.start 1 60000 0).reports [59999, 60000, 50000, 119999, 120000]).map (·.reading)).IsChain
      fun s t ↦ s + 60000 ≤ t :=
  ⟨by decide, (reports_account 1 60000 0 [59999, 60000, 50000, 119999, 120000]).2.2.2.2.1 (by decide)⟩

example : ((Progress.start 1 60000 0).reports [59999, 60000, 50000, 119999, 120000]).map (·.report) =
    [⟨1, 2, 60000, 2, 60000⟩, ⟨1, 5, 120000, 3, 60000⟩] := by decide

end Progress

namespace SweepRun

variable {σ : Type} {around : Surroundings σ} {run : SweepRun σ} {p : Progress} {k : Nat} {readings : List Nat}

/-- Documents were scanned at the given clock readings, `k` before them, and the reports on them were logged. -/
structure Reports (p : Progress) (k : Nat) (next : Logged (SweepRun σ)) (readings : List Nat) : Prop where
  progress : next.value.progress = p.after readings
  scanned : next.value.counts.scanned = k + readings.length
  logged : ((p.reports readings).map (·.report.line)).Sublist next.lines

theorem Reports.bind {next : Logged (SweepRun σ)} {f : SweepRun σ → Logged (SweepRun σ)} {rest : List Nat}
    (h : Reports p k next readings)
    (hf : Reports next.value.progress next.value.counts.scanned (f next.value) rest) :
    Reports p k (next >>= f) (readings ++ rest) where
  progress := by rw [Logged.value_bind, hf.progress, h.progress, Progress.after_append]
  scanned := by rw [Logged.value_bind, hf.scanned, h.scanned, List.length_append, Nat.add_assoc]
  logged := by
    have hlogged := hf.logged
    rw [h.progress] at hlogged
    rw [Logged.lines_bind, Progress.reports_append, List.map_append]
    exact h.logged.append hlogged

theorem Reports.bind_nil {next : Logged (SweepRun σ)} {f : SweepRun σ → Logged (SweepRun σ)}
    (h : Reports p k next readings)
    (hf : Reports next.value.progress next.value.counts.scanned (f next.value) []) :
    Reports p k (next >>= f) readings := by
  have hall := h.bind hf
  rwa [List.append_nil] at hall

theorem Reports.after_call {α : Type} (x : Logged α) {f : α → Logged (SweepRun σ)}
    (hf : Reports p k (f x.value) readings) : Reports p k (x >>= f) readings :=
  ⟨hf.progress, hf.scanned, hf.logged.trans (List.sublist_append_right ..)⟩

theorem reports_pure (hp : run.progress = p) (hk : run.counts.scanned = k) : Reports p k (pure run) [] :=
  ⟨hp, hk, List.nil_sublist _⟩

theorem reports_deliver (hp : run.progress = p) (hk : run.counts.scanned = k) :
    Reports p k (run.deliver around) [] := by
  unfold deliver
  refine Reports.after_call _ ?_
  cases (around.deliver run.world run.pending).value.1 with
  | ok => exact reports_pure hp hk
  | error e => exact reports_pure hp hk

theorem reports_enqueue (sw : Sweep) (path : Path) (u : Update) (hp : run.progress = p)
    (hk : run.counts.scanned = k) : Reports p k (run.enqueue sw around path u) [] := by
  unfold enqueue
  dsimp only
  split
  · exact reports_deliver hp hk
  · exact reports_pure hp hk

theorem reports_countScanned (now : Nat) (hp : run.progress = p) (hk : run.counts.scanned = k) :
    Reports p k (run.countScanned now) [now] where
  progress := hp ▸ rfl
  scanned := hk ▸ rfl
  logged := by
    have hlines : (run.countScanned now).lines = ((run.progress.scanned now).2.map ProgressReport.line).toList :=
      List.append_nil _
    rw [hlines, hp, Progress.reports, Progress.reports, List.append_nil, Progress.reportAt]
    cases (p.scanned now).2 <;> exact .refl _

theorem reports_scan (around : Surroundings σ) (sw : Sweep) (head : Revision) (clock : Nat → Nat) (v : View)
    (run : SweepRun σ) :
    ((run.scan sw around head clock v).value.failure.isSome ∧
      Reports run.progress run.counts.scanned (run.scan sw around head clock v) []) ∨
    Reports run.progress run.counts.scanned (run.scan sw around head clock v) [clock (run.taken + 1)] := by
  cases hfound : (sw.correct (around.lookup run.world) head v).value with
  | mk c failure =>
    cases failure with
    | some e =>
      have hstop := scan_of_failure run around sw head clock hfound
      refine .inl ⟨by rw [hstop]; rfl, Reports.after_call _ ?_⟩
      rw [hfound]
      exact reports_pure rfl rfl
    | none =>
      refine .inr (Reports.after_call _ ?_)
      simp only [hfound]
      refine Reports.bind_nil (reports_countScanned _ rfl rfl) ?_
      cases c.update? with
      | some u => exact reports_enqueue sw v.document.path u rfl rfl
      | none => exact reports_pure rfl rfl

theorem reports_scanAll (around : Surroundings σ) (sw : Sweep) (head : Revision) (clock : Nat → Nat)
    (views : List View) (run : SweepRun σ) :
    ∃ n, Reports run.progress run.counts.scanned (scanAll sw around head clock views run)
      ((List.range' (run.taken + 1) n).map clock) := by
  induction views generalizing run with
  | nil => exact ⟨0, reports_pure rfl rfl⟩
  | cons v views ih =>
    rw [scanAll]
    rcases run.reports_scan around sw head clock v with ⟨hfailed, hscan⟩ | hscan
    · refine ⟨0, hscan.bind ?_⟩
      rw [if_pos hfailed]
      exact reports_pure rfl rfl
    · cases hfailure : (run.scan sw around head clock v).value.failure.isSome with
      | true =>
        refine ⟨1, hscan.bind ?_⟩
        rw [if_pos hfailure]
        exact reports_pure rfl rfl
      | false =>
        obtain ⟨n, hrest⟩ := ih (run.scan sw around head clock v).value
        rw [taken_scan] at hrest
        refine ⟨n + 1, hscan.bind ?_⟩
        rw [if_neg (by rw [hfailure]; decide)]
        exact hrest

theorem reports_finish (around : Surroundings σ) (hp : run.progress = p) (hk : run.counts.scanned = k) :
    Reports p k (run.finish around) [] := by
  unfold finish
  split
  · exact reports_pure hp hk
  · exact reports_deliver hp hk

end SweepRun

namespace Sweep

variable {σ : Type}

theorem run_extends (sw : Sweep) {head : Revision} (hh : sw.head.revision? sw.clusterId = some head)
    (hfits : sw.config.fits = true) (around : Surroundings σ) (clock : Nat → Nat) (views : List View) (world : σ) :
    let scanned := SweepRun.scanAll sw around head clock views (.start sw world (clock 0)) >>= (·.finish around)
    (sw.run around clock views world).value.counts = scanned.value.counts ∧
      scanned.lines.Sublist (sw.run around clock views world).lines := by
  simp only [run, hh, hfits, if_true, Logged.value_bind, Logged.lines_bind]
  split
  · exact ⟨rfl, List.Sublist.append_left (List.sublist_append_left ..) _⟩
  · exact ⟨rfl, List.Sublist.append_left (List.sublist_append_left ..) _⟩

/-- A sweep logs the reports on the documents it counts, in order, by the clock that it was given. -/
theorem reports_sublist_lines (sw : Sweep) (around : Surroundings σ) (clock : Nat → Nat) (views : List View)
    (world : σ) :
    let result := sw.run around clock views world
    let start := Progress.start sw.clusterId sw.config.progressInterval (clock 0)
    ((start.reports ((List.range' 1 result.value.counts.scanned).map clock)).map (·.report.line)).Sublist
      result.lines := by
  cases hh : sw.head.revision? sw.clusterId with
  | none =>
    simp only [run, hh]
    exact List.nil_sublist _
  | some head =>
    cases hfits : sw.config.fits with
    | false =>
      rw [sw.run_of_oversized hh hfits]
      exact List.nil_sublist _
    | true =>
      obtain ⟨n, hscanned⟩ :=
        SweepRun.reports_scanAll around sw head clock views (.start sw world (clock 0))
      have hrun := hscanned.bind_nil (SweepRun.reports_finish around rfl rfl)
      obtain ⟨hcounts, hlines⟩ := sw.run_extends hh hfits around clock views world
      have hn : (sw.run around clock views world).value.counts.scanned = n := by
        rw [hcounts, hrun.scanned, List.length_map, List.length_range']
        exact Nat.zero_add n
      dsimp only
      rw [hn]
      exact hrun.logged.trans hlines

end Sweep

end NodeStore
