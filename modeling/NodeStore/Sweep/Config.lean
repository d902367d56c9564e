import NodeStore.Basic
import NodeStore.Json.Basic
import NodeStore.Json.Parser
import NodeStore.Revision

namespace NodeStore

inductive SweepError where
  | store (cause : StoreError)
  | revision (cause : RevisionError)
  | emptyBatches
  | unreadableConfig
deriving DecidableEq, Repr

def SweepError.message : SweepError → String
  | store cause => "Store access failed: " ++ cause.message
  | revision cause => "Invalid stored revision: " ++ cause.message
  | emptyBatches => "Invalid sweep configuration: batch_size must be greater than zero"
  | unreadableConfig => "Invalid sweep configuration"

/-- Why a sweep has no answer: an error that its caller gets, or a panic, because a full batch would have more bytes
than can be addressed. -/
inductive SweepHalt where
  | failed (error : SweepError)
  | oversized
deriving DecidableEq, Repr

/-- What the caller of a sweep gets. It gets nothing back from a panic. -/
def SweepHalt.reply? {α : Type} : Except SweepHalt α → Option (Except SweepError α)
  | .ok a => some (.ok a)
  | .error (.failed e) => some (.error e)
  | .error .oversized => none

abbrev PropertyFilter := String → Bool

namespace PropertyFilter

/-- User properties, creations of nodes, and the commit records of changes here and on ancestors. -/
def relevant : PropertyFilter := fun name ↦
  Property.isUser name || name == Property.deleted || name == Property.commitRoot ||
    name == Property.revisions

def only (names : List String) : PropertyFilter := fun name ↦ names.contains name

end PropertyFilter

structure SweepConfig where
  /-- Also revert uncommitted changes newer than the head. That is safe only while the member has no commit in
  progress, as in its recovery. -/
  beyondHead : Bool
  batchSize : Nat
  progressInterval : Nat
deriving DecidableEq, Repr

namespace SweepConfig

def standard : SweepConfig := ⟨false, 100, 60000⟩

def recovery : SweepConfig := { standard with beyondHead := true }

def validate (c : SweepConfig) : Except SweepError Unit :=
  if c.batchSize = 0 then .error .emptyBatches else .ok ()

/-- The number of bytes that a path with its update takes in a batch. -/
def entryBytes : Nat := 104

/-- Memory for a full batch is reserved at the start. A size is no more than the largest signed word. -/
def fits (c : SweepConfig) : Bool := max c.batchSize 1 * entryBytes < UInt64.size / 2

def toJson (c : SweepConfig) : Json :=
  .record [("sweep_newer_than_head", .bool c.beyondHead), ("batch_size", .nat c.batchSize),
    ("progress_interval_ms", .nat c.progressInterval)]

def ofJson? (j : Json) : Option SweepConfig :=
  match j.fields? ["sweep_newer_than_head", "batch_size", "progress_interval_ms"] with
  | some [newer, size, interval] => do
    some ⟨← Json.field? Json.bool? standard.beyondHead newer,
      ← Json.field? Json.word64? standard.batchSize size,
      ← Json.field? Json.word64? standard.progressInterval interval⟩
  | _ => none

def text (c : SweepConfig) : String := c.toJson.text

def parse (s : String) : Except SweepError SweepConfig :=
  match (Json.parse? s).bind ofJson? with
  | some c => c.validate.map fun _ ↦ c
  | none => .error .unreadableConfig

end SweepConfig

end NodeStore
