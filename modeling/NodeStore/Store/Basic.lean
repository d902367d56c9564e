import NodeStore.Document
import NodeStore.Revision

namespace NodeStore

/-- The documents under the ids of the updates that made them. While the store is not available every call
fails. -/
structure Store where
  documents : SortedMap String Document
  available : Bool
deriving DecidableEq

namespace Store

def empty : Store := ⟨.empty, true⟩

def ofDocuments (ds : List Document) : Store := ⟨.ofList (ds.map fun d ↦ (d.id, d)), true⟩

def offline : StoreError := .unavailable "store is offline"

def setAvailable (s : Store) (available : Bool) : Store := { s with available }

def put (s : Store) (id : String) (d : Document) : Store := { s with documents := s.documents.insert id d }

def size (s : Store) : Nat := s.documents.size

def isEmpty (s : Store) : Bool := s.documents.isEmpty

def find (s : Store) (id : String) : Except StoreError (Option Document) :=
  if s.available then .ok (s.documents.get? id) else .error offline

def findAt (s : Store) (p : Path) : Except StoreError (Option Document) := s.find p.id

def changedBy (s : Store) (clusterId : UInt32) : Except StoreError (List Document) :=
  if s.available then .ok (s.documents.values.filter fun d ↦ !(d.revisionsBy clusterId).isEmpty)
  else .error offline

/-- Applies an update if all its conditions hold, and gives the document as it was before. There is none to
give when a condition fails, and when the update makes a new document. -/
def updateIf (s : Store) (u : Update) : Except StoreError (Option Document) × Store :=
  if s.available then
    match s.documents.get? u.id with
    | some d => if d.meets u then (.ok (some d), s.put u.id (d.apply u)) else (.ok none, s)
    | none =>
      if u.isNew then
        match Document.ofId u.id with
        | .error e => (.error e, s)
        | .ok d => if d.meets u then (.ok none, s.put u.id (d.apply u)) else (.ok none, s)
      else (.ok none, s)
  else (.error offline, s)

def updateIfLines (s : Store) (u : Update) : List LogLine :=
  if s.available then
    match s.documents.get? u.id with
    | some d =>
      if d.meets u then d.applyLines u else [.debug ("Conditions not met for update on " ++ u.id)]
    | none =>
      match Document.ofId u.id with
      | .error _ => []
      | .ok d => if u.isNew && d.meets u then d.applyLines u else []
  else []

/-- Applies an update whatever its conditions, making the document if there is none, and gives the document
as it was before. -/
def upsert (s : Store) (u : Update) : Except StoreError (Option Document) × Store :=
  if s.available then
    match s.documents.get? u.id with
    | some d => (.ok (some d), s.put u.id (d.apply u))
    | none =>
      match Document.ofId u.id with
      | .error e => (.error e, s)
      | .ok d => (.ok none, s.put u.id (d.apply u))
  else (.error offline, s)

def upsertLines (s : Store) (u : Update) : List LogLine :=
  if s.available then
    match s.documents.get? u.id with
    | some d => d.applyLines u
    | none =>
      match Document.ofId u.id with
      | .error _ => []
      | .ok d => d.applyLines u
  else []

def remove (s : Store) (id : String) : Except StoreError (Option Document) × Store :=
  if s.available then (.ok (s.documents.get? id), { s with documents := s.documents.erase id })
  else (.error offline, s)

end Store

def Document.committedValue? (d : Document) (r : Revision) : Option String :=
  (d.valueAt? Property.revisions r).filter CommitValue.recordsCommit

def Path.ancestorAtText? (p : Path) (depth : String) : Option Path :=
  (Numeral.decimal? depth.toList).bind p.ancestorAt?

namespace Store

/-- The commit value of a change written at `r` on `d`, if it is committed. A record on the document itself
comes before its commit root, and a commit root must be another document. -/
def commitValue (s : Store) (d : Document) (r : Revision) : Except StoreError (Option String) :=
  match d.valueAt? Property.revisions r with
  | some _ => .ok (d.committedValue? r)
  | none =>
    match (d.valueAt? Property.commitRoot r).bind d.path.ancestorAtText? with
    | none => .ok none
    | some root =>
      if root = d.path then .ok none
      else (s.findAt root).map fun found ↦ found.bind (·.committedValue? r)

def commitValueLines (d : Document) (r : Revision) : List LogLine :=
  match d.valueAt? Property.revisions r, d.valueAt? Property.commitRoot r with
  | none, some depth =>
    match Numeral.decimal? depth.toList with
    | some _ => []
    | none =>
      [.warn ("Malformed commit root '" ++ depth ++ "' on " ++ d.id ++ " @ " ++ r.text)]
  | _, _ => []

end Store

inductive Client (α : Type) where
  | done (a : α)
  | find (id : String) (next : Except StoreError (Option Document) → Client α)
  | updateIf (u : Update) (next : Except StoreError (Option Document) → Client α)
  | note (line : LogLine) (next : Client α)

namespace Client

variable {α β : Type}

def bind : Client α → (α → Client β) → Client β
  | done a, f => f a
  | find id next, f => find id fun answer ↦ (next answer).bind f
  | updateIf u next, f => updateIf u fun answer ↦ (next answer).bind f
  | note line next, f => note line (next.bind f)

instance : Monad Client where
  pure := done
  bind := bind

def run : Client α → Store → Logged (α × Store)
  | done a, s => pure (a, s)
  | find id next, s => (next (s.find id)).run s
  | updateIf u next, s => do
    Logged.log (s.updateIfLines u)
    (next (s.updateIf u).1).run (s.updateIf u).2
  | note line next, s => do
    Logged.log [line]
    next.run s

/-- Runs a client on a store that other clients change before each of its calls: `others k` is what they do
before the call number `k`. -/
def runAmong (others : Nat → Store → Store) : Client α → Nat → Store → α × Store
  | done a, _, s => (a, s)
  | find id next, k, s => (next ((others k s).find id)).runAmong others (k + 1) (others k s)
  | updateIf u next, k, s =>
    let answer := (others k s).updateIf u
    (next answer.1).runAmong others (k + 1) answer.2
  | note _ next, k, s => next.runAmong others k s

end Client

end NodeStore
