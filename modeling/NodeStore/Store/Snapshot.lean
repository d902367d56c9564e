import NodeStore.Document
import NodeStore.Json.Basic
import NodeStore.Json.Parser
import NodeStore.Store.Basic
import NodeStore.Update

namespace NodeStore

def Revision.toJson (r : Revision) : Json := .str r.text

def Revision.ofJson? (j : Json) : Option Revision := j.string?.bind parse?

def Key.toJson (k : Key) : Json :=
  .record [("name", .str k.name), ("revision", (k.revision.map Revision.toJson).getD .null)]

/-- An object may leave the revision out, an array of the two fields may not. -/
def Key.ofJson? (j : Json) : Option Key :=
  match j, j.fields? ["name", "revision"] with
  | .array [_], _ => none
  | _, some [some name, revision] => do
    some ⟨← name.string?, ← Json.field? (Json.nullable? Revision.ofJson?) none revision⟩
  | _, _ => none

def Change.toJson : Change → Json
  | insertEntry value => .record [("SetMapEntry", .str value)]
  | eraseEntry => .str "RemoveMapEntry"
  | setFlag value => .record [("SetFlag", .bool value)]
  | raiseEntry r => .record [("MaxRevision", r.toJson)]

def Change.ofJson? : Json → Option Change
  | .string tag => if tag = some "RemoveMapEntry" then some eraseEntry else none
  | .object [(tag, content)] =>
    if tag = some "SetMapEntry" then content.string?.map insertEntry
    else if tag = some "RemoveMapEntry" then if content.isNull then some eraseEntry else none
    else if tag = some "SetFlag" then content.bool?.map setFlag
    else if tag = some "MaxRevision" then (Revision.ofJson? content).map raiseEntry
    else none
  | _ => none

def Condition.toJson : Condition → Json
  | present => .str "Exists"
  | absent => .str "NotExists"
  | equals value => .record [("Equals", .str value)]

def Condition.ofJson? : Json → Option Condition
  | .string tag =>
    if tag = some "Exists" then some present
    else if tag = some "NotExists" then some absent
    else none
  | .object [(tag, content)] =>
    if tag = some "Exists" then if content.isNull then some present else none
    else if tag = some "NotExists" then if content.isNull then some absent else none
    else if tag = some "Equals" then content.string?.map equals
    else none
  | _ => none

def Key.pairsToJson {ν : Type} (write : ν → Json) (m : SortedMap Key ν) : Json :=
  .array (m.entries.map fun e ↦ .array [e.1.toJson, write e.2])

def Key.pairsOfJson? {ν : Type} (read? : Json → Option ν) (j : Json) : Option (SortedMap Key ν) :=
  (j.list? (Json.pair? Key.ofJson? read?)).map .ofList

namespace Update

def toJson (u : Update) : Json :=
  .record [("id", .str u.id), ("is_new", .bool u.isNew), ("changes", Key.pairsToJson Change.toJson u.changes),
    ("conditions", Key.pairsToJson Condition.toJson u.conditions)]

def ofJson? (j : Json) : Option Update :=
  match j.fields? ["id", "is_new", "changes", "conditions"] with
  | some [some id, some isNew, some changes, some conditions] => do
    some ⟨← id.string?, ← isNew.bool?, ← Key.pairsOfJson? Change.ofJson? changes,
      ← Key.pairsOfJson? Condition.ofJson? conditions⟩
  | _ => none

def text (u : Update) : String := u.toJson.text

def parse? (s : String) : Option Update := (Json.parse? s).bind ofJson?

end Update

def Path.ofJson? (j : Json) : Option Path := j.string?.bind fun s ↦ (Path.parse s).toOption

def RevisionMap.toJson (m : RevisionMap) : Json := Json.ofMap Revision.text Json.str m

def RevisionMap.ofJson? (j : Json) : Option RevisionMap := j.map? Revision.parse? Json.string?

namespace Document

def toJson (d : Document) : Json :=
  .record [("id", .str d.id), ("path", .str d.path.text),
    ("maps", Json.ofMap (fun name ↦ name) RevisionMap.toJson d.maps),
    ("deleted_once", .bool d.deletedOnce), ("mod_count", .nat d.modCount.toNat)]

def ofJson? (j : Json) : Option Document :=
  match j.fields? ["id", "path", "maps", "deleted_once", "mod_count"] with
  | some [some id, some path, some maps, deletedOnce, modCount] => do
    some ⟨← id.string?, ← Path.ofJson? path, ← maps.map? some RevisionMap.ofJson?,
      ← Json.field? Json.bool? false deletedOnce, .ofNat (← Json.field? Json.word64? 0 modCount)⟩
  | _ => none

def text (d : Document) : String := d.toJson.text

end Document

end NodeStore

namespace NodeStore.Store

def toJson (s : Store) : Json :=
  .record [("documents", Json.ofMap (fun key ↦ key) Document.toJson s.documents)]

def ofJson? (j : Json) : Option Store :=
  match j.fields? ["documents"] with
  | some [some documents] => do some ⟨← documents.map? some Document.ofJson?, true⟩
  | _ => none

def snapshot (s : Store) : String := s.toJson.text

def restore (text : String) : Except StoreError Store :=
  match (Json.parse? text).bind ofJson? with
  | some s => .ok s
  | none => .error .unreadable

end NodeStore.Store
