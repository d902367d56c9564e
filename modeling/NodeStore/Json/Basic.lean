import NodeStore.SortedMap
import NodeStore.Text

namespace NodeStore

/-- A JSON value. A string literal whose escapes name half of a surrogate pair is well-formed but has no text:
it is the string `none`. -/
inductive Json where
  | null
  | bool (b : Bool)
  | number (literal : String)
  | string (text : Option String)
  | array (items : List Json)
  | object (members : List (Option String × Json))
deriving Inhabited

namespace Json

def str (s : String) : Json := .string (some s)

def nat (n : Nat) : Json := .number (String.ofList (Nat.toDigits 10 n))

def record (members : List (String × Json)) : Json := .object (members.map fun m ↦ (some m.1, m.2))

end Json

end NodeStore

namespace NodeStore.Json

def escape (c : Char) : List Char :=
  match c with
  | '"' => ['\\', '"']
  | '\\' => ['\\', '\\']
  | '\x08' => ['\\', 'b']
  | '\x0c' => ['\\', 'f']
  | '\n' => ['\\', 'n']
  | '\r' => ['\\', 'r']
  | '\t' => ['\\', 't']
  | c =>
    if c.toNat < 0x20 then
      ['\\', 'u', '0', '0', Nat.digitChar (c.toNat / 16), Nat.digitChar (c.toNat % 16)]
    else [c]

def stringChars : Option String → List Char
  | some s => '"' :: s.toList.flatMap escape ++ ['"']
  | none => ['"', '\\', 'u', 'd', '8', '0', '0', '"']

mutual

def chars : Json → List Char
  | null => ['n', 'u', 'l', 'l']
  | bool true => ['t', 'r', 'u', 'e']
  | bool false => ['f', 'a', 'l', 's', 'e']
  | number literal => literal.toList
  | string text => stringChars text
  | array [] => ['[', ']']
  | array (item :: items) => '[' :: chars item ++ itemsChars items
  | object [] => ['{', '}']
  | object ((key, value) :: members) =>
    '{' :: stringChars key ++ ':' :: chars value ++ membersChars members

def itemsChars : List Json → List Char
  | [] => [']']
  | item :: items => ',' :: chars item ++ itemsChars items

def membersChars : List (Option String × Json) → List Char
  | [] => ['}']
  | (key, value) :: members => ',' :: stringChars key ++ ':' :: chars value ++ membersChars members

end

def text (j : Json) : String := String.ofList j.chars

def string? : Json → Option String
  | .string text => text
  | _ => none

def isNull : Json → Bool
  | .null => true
  | _ => false

def bool? : Json → Option Bool
  | .bool b => some b
  | _ => none

def word64? : Json → Option Nat
  | .number literal => Numeral.plain? 10 UInt64.size literal.toList
  | _ => none

def nullable? {α : Type} (read? : Json → Option α) : Json → Option (Option α)
  | .null => some none
  | j => (read? j).map some

def list? {α : Type} (read? : Json → Option α) : Json → Option (List α)
  | .array items => items.mapM read?
  | _ => none

def pair? {α β : Type} (left? : Json → Option α) (right? : Json → Option β) :
    Json → Option (α × β)
  | .array [l, r] => do some (← left? l, ← right? r)
  | _ => none

def member? (members : List (Option String × Json)) (name : String) : Option (Option Json) :=
  match members.filter (·.1 == some name) with
  | [] => some none
  | [m] => some (some m.2)
  | _ => none

/-- The fields of a record, each present or not. A record is an object, whose other members are ignored, or an
array of the first fields in order. -/
def fields? (names : List String) : Json → Option (List (Option Json))
  | .object members =>
    if members.all (·.1.isSome) then names.mapM (member? members) else none
  | .array items =>
    if items.length ≤ names.length then
      some (items.map some ++ List.replicate (names.length - items.length) none)
    else none
  | _ => none

def field? {α : Type} (read? : Json → Option α) (default : α) : Option Json → Option α
  | none => some default
  | some j => read? j

def ofMap {κ ν : Type} [Ord κ] (keyText : κ → String) (write : ν → Json)
    (m : SortedMap κ ν) : Json :=
  .object (m.entries.map fun e ↦ (some (keyText e.1), write e.2))

/-- Reads a map from an object; of equal keys the last counts. -/
def map? {κ ν : Type} [Ord κ] [Std.TransOrd κ] [Std.LawfulEqOrd κ] (key? : String → Option κ)
    (read? : Json → Option ν) : Json → Option (SortedMap κ ν)
  | .object members => do
    let entries ← members.mapM fun m ↦ do some (← m.1.bind key?, ← read? m.2)
    some (.ofList entries)
  | _ => none

end NodeStore.Json
