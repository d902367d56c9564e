import NodeStore.Basic
import NodeStore.Text

namespace NodeStore

def IsSegment (name : String) : Prop := name ≠ "" ∧ '/' ∉ name.toList

instance (name : String) : Decidable (IsSegment name) := inferInstanceAs (Decidable (_ ∧ _))

structure Path where
  segments : List String
  valid : ∀ s ∈ segments, IsSegment s
deriving DecidableEq

namespace Path

def root : Path := ⟨[], by simp⟩

def isRoot (p : Path) : Bool := p.segments.isEmpty

def chars (p : Path) : List Char :=
  if p.isRoot then ['/'] else p.segments.flatMap fun s ↦ '/' :: s.toList

def text (p : Path) : String := String.ofList p.chars

theorem isSegment_of_mem_splitOn {cs part : List Char} (h : part ∈ cs.splitOn '/') (ne : part ≠ []) :
    IsSegment (String.ofList part) := by
  refine ⟨by simpa using ne, ?_⟩
  rw [String.toList_ofList]
  exact Text.not_mem_of_mem_splitOn h

def parse (s : String) : Except StoreError Path :=
  match s.toList with
  | ['/'] => .ok root
  | '/' :: cs =>
    if h : [] ∈ cs.splitOn '/' then .error (.invalidPath s)
    else .ok ⟨(cs.splitOn '/').map String.ofList, by
      intro name mem
      obtain ⟨part, part_mem, rfl⟩ := List.mem_map.1 mem
      exact isSegment_of_mem_splitOn part_mem fun eq ↦ h (eq ▸ part_mem)⟩
  | _ => .error (.invalidPath s)

def depth (p : Path) : Nat := p.segments.length

def name (p : Path) : String := p.segments.getLastD ""

def parent? (p : Path) : Option Path :=
  if p.isRoot then none
  else some ⟨p.segments.dropLast, fun s h ↦ p.valid s ((List.dropLast_sublist _).mem h)⟩

/-- The first `depth` segments: the ancestor, or the path itself, at that depth. -/
def ancestorAt? (p : Path) (depth : Nat) : Option Path :=
  if depth ≤ p.depth then some ⟨p.segments.take depth, fun s h ↦ p.valid s (List.mem_of_mem_take h)⟩
  else none

def child (p : Path) (name : String) : Except StoreError Path :=
  if h : IsSegment name then
    .ok ⟨p.segments ++ [name], fun s mem ↦ by
      rcases List.mem_append.1 mem with mem | mem
      · exact p.valid s mem
      · exact List.mem_singleton.1 mem ▸ h⟩
  else .error (.invalidPath (p.text ++ "/" ++ name))

/-- The document id: depth, colon, path. -/
def id (p : Path) : String := String.ofList (Numeral.print 10 p.depth ++ ':' :: p.chars)

/-- Reads the path of a document id, whose depth must be that of the path. The path begins after the first
colon. -/
def ofId (s : String) : Except StoreError Path :=
  match s.toList.span (· != ':') with
  | (digits, ':' :: cs) =>
    match Numeral.decimal? digits with
    | none => .error (.invalidId s)
    | some depth =>
      match parse (String.ofList cs) with
      | .error e => .error e
      | .ok p => if p.depth = depth then .ok p else .error (.invalidId s)
  | _ => .error (.invalidId s)

end Path

end NodeStore
