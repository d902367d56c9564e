namespace NodeStore

inductive StoreError where
  | unavailable (reason : String)
  | notFound (what : String)
  | invalidPath (text : String)
  | invalidId (text : String)
  | unreadable
deriving DecidableEq, Repr

def StoreError.message : StoreError → String
  | unavailable reason => "Document store unavailable: " ++ reason
  | notFound what => "Document not found: " ++ what
  | invalidPath text => "Invalid path: " ++ text
  | invalidId text => "Invalid document id: " ++ text
  | unreadable => "Serialization error"

end NodeStore

namespace NodeStore.Property

def deleted : String := "_deleted"

def commitRoot : String := "_commitRoot"

/-- Commit records of the revisions whose commit root is the document itself. -/
def revisions : String := "_revisions"

def branchCommits : String := "_bc"

/-- Sweep checkpoints of the cluster members, on the root document. -/
def sweepRevision : String := "_sweepRev"

def deletedOnce : String := "_deletedOnce"

def notDeleted : String := "false"

def isUser (name : String) : Bool :=
  match name.toList with
  | '_' :: '_' :: _ => true
  | '_' :: _ => false
  | _ => true

end NodeStore.Property

namespace NodeStore

inductive LogLevel where
  | warn
  | info
  | debug
deriving DecidableEq, Repr

structure LogLine where
  level : LogLevel
  message : String
deriving DecidableEq, Repr

namespace LogLine

def warn (message : String) : LogLine := ⟨.warn, message⟩

def info (message : String) : LogLine := ⟨.info, message⟩

def debug (message : String) : LogLine := ⟨.debug, message⟩

end LogLine

/-- A value and the lines logged before it was reached. -/
structure Logged (α : Type) where
  value : α
  lines : List LogLine

namespace Logged

variable {α β : Type}

def pure (a : α) : Logged α := ⟨a, []⟩

def bind (x : Logged α) (f : α → Logged β) : Logged β :=
  ⟨(f x.value).value, x.lines ++ (f x.value).lines⟩

instance : Monad Logged where
  pure := pure
  bind := bind

def log (lines : List LogLine) : Logged Unit := ⟨(), lines⟩

@[simp]
theorem value_pure (a : α) : (Pure.pure a : Logged α).value = a := rfl

@[simp]
theorem value_bind (x : Logged α) (f : α → Logged β) : (x >>= f).value = (f x.value).value := rfl

@[simp]
theorem lines_pure (a : α) : (Pure.pure a : Logged α).lines = [] := rfl

@[simp]
theorem lines_bind (x : Logged α) (f : α → Logged β) :
    (x >>= f).lines = x.lines ++ (f x.value).lines := rfl

end Logged

end NodeStore
