import FlatCode.Command.Run

/-! A directory as a value, on which the command runs without an operating system. -/
namespace FlatCode.Command

inductive Entry where
  | file (content : ByteArray)
  | directory

def Entry.isDirectory : Entry → Bool
  | file _ => false
  | directory => true

def Entry.content? : Entry → Option ByteArray
  | file content => some content
  | directory => none

/-- What a directory holds, each by the names on the way to it. -/
structure Directory where
  entries : List (List String × Entry)

namespace Directory

/-- The sizes in bytes that paths and the names in them can have. -/
def longestPath : Nat := 4095

def longestName : Nat := 255

/-- The names on a way. Empty names and single dots lead nowhere. -/
def names (path : String) : List String :=
  (path.splitOn "/").filter fun name => name ≠ "" ∧ name ≠ "."

/-- A way that ends like this can only lead to a directory. -/
def namesDirectory (path : String) : Bool :=
  let last := ((path.splitOn "/").getLast?).getD ""
  last = "" || last = "." || last = ".."

def entry? (d : Directory) (way : List String) : Option Entry := d.entries.lookup way

/-- Whether a way leads to a directory: the root, one that is listed, or one on the way to
something that is listed. -/
def isDirectory (d : Directory) (way : List String) : Bool :=
  way.isEmpty || (d.entry? way).any Entry.isDirectory ||
    d.entries.any fun e => way.length < e.1.length && way.isPrefixOf e.1

/-- Walks a way name by name. Every name but the last has to be a directory. -/
def resolve? (d : Directory) (reached : List String) : List String → Option (List String)
  | [] => some reached
  | name :: rest =>
    if d.isDirectory reached then
      if name = ".." then
        if reached.isEmpty then none else d.resolve? reached.dropLast rest
      else d.resolve? (reached ++ [name]) rest
    else none

/-- Where a relative path that names a file leads. -/
def way? (d : Directory) (path : String) : Option (List String) :=
  if path.startsWith "/" || namesDirectory path || longestPath < path.utf8ByteSize then none
  else d.resolve? [] (names path)

def read? (d : Directory) (path : String) : Option ByteArray := do
  let way ← d.way? path
  (← d.entry? way).content?

def write? (d : Directory) (path : String) (text : String) : Option Directory := do
  let way ← d.way? path
  if d.isDirectory way || longestName < ((way.getLast?).getD "").utf8ByteSize then none
  else some ⟨(way, .file text.toUTF8) :: d.entries.filter fun e => e.1 ≠ way⟩

/-- The operations of the command on a directory. -/
def files : Files (StateM Directory) where
  isFile path := return ((← get).read? path).isSome
  read path := return (← get).read? path
  write path text := do
    match (← get).write? path text with
    | some d =>
      set d
      pure true
    | none => pure false

def run (d : Directory) (terminal : Text.Paint) (args : List String) : Outcome × Directory :=
  (Command.run files terminal args).run d

def holds (d : Directory) (way : List String) (content : ByteArray) : Bool :=
  ((d.entry? way).bind Entry.content?).any fun old => old.data = content.data

def changed (before after : Directory) : List (String × ByteArray) :=
  after.entries.filterMap fun e => do
    let content ← e.2.content?
    if before.holds e.1 content then none else some (String.intercalate "/" e.1, content)

end Directory
end FlatCode.Command
