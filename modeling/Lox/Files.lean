import Lox.Table

/-!
# Files

What is read at a path.  A path is cut at its slashes, where nothing is lost, and the names between
them are followed one after another from directory to directory:

    ['/'].intercalate (cutNames cs) = cs                             (intercalate_cutNames)
    p.walk (as ++ bs) = p.walk as >>= (·.walk bs)                    (walk_append)

so the first name that leads nowhere says why nothing is read, whatever comes behind it.
-/

namespace Lox

/-- Why nothing is read. -/
inductive ReadError
  | missing
  | denied
  /-- The path goes on behind a file. -/
  | notDirectory
  | directory
  | nameTooLong
  | notText
deriving DecidableEq, Repr

def ReadError.message : ReadError → String
  | .missing => "No such file or directory (os error 2)"
  | .denied => "Permission denied (os error 13)"
  | .notDirectory => "Not a directory (os error 20)"
  | .directory => "Is a directory (os error 21)"
  | .nameTooLong => "File name too long (os error 36)"
  | .notText => "stream did not contain valid UTF-8"

/-- The text that bytes encode. -/
def textOf (bytes : ByteArray) : Except ReadError String :=
  match String.fromUTF8? bytes with
  | some text => .ok text
  | none => .error .notText

/-! ## Paths -/

/-- The parts between the slashes, one more than there are slashes. -/
def cutNames : List Char → List (List Char)
  | [] => [[]]
  | '/' :: cs => [] :: cutNames cs
  | c :: cs => (cutNames cs).modifyHead (c :: ·)

/-- The names of a path; a slash at its beginning or end stands beside an empty one. -/
def pathNames (path : String) : List String := (cutNames path.toList).map String.ofList

/-- The empty name and the dot stay where they are. -/
def staysIn (name : String) : Bool := name == "" || name == "."

/-- More bytes than this a name cannot have. -/
def maxNameSize : Nat := 255

/-- More bytes than this a path cannot have. -/
def maxPathSize : Nat := 4095

theorem cutNames_ne_nil (cs : List Char) : cutNames cs ≠ [] := by
  fun_induction cutNames cs with
  | case1 => simp
  | case2 => simp
  | case3 c cs _ ih => cases h : cutNames cs <;> simp_all

theorem intercalate_cutNames (cs : List Char) : ['/'].intercalate (cutNames cs) = cs := by
  fun_induction cutNames cs with
  | case1 => rfl
  | case2 cs ih =>
    cases h : cutNames cs with
    | nil => exact absurd h (cutNames_ne_nil cs)
    | cons name names => rw [← ih, h]; simp [List.intercalate]
  | case3 c cs _ ih =>
    cases h : cutNames cs with
    | nil => exact absurd h (cutNames_ne_nil cs)
    | cons name names => rw [← ih, h]; cases names <;> simp [List.intercalate]

/-! ## Trees -/

/-- A file, or a directory and what it holds by name. -/
inductive FileTree
  | file (bytes : ByteArray)
  | directory (entries : Table FileTree)

namespace FileTree

def empty : FileTree := .directory ∅

def entries : FileTree → Table FileTree
  | .file _ => ∅
  | .directory entries => entries

/-- Adds a file or, without bytes, a directory, and the directories that it is in.  A directory
that is there already keeps what it holds. -/
def add (bytes : Option ByteArray) : List String → FileTree → FileTree
  | [], t =>
    match bytes with
    | some bytes => .file bytes
    | none => .directory t.entries
  | name :: names, t =>
    .directory (t.entries.insert name (add bytes names ((t.entries.find? name).getD empty)))

/-- The directory that holds files and directories at paths. -/
def ofFiles (files : List (String × Option ByteArray)) : FileTree :=
  files.foldl (fun t (path, bytes) => t.add bytes ((pathNames path).filter (!staysIn ·))) empty

end FileTree

/-! ## Places -/

/-- A tree and the directories around it, the nearest first. -/
structure Place where
  tree : FileTree
  around : List FileTree

namespace Place

/-- The directory that a place is in; the outermost is in itself. -/
def parent (p : Place) : Place :=
  match p.around with
  | [] => p
  | t :: around => ⟨t, around⟩

/-- The outermost directory. -/
def root (p : Place) : Place := ⟨p.around.getLastD p.tree, []⟩

/-- Follows a name. -/
def step (p : Place) (name : String) : Except ReadError Place :=
  match p.tree with
  | .file _ => .error .notDirectory
  | .directory entries =>
    if staysIn name then .ok p
    else if name = ".." then .ok p.parent
    else if maxNameSize < name.utf8ByteSize then .error .nameTooLong
    else
      match entries.find? name with
      | some t => .ok ⟨t, p.tree :: p.around⟩
      | none => .error .missing

def walk (p : Place) (names : List String) : Except ReadError Place := names.foldlM step p

theorem walk_append (p : Place) (as bs : List String) :
    p.walk (as ++ bs) = p.walk as >>= (·.walk bs) := List.foldlM_append

/-- The place at a path, which a slash in front sends to the outermost directory. -/
def find (p : Place) (path : String) : Except ReadError Place :=
  if maxPathSize < path.utf8ByteSize then .error .nameTooLong
  else if path = "" then .error .missing
  else if path.toList.head? = some '/' then p.root.walk (pathNames path)
  else p.walk (pathNames path)

/-- The bytes of the file at a path. -/
def read (p : Place) (path : String) : Except ReadError ByteArray := do
  match (← p.find path).tree with
  | .file bytes => return bytes
  | .directory _ => throw .directory

end Place

end Lox
