/-
  VariablePrecision.Files.Path

  Paths: the names between the slashes of a text, the location that they lead to, and why
  a path may lead to no file.

  A location is known by the names on the way from the working directory.  Only ways that
  leave the working directory upwards have `..` among them, at their start, and those
  from the root start with a slash.
-/

namespace VariablePrecision

/-- Why a path leads to no file. -/
inductive PathFault where
  /-- There is nothing of some name on the way, or of the last name. -/
  | notFound
  /-- A file stands where the path needs a directory. -/
  | notDirectory
  /-- A directory stands where the path needs a file. -/
  | isDirectory
  /-- The path or one of its names has too many bytes. -/
  | tooLong
  /-- The null character, which no path can have. -/
  | containsNull
  deriving DecidableEq, Repr

/-- The wording of a fault. -/
def PathFault.reason : PathFault → String
  | notFound => "No such file or directory (os error 2)"
  | notDirectory => "Not a directory (os error 20)"
  | isDirectory => "Is a directory (os error 21)"
  | tooLong => "File name too long (os error 36)"
  | containsNull => "file name contained an unexpected NUL byte"

/-- The location of a directory or file. -/
structure Location where
  names : List String
  deriving DecidableEq, Repr

namespace Location

/-- The working directory. -/
def here : Location := ⟨[]⟩

/-- The directory that holds all others. -/
def root : Location := ⟨["/"]⟩

/-- The location of a name in a directory. -/
def child (l : Location) (name : String) : Location := ⟨l.names ++ [name]⟩

/-- The directory above.  Above the root is the root itself. -/
def parent (l : Location) : Location :=
  match l.names.getLast? with
  | none | some ".." => l.child ".."
  | some "/" => l
  | some _ => ⟨l.names.dropLast⟩

/-- The location that a name leads to: one dot stays, and two go up. -/
def next (l : Location) (name : String) : Location :=
  if name = "." then l else if name = ".." then l.parent else l.child name

/-- The location is that of the working directory, of one above it, or of the root. -/
def isOuter (l : Location) : Bool := l.names.all fun name => name = ".." || name = "/"

/-- The location lies below a directory. -/
def isBelow (l directory : Location) : Bool :=
  directory.names.isPrefixOf l.names && l ≠ directory

end Location

/-- A path. -/
structure Path where
  /-- Where the way starts. -/
  start : Location
  /-- The names between the slashes, without empty ones. -/
  names : List String
  /-- The path ends in a slash, so it must be that of a directory. -/
  endsInSlash : Bool
  deriving DecidableEq, Repr

namespace Path

/-- The greatest number of bytes of a path. -/
def maxBytes : Nat := 4095

/-- The greatest number of bytes of a name. -/
def maxNameBytes : Nat := 255

/-- The path of a text. -/
def ofText (text : String) : Except PathFault Path :=
  let cs := text.toList
  if cs.contains '\x00' then .error .containsNull
  else if maxBytes < text.utf8ByteSize then .error .tooLong
  else if cs.isEmpty then .error .notFound
  else .ok
    { start := if cs.head? = some '/' then .root else .here
      names := (text.splitOn "/").filter (· ≠ "")
      endsInSlash := cs.getLast? = some '/' }

/-- Names that stand for directories wherever they are. -/
def isDots (name : String) : Bool := name = "." || name = ".."

/-- The location that the names lead to, if all directories on the way are there. -/
def location (p : Path) : Location := p.names.foldl Location.next p.start

end Path

end VariablePrecision
