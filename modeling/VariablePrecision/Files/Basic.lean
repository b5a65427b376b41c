/-
  VariablePrecision.Files.Basic

  The files of a working directory as a value, and actions on them.  An action may
  fail, and the files it leaves behind are known then too.

  A path is followed name by name, and each name on the way must be that of a
  directory.  Directories are those that hold a file, and all that the working directory
  is in.
-/

import VariablePrecision.Error
import VariablePrecision.Text.Utf8

namespace VariablePrecision

/-- Files with their locations. -/
structure Files where
  entries : List (Location × ByteArray) := []

/-- An action on files. -/
abbrev FileAction := ExceptT Error (StateM Files)

/-- What a path can lead to. -/
inductive Entry where
  | directory
  | file (content : ByteArray)

namespace Files

/-! ## Content -/

/-- The content of the file at a location. -/
def content? (files : Files) (l : Location) : Option ByteArray := files.entries.lookup l

/-- The files with the content at a location replaced, or added if there was none. -/
def put (files : Files) (l : Location) (content : ByteArray) : Files where
  entries := (l, content) :: files.entries.filter (·.1 ≠ l)

/-- The content with some bytes replaced from an offset on; a gap before it is filled with
    zeros. -/
def overwrite (content : ByteArray) (offset : Nat) (bytes : ByteArray) : ByteArray :=
  let gap : ByteArray := ⟨Array.replicate (offset - content.size) 0⟩
  content.extract 0 offset ++ gap ++ bytes ++ content.extract (offset + bytes.size) content.size

/-- The files with some bytes at a location replaced. -/
def writeAt (files : Files) (l : Location) (offset : Nat) (bytes : ByteArray) : Files :=
  files.put l (overwrite ((files.content? l).getD .empty) offset bytes)

@[simp] theorem content?_put (files : Files) (l : Location) (content : ByteArray) :
    (files.put l content).content? l = some content := by
  simp [content?, put]

@[simp] theorem put_put (files : Files) (l : Location) (a b : ByteArray) :
    (files.put l a).put l b = files.put l b := by
  simp [put]

/-- The bytes before the offset, with the gap, then the new bytes, then the rest. -/
theorem toList_overwrite (content bytes : ByteArray) (offset : Nat) :
    (overwrite content offset bytes).data.toList =
      (content.data.toList.take offset ++ List.replicate (offset - content.size) 0) ++
        (bytes.data.toList ++ content.data.toList.drop (offset + bytes.size)) := by
  have rest : (content.data.toList.drop (offset + bytes.size)).length ≤
      content.size - (offset + bytes.size) := by simp
  simp [overwrite, List.extract, List.take_of_length_le rest]

/-- Bytes replaced right behind others are replaced together with them. -/
theorem overwrite_overwrite (content a b : ByteArray) (offset : Nat) :
    overwrite (overwrite content offset a) (offset + a.size) b =
      overwrite content offset (a ++ b) := by
  apply ByteArray.ext
  apply Array.ext'
  have before : (content.data.toList.take offset ++
      List.replicate (offset - content.size) 0).length = offset := by
    simp; omega
  have size : (overwrite content offset a).size =
      (overwrite content offset a).data.toList.length := by simp
  rw [toList_overwrite, size]
  simp only [toList_overwrite]
  generalize content.data.toList.take offset ++ List.replicate (offset - content.size) 0 = p
    at before
  subst before
  have whole : p.take (p.length + a.size) = p := List.take_of_length_le (by omega)
  have past : p.drop (p.length + (a.size + b.size)) = [] := List.drop_of_length_le (by omega)
  have spent : a.data.toList.drop (a.size + b.size) = [] := List.drop_of_length_le (by simp)
  simp [List.take_append, List.drop_append, Nat.add_assoc, whole, past, spent]

theorem writeAt_writeAt (files : Files) (l : Location) (offset : Nat) (a b : ByteArray) :
    (files.writeAt l offset a).writeAt l (offset + a.size) b = files.writeAt l offset (a ++ b) := by
  simp [writeAt, overwrite_overwrite]

/-! ## Following paths -/

/-- Whether a directory is at a location. -/
def isDirectory (files : Files) (l : Location) : Bool :=
  l.isOuter || files.entries.any fun (file, _) => file.isBelow l

/-- The directory of a name in another directory. -/
def enter (files : Files) (l : Location) (name : String) : Except PathFault Location :=
  if Path.isDots name then .ok (l.next name)
  else if Path.maxNameBytes < name.utf8ByteSize then .error .tooLong
  else if files.isDirectory (l.child name) then .ok (l.child name)
  else if (files.content? (l.child name)).isSome then .error .notDirectory
  else .error .notFound

/-- The directory that the last name of a path is looked up in. -/
def directoryOf (files : Files) (p : Path) : Except PathFault Location :=
  p.names.dropLast.foldlM files.enter p.start

/-- What a path leads to. -/
def find (files : Files) (p : Path) : Except PathFault Entry := do
  let directory ← files.directoryOf p
  match p.names.getLast? with
  | none => return .directory
  | some name =>
      if Path.isDots name then return .directory
      else if Path.maxNameBytes < name.utf8ByteSize then throw .tooLong
      else if files.isDirectory (directory.child name) then return .directory
      else
        match files.content? (directory.child name) with
        | none => throw .notFound
        | some content => if p.endsInSlash then throw .notDirectory else return .file content

/-- Where a file of the given path can be made. -/
def locate (files : Files) (p : Path) : Except PathFault Location := do
  let directory ← files.directoryOf p
  match p.names.getLast? with
  | none => throw .isDirectory
  | some name =>
      if Path.isDots name || p.endsInSlash then throw .isDirectory
      else if Path.maxNameBytes < name.utf8ByteSize then throw .tooLong
      else if files.isDirectory (directory.child name) then throw .isDirectory
      else return directory.child name

/-- The text of the file at a path. -/
def text? (files : Files) (path : String) : Option String :=
  match Path.ofText path >>= files.find with
  | .ok (.file content) => some (Text.ofUtf8 content)
  | _ => none

/-! ## Actions -/

/-- The answer of a question about a path, with which an action goes on. -/
def ask {α : Type} (path : String) (question : Files → Path → Except PathFault α) :
    FileAction α := do
  match Path.ofText path >>= question (← get) with
  | .ok a => return a
  | .error fault => throw (.unusablePath path fault)

/-- What is at a path, where something must be. -/
def entry (path : String) : FileAction Entry := ask path find

/-- Makes a file, or empties it, and gives its location. -/
def create (path : String) : FileAction Location := do
  let l ← ask path locate
  modify (·.put l .empty)
  return l

end Files

end VariablePrecision
