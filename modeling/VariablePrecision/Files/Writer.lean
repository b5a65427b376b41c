/-
  VariablePrecision.Files.Writer

  A file that is being written.  The writer keeps its own offset, and what is written
  waits until there is too much of it or until it is flushed; then it replaces the bytes
  of the file from that offset on.

  When the writer flushes by itself makes no difference to what the file holds in the
  end (`flushInto_write`, `flushInto_writeAll`), only to what is there in between and to
  other writers of the same file.
-/

import VariablePrecision.Files.Basic

namespace VariablePrecision

/-- A file that is being written. -/
structure FileWriter where
  location : Location
  /-- The place in the file behind the last byte that was put into it. -/
  offset : Nat := 0
  /-- What is not in the file yet. -/
  waiting : String := ""
  deriving DecidableEq, Repr

namespace FileWriter

/-- The number of bytes that may wait. -/
def capacity : Nat := 8192

/-- Starts a file. -/
def create (path : String) : FileAction FileWriter := do
  return { location := ← Files.create path }

/-- The writer once nothing waits any more. -/
def flushed (w : FileWriter) : FileWriter :=
  { w with offset := w.offset + w.waiting.utf8ByteSize, waiting := "" }

/-- The files once nothing waits any more. -/
def flushInto (w : FileWriter) (files : Files) : Files :=
  if w.waiting.isEmpty then files else files.writeAt w.location w.offset w.waiting.toUTF8

/-- Puts what waits into the file. -/
def flush (w : FileWriter) : StateM Files FileWriter := do
  modify w.flushInto
  return w.flushed

/-- The writer with one more text that waits. -/
def append (w : FileWriter) (text : String) : FileWriter := { w with waiting := w.waiting ++ text }

/-- Writes a text.  What waits makes room if the text does not fit, and a text that fills all the
    room by itself does not wait. -/
def write (w : FileWriter) (text : String) : StateM Files FileWriter := do
  let w ← if w.waiting.utf8ByteSize + text.utf8ByteSize ≤ capacity then pure w else w.flush
  if text.utf8ByteSize < capacity then return w.append text else (w.append text).flush

/-- Writes texts one after the other. -/
def writeAll (w : FileWriter) (texts : List String) : StateM Files FileWriter :=
  texts.foldlM write w

/-! ## Waiting makes no difference in the end -/

@[simp] theorem flushInto_flushed (w : FileWriter) (files : Files) :
    w.flushed.flushInto files = files := by
  simp [flushInto, flushed]

@[simp] theorem run_flush (w : FileWriter) (files : Files) :
    w.flush.run files = (w.flushed, w.flushInto files) := rfl

/-- A flush between two texts makes no difference in the end. -/
theorem flushInto_append (w : FileWriter) (text : String) (files : Files) :
    (w.flushed.append text).flushInto (w.flushInto files) = (w.append text).flushInto files := by
  by_cases hw : w.waiting = ""
  · simp [flushInto, flushed, append, hw]
  · by_cases ht : text = ""
    · simp [flushInto, flushed, append, hw, ht]
    · have size : w.waiting.utf8ByteSize = w.waiting.toByteArray.size := rfl
      simp only [flushInto, flushed, append, String.isEmpty_iff, String.empty_append,
        String.append_eq_empty_iff, hw, ht, false_and, if_false, size]
      exact files.writeAt_writeAt w.location w.offset w.waiting.toByteArray text.toByteArray

theorem append_append (w : FileWriter) (s t : String) :
    (w.append s).append t = w.append (s ++ t) := by
  simp [append, String.append_assoc]

/-- The files hold the same in the end, however much of what is written waits. -/
theorem flushInto_write (w : FileWriter) (text later : String) (files : Files) :
    (((w.write text).run files).1.append later).flushInto ((w.write text).run files).2 =
      (w.append (text ++ later)).flushInto files := by
  rw [← append_append]
  by_cases fits : w.waiting.utf8ByteSize + text.utf8ByteSize ≤ capacity <;>
    by_cases small : text.utf8ByteSize < capacity <;>
      simp only [write, fits, small, if_true, if_false]
  · rfl
  · exact flushInto_append _ _ _
  · exact (congrArg (flushInto · _) (append_append ..)).trans
      ((flushInto_append ..).trans (congrArg (flushInto · _) (append_append ..).symm))
  · refine (flushInto_append (w.flushed.append text) later _).trans ?_
    exact (congrArg (flushInto · _) (append_append ..)).trans
      ((flushInto_append ..).trans (congrArg (flushInto · _) (append_append ..).symm))

/-- Texts that are written one after the other are in the files in the end. -/
theorem flushInto_writeAll (w : FileWriter) (texts : List String) (later : String)
    (files : Files) :
    (((w.writeAll texts).run files).1.append later).flushInto ((w.writeAll texts).run files).2 =
      (w.append (String.join texts ++ later)).flushInto files := by
  induction texts generalizing w files with
  | nil =>
    rw [String.join_nil, String.empty_append]
    rfl
  | cons text rest ih =>
    refine (ih ((w.write text).run files).1 ((w.write text).run files).2).trans ?_
    rw [flushInto_write, String.join_cons, String.append_assoc]

end FileWriter

end VariablePrecision
