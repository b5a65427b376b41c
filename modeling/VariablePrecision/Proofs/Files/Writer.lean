/-
  VariablePrecision.Proofs.Files.Writer

  What writing does to a writer, to its own file, and to the others.

  A text that is written waits, and what waits is flushed now and then; `writeAll_keeps`
  is the principle that follows.  How a writer goes on does not depend on the files
  (`after`), and it only touches its own.  What that file holds in the end is told by
  `closed`, for which a text that was written is as good as one that waits
  (`closed_writeAll`).
-/

import VariablePrecision.Files.Writer

namespace VariablePrecision

variable {files files' : Files} {l : Location}

theorem Files.content?_put_of_ne {l' : Location} (h : l ≠ l') (content : ByteArray) :
    (files.put l' content).content? l = files.content? l := by
  have hne : (l == l') = false := beq_eq_false_iff_ne.2 h
  unfold content? put
  rw [List.lookup_cons, hne]
  show (files.entries.filter (·.1 ≠ l')).lookup l = _
  induction files.entries with
  | nil => rfl
  | cons entry rest ih =>
    -- an entry that is dropped is not the one that is looked up
    by_cases hdrop : entry.1 = l'
    · have hother : (l == entry.1) = false := by rw [hdrop, hne]
      rw [List.filter_cons_of_neg (by simpa using hdrop), List.lookup_cons, hother]
      exact ih
    · rw [List.filter_cons_of_pos (by simpa using hdrop), List.lookup_cons, List.lookup_cons, ih]

/-! ## Bytes -/

/-- The bytes of the file at a location; where there is no file there are none. -/
def Files.bytesAt (files : Files) (l : Location) : List UInt8 :=
  ((files.content? l).getD .empty).data.toList

/-- Bytes once new ones are put over them from an offset on: what stands before the offset is kept,
    with zeros up to it if there are too few, and so is what stands behind the new bytes.  Putting
    nothing changes nothing. -/
def spliced (old : List UInt8) (offset : Nat) (new : List UInt8) : List UInt8 :=
  if new = [] then old
  else old.take offset ++ List.replicate (offset - old.length) 0 ++ new ++
    old.drop (offset + new.length)

/-- At the end, new bytes are appended. -/
theorem spliced_length (old new : List UInt8) : spliced old old.length new = old ++ new := by
  unfold spliced
  split
  · next hnew => rw [hnew, List.append_nil]
  · simp

namespace FileWriter

/-! ## The writer -/

theorem run_write_fst (w : FileWriter) (text : String) (files files' : Files) :
    ((w.write text).run files).1 = ((w.write text).run files').1 := by
  -- what is flushed and what waits is decided by sizes alone
  have hwriter : ∃ v, ∀ files, ((w.write text).run files).1 = v := by
    by_cases fits : w.waiting.utf8ByteSize + text.utf8ByteSize ≤ capacity <;>
      by_cases small : text.utf8ByteSize < capacity <;>
        simp only [write, fits, small, if_true, if_false]
    · exact ⟨w.append text, fun _ => rfl⟩
    · exact ⟨(w.append text).flushed, fun _ => rfl⟩
    · exact ⟨w.flushed.append text, fun _ => rfl⟩
    · exact ⟨(w.flushed.append text).flushed, fun _ => rfl⟩
  obtain ⟨v, hv⟩ := hwriter
  rw [hv, hv]

theorem run_writeAll_fst (w : FileWriter) (texts : List String) (files files' : Files) :
    ((w.writeAll texts).run files).1 = ((w.writeAll texts).run files').1 := by
  induction texts generalizing w files files' with
  | nil => rfl
  | cons text rest ih =>
    show ((writeAll ((w.write text).run files).1 rest).run _).1 =
      ((writeAll ((w.write text).run files').1 rest).run _).1
    rw [run_write_fst w text files files']
    exact ih _ _ _

/-- The writer after some texts, whatever the files are. -/
def after (w : FileWriter) (texts : List String) : FileWriter := ((w.writeAll texts).run {}).1

theorem run_writeAll_eq_after (w : FileWriter) (texts : List String) (files : Files) :
    ((w.writeAll texts).run files).1 = w.after texts := run_writeAll_fst w texts files {}

theorem after_append (w : FileWriter) (texts later : List String) :
    w.after (texts ++ later) = (w.after texts).after later := by
  have hsplit : w.writeAll (texts ++ later) = w.writeAll texts >>= (·.writeAll later) :=
    List.foldlM_append
  rw [after, hsplit]
  exact run_writeAll_fst _ later _ {}

/-! ## What writing keeps -/

section Keeps

variable {P : FileWriter → Files → Prop}
  (happend : ∀ v files text, P v files → P (v.append text) files)
  (hflush : ∀ v files, P v files → P v.flushed (v.flushInto files))

include happend hflush

theorem write_keeps {w : FileWriter} (h : P w files) (text : String) :
    P ((w.write text).run files).1 ((w.write text).run files).2 := by
  by_cases fits : w.waiting.utf8ByteSize + text.utf8ByteSize ≤ capacity <;>
    by_cases small : text.utf8ByteSize < capacity <;>
      simp only [write, fits, small, if_true, if_false]
  · exact happend _ _ _ h
  · exact hflush _ _ (happend _ _ _ h)
  · exact happend _ _ _ (hflush _ _ h)
  · exact hflush _ _ (happend _ _ _ (hflush _ _ h))

/-- Whatever survives a text that begins to wait, and a flush, survives writing. -/
theorem writeAll_keeps {w : FileWriter} (h : P w files) (texts : List String) :
    P ((w.writeAll texts).run files).1 ((w.writeAll texts).run files).2 := by
  induction texts generalizing w files with
  | nil => exact h
  | cons text rest ih => exact ih (write_keeps happend hflush h text)

end Keeps

variable {w : FileWriter}

theorem content?_flushInto_of_ne (h : l ≠ w.location) :
    (w.flushInto files).content? l = files.content? l := by
  unfold flushInto
  split
  · rfl
  · exact Files.content?_put_of_ne h _

@[simp] theorem location_after (w : FileWriter) (texts : List String) :
    (w.after texts).location = w.location := by
  refine writeAll_keeps (P := fun v _ => v.location = w.location) ?_ ?_ rfl texts
  · exact fun _ _ _ h => h
  · exact fun _ _ h => h

/-- Other files stay as they are. -/
theorem content?_writeAll_of_ne (h : l ≠ w.location) (texts : List String) :
    ((w.writeAll texts).run files).2.content? l = files.content? l := by
  -- only a flush touches files, and only the one at the location of the writer
  refine (writeAll_keeps (P := fun v mid => v.location = w.location ∧
    mid.content? l = files.content? l) ?_ ?_ ⟨rfl, rfl⟩ texts).2
  · exact fun _ _ _ h => h
  · rintro v mid ⟨hlocation, hcontent⟩
    exact ⟨hlocation, (content?_flushInto_of_ne (by rwa [hlocation])).trans hcontent⟩

/-! ## The file in the end -/

@[simp] theorem append_empty (w : FileWriter) : w.append "" = w := by
  rw [append, String.append_empty]

/-- What the file of the writer holds once the writer is gone. -/
def closed (w : FileWriter) (files : Files) : Option ByteArray :=
  (w.flushInto files).content? w.location

/-- Only the file itself matters for that. -/
theorem closed_congr (h : files'.content? w.location = files.content? w.location) :
    w.closed files' = w.closed files := by
  unfold closed flushInto
  split
  · exact h
  · -- the bytes in front of the offset are read from the file
    rw [Files.writeAt, Files.writeAt, Files.content?_put, Files.content?_put, h]

/-- Texts that were written are in the file in the end, and what is written later is behind
    them. -/
theorem closed_writeAll (w : FileWriter) (texts : List String) (files : Files) (later : String) :
    ((w.after texts).append later).closed ((w.writeAll texts).run files).2 =
      (w.append (String.join texts ++ later)).closed files := by
  have hflush := flushInto_writeAll w texts later files
  rw [run_writeAll_eq_after] at hflush
  have hlocation : ((w.after texts).append later).location = w.location := location_after w texts
  rw [closed, hflush, hlocation]
  rfl

end FileWriter

end VariablePrecision
