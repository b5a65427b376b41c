/-
  VariablePrecision.Proofs.Emulator.LogText

  The text of the log, and the bytes of its file.

  A line names the end of the call, the site, the position of the number and its value
  before and after (`LogLine.ShownAs`), and every line is written so (`shownAs_render`).
  Lines that an emulator records are in the file of its log once that is closed, behind
  what was written before and in front of what is written later (`logs_record`).
-/

import VariablePrecision.Proofs.Decimal.Numeral
import VariablePrecision.Proofs.Emulator.Log

namespace VariablePrecision

/-! ## Lines -/

namespace LogLine

/-- What the log shows of a number: a numeral of which it is the correct rounding, or the text of a
    special value. -/
inductive NumberShownAs {f : Format} (x : Binary f) : String → Prop
  | finite {cs : List Char} (hx : x.isFinite) (h : Decimal.NumeralOf x cs) :
      NumberShownAs x (.ofList cs)
  | infinite (hx : x.isInfinite) : NumberShownAs x (if x.negative then "-inf" else "inf")
  | nan (hx : x.isNaN) : NumberShownAs x "NaN"

/-- The line of a rounding, around the texts of the number before and after. -/
def layout (l : LogLine) (before after : String) : String :=
  .ofList (List.replicate l.depth '\t') ++
    (match l.crossing with | .enter => "enter" | .exit => "exit") ++ " " ++
    l.site.getD "(null)" ++ " arg " ++ toString l.index ++
    (match l.element with | some k => "[" ++ toString k ++ "]" | none => "") ++ ": " ++
    before ++ " -> " ++ after ++ "\n"

/-- What the log shows of the rounding of a number. -/
inductive ShownAs (l : LogLine) : String → Prop
  | mk {before after : String} (hbefore : NumberShownAs l.before before)
      (hafter : NumberShownAs l.after after) : ShownAs l (l.layout before after)

end LogLine

/-! ## The file -/

namespace Emulator

/-- From one moment to another, an emulator writes lines into its log and does nothing else. -/
structure Logs (e : Emulator) (files : Files) (lines : List LogLine) (e' : Emulator)
    (files' : Files) : Prop where
  silent : e.log = none → e' = e ∧ files' = files
  /-- Once the log is closed, its file holds the lines behind what was written before, and in front
      of whatever is written later.  Other files stay as they are. -/
  written : ∀ w, e.log = some w → ∃ w' shown,
    e' = { e with log := some w' } ∧ w'.location = w.location ∧
    List.Forall₂ LogLine.ShownAs lines shown ∧
    (∀ later, let done := (w'.writeAll later).run files'
      (done.1.flushInto done.2).bytesAt w.location =
        spliced (files.bytesAt w.location) w.offset
          (w.waiting ++ (String.join shown ++ String.join later)).toUTF8.data.toList) ∧
    ∀ l, l ≠ w.location → files'.content? l = files.content? l

/-- If nobody else writes to the log, the lines are at its end once it is closed. -/
theorem Logs.bytesAt_close {e e' : Emulator} {files files' : Files} {lines : List LogLine}
    (h : e.Logs files lines e' files') {w : FileWriter} (hlog : e.log = some w)
    (hoffset : w.offset = (files.bytesAt w.location).length) :
    ∃ shown, List.Forall₂ LogLine.ShownAs lines shown ∧
      (e'.close files').bytesAt w.location =
        files.bytesAt w.location ++ (w.waiting ++ String.join shown).toUTF8.data.toList := by
  obtain ⟨w', shown, rfl, -, hshown, hbytes, -⟩ := h.written w hlog
  have hclosed := hbytes []
  rw [String.join_nil, String.append_empty, hoffset, spliced_length] at hclosed
  exact ⟨shown, hshown, hclosed⟩

end Emulator

end VariablePrecision
