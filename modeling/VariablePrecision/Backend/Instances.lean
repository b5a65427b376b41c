/-
  VariablePrecision.Backend.Instances

  The hooks of the two backends of the library.  The emulator answers operations and
  both ends of calls; the analysis answers operations with their native results.
-/

import VariablePrecision.Analysis.Basic
import VariablePrecision.Backend.Interface
import VariablePrecision.Emulator.Call

namespace VariablePrecision

namespace Emulator

/-- The hook of an operation: the emulated result. -/
def binaryHook (e : Emulator) (f : Format) (op : Operation) : BinaryHook f Emulator :=
  fun x y _ site => (e.binaryOp op x y site).map fun z => (z, e)

/-- The hook of an end of a call: the rounded arguments, unless the rounding stops early. -/
def callHook (e : Emulator) (crossing : Crossing) : CallHook Emulator :=
  fun stack site arguments => do
    let (outcome, e') ← e.cross crossing stack site arguments
    match outcome.fault with
    | some err => throw err
    | none => return (outcome.arguments, e')

instance : Instrument Emulator where
  interface e :=
    { binary := fun f op => some (e.binaryHook f op)
      call := fun crossing => some (e.callHook crossing)
      finalize := some e.finalize }
  close := close

end Emulator

namespace Analysis

/-- The hook of an operation: the native result, which is recorded. -/
def binaryHook (a : Analysis) (f : Format) (op : Operation) : BinaryHook f Analysis :=
  fun x y _ site =>
    let z := op.apply x y
    (a.record op x y z site).map fun a' => (z, a')

instance : Instrument Analysis where
  interface a :=
    { binary := fun f op => some (a.binaryHook f op)
      finalize := some a.finalize }
  close := close

end Analysis

end VariablePrecision
