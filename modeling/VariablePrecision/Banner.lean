/-
  VariablePrecision.Banner

  Whether backends announce themselves when they are loaded.
-/

namespace VariablePrecision

/-- Backends announce themselves unless the environment variable `VFC_BACKENDS_SILENT_LOAD`, whose
    value this is, says `true` in capital or small letters. -/
def bannerEnabled (value : Option String) : Bool :=
  value.all fun text => text.map Char.toLower != "true"

end VariablePrecision
