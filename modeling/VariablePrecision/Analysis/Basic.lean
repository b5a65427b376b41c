/-
  VariablePrecision.Analysis.Basic

  The analysis: statistics of the three phenomena for every operation site of a
  registry, in its order, and the report of them.  It watches operations and changes
  no result.
-/

import VariablePrecision.Analysis.Accumulator
import VariablePrecision.Analysis.Phenomena
import VariablePrecision.CommandLine.Parse
import VariablePrecision.Files.Writer
import VariablePrecision.Json.Document
import VariablePrecision.Registry.Basic

namespace VariablePrecision

/-- The statistics of a site. -/
structure Analysis.Statistics where
  cancellation : Analysis.Accumulator := {}
  absorption : Analysis.Accumulator := {}
  roundoff : Analysis.Accumulator := {}
  deriving DecidableEq, Repr

/-- An operation site that is watched. -/
structure Analysis.Site where
  id : String
  kind : OperationKind
  statistics : Analysis.Statistics := {}
  deriving DecidableEq, Repr

/-- A backend that analyses operations. -/
structure Analysis where
  sites : List Analysis.Site
  /-- The file for the report; without one, the report is for the caller to print. -/
  output : Option FileWriter
  deriving DecidableEq, Repr

namespace Analysis

/-! ## Recording -/

/-- The operand is below zero. -/
def isBelowZero {f : Format} (y : Binary f) : Bool := y.negative && !y.isZero

/-- The operation adds magnitudes when its first operand is positive. -/
def adds {f : Format} (op : Operation) (y : Binary f) : Bool :=
  op = .add || (op = .sub && isBelowZero y)

/-- The operation subtracts magnitudes when its first operand is positive. -/
def subtracts {f : Format} (op : Operation) (y : Binary f) : Bool :=
  op = .sub || (op = .add && isBelowZero y)

/-- The statistics of a site with one more operation.  An operation with an infinity or a
    not-a-number among its values says nothing. -/
def Statistics.record {f : Format} (s : Statistics) (op : Operation) (x y res : Binary f) :
    Statistics :=
  if x.isFinite && y.isFinite && res.isFinite then
    { absorption := s.absorption.record? (if adds op y then Analysis.absorption x y res else none)
      cancellation :=
        s.cancellation.record? (if subtracts op y then Analysis.cancellation x y res else none)
      roundoff := s.roundoff.record? (Analysis.roundoff op x y res) }
  else s

/-- The watched site of the given name. -/
def site? (a : Analysis) (site : Option String) : Option Site :=
  site.bind fun id => a.sites.find? (·.id == id)

/-- The statistics of a site. -/
def statistics? (a : Analysis) (site : Option String) : Option Statistics :=
  (a.site? site).map Site.statistics

/-- The analysis with the statistics of a site changed. -/
def update (a : Analysis) (id : String) (change : Statistics → Statistics) : Analysis :=
  { a with sites := a.sites.map fun s =>
      if s.id = id then { s with statistics := change s.statistics } else s }

/-- Records an operation at a site that must be watched. -/
def record {f : Format} (a : Analysis) (op : Operation) (x y res : Binary f)
    (site : Option String) : Except Error Analysis :=
  match a.site? site with
  | some s => .ok (a.update s.id (·.record op x y res))
  | none => .error (.unknownSite site)

/-! ## Reporting -/

open Json (Document)

/-- An accumulator in the report. -/
def accumulatorDocument (acc : Accumulator) : Document :=
  .object [("min", .natural acc.min), ("max", .natural acc.max), ("sum", .natural acc.sum),
    ("count", .natural acc.count), ("mean", (acc.mean.map Document.real).getD .null)]

/-- A site in the report. -/
def siteDocument (s : Site) : Document :=
  .object [("id", .text s.id), ("op", .text s.kind.name),
    ("cancellation", accumulatorDocument s.statistics.cancellation),
    ("absorption", accumulatorDocument s.statistics.absorption),
    ("roundoff", accumulatorDocument s.statistics.roundoff)]

/-- The text of the report. -/
def report (a : Analysis) : String :=
  (Document.object [("sites", .list (a.sites.map siteDocument))]).render

/-! ## Start and end -/

/-- The settings of the analysis: where the report goes. -/
structure Options where
  outputFile : Option String := none
  deriving DecidableEq, Repr

/-- All options of the analysis. -/
def Options.table : List (CommandLine.Entry Options) :=
  [CommandLine.pathEntry "output-file" (fun path o => { o with outputFile := some path })
    (some 'o')]

/-- The options that the tokens give; the first token is the name of the backend. -/
def Options.parse (tokens : List String) : Except Error Options :=
  match CommandLine.parse table {} tokens with
  | .ok o => .ok o
  | .error fault => .error fault.toError

/-- The operation sites of a registry, in its order. -/
def sitesOf (reg : Registry) : List Site :=
  reg.records.filterMap fun r => r.operation?.map fun info => { id := r.id, kind := info.kind }

/-- The analysis of the operation sites of a registry. -/
def ofRegistry (reg : Registry) (options : Options) : FileAction Analysis := do
  let output ←
    match options.outputFile with
    | some path => some <$> FileWriter.create path
    | none => pure none
  return { sites := sitesOf reg, output }

/-- The analysis whose options are given as tokens.  A registry is needed before anything else. -/
def init (tokens : List String) (registry : Option Registry) : FileAction Analysis :=
  match registry with
  | none => throw .missingRegistry
  | some reg =>
      match Options.parse tokens with
      | .ok options => ofRegistry reg options
      | .error e => throw e

/-- Writes the report and a line end into its file. -/
def finalize (a : Analysis) : FileAction Analysis := do
  match a.output with
  | some w =>
      let w ← w.write (a.report ++ "\n")
      return { a with output := some (← w.flush) }
  | none => return a

/-- The files once the analysis is gone. -/
def close (a : Analysis) (files : Files) : Files :=
  match a.output with
  | some w => w.flushInto files
  | none => files

end Analysis

end VariablePrecision
