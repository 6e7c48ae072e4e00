/-
  PREFERENCES of a run.
-/
import CompositeGraph.Report

namespace CompositeGraph

/-- What can be set for a run. -/
structure Preferences where
  /-- How many function calls may be nested. -/
  callStackSize : Nat := 128
  /-- Diagnostics above this level are not recorded. -/
  allowedReportLevel : Level := .error
  metaprogrammingLevel : Nat := 3
  arbitraryPrecisionArithmetics : Bool := true
  /-- Whether an overload must also accept the types of its arguments. -/
  structuralTypeChecking : Bool := false
  deriving DecidableEq, Repr, Inhabited

namespace Preferences

def toJson (preferences : Preferences) : Json :=
  .object [("callStackSize", .ofNat preferences.callStackSize),
    ("allowedReportLevel", preferences.allowedReportLevel.toJson),
    ("metaprogrammingLevel", .ofNat preferences.metaprogrammingLevel),
    ("arbitaryPrecisionArithmetics", .bool preferences.arbitraryPrecisionArithmetics),
    ("structuralTypeChecking", .bool preferences.structuralTypeChecking)]

/-- Two spellings of one field, which counts as given twice if both are. -/
def precisionField : Decoder.Field Preferences :=
  { Decoder.field "arbitaryPrecisionArithmetics" .defaulted Decoder.bool fun value preferences =>
      { preferences with arbitraryPrecisionArithmetics := value } with
    names := ["arbitaryPrecisionArithmetics", "arbitraryPrecisionArithmetics"] }

def decoder : Decoder Preferences :=
  Decoder.record {}
    [Decoder.field "callStackSize" .defaulted (Decoder.natural 64) fun value preferences =>
        { preferences with callStackSize := value },
      Decoder.field "allowedReportLevel" .defaulted Level.decoder fun value preferences =>
        { preferences with allowedReportLevel := value },
      Decoder.field "metaprogrammingLevel" .defaulted (Decoder.natural 32) fun value preferences =>
        { preferences with metaprogrammingLevel := value },
      precisionField,
      Decoder.field "structuralTypeChecking" .defaulted Decoder.bool fun value preferences =>
        { preferences with structuralTypeChecking := value }]

end Preferences

end CompositeGraph
