/-
  WORDS: integers of 64 bits with sign.
-/

namespace CompositeGraph.Word

/-- The smallest word. -/
def least : Int := -9223372036854775808

/-- The largest word. -/
def greatest : Int := 9223372036854775807

/-- Whether an integer is a word. -/
def fits (value : Int) : Bool := least ≤ value && value ≤ greatest

/-- The word of an integer, if it is one. -/
def ofInt? (value : Int) : Option Int64 := if fits value then some (Int64.ofInt value) else none

end CompositeGraph.Word
