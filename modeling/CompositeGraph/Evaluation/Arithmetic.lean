/-
  ARITHMETIC: the built-in meaning of operators.

  Integers have 64 bits, and what does not fit is an error.  As soon as one operand is a float, both
  are.  A `+` with a string joins texts.
-/
import CompositeGraph.Composite.Basic
import CompositeGraph.Decimal.Literal
import CompositeGraph.Report

namespace CompositeGraph.Arithmetic

/-- Why an operator has no result. -/
inductive Error where
  | divisionByZero
  | overflow
  | operands
  | unknown
  deriving DecidableEq, Repr

/-- How an error is reported for an operator. -/
def Error.report (symbol : String) : Error → Level × String
  | .divisionByZero => (.error, "Division by zero.")
  | .overflow => (.error, "Integer overflow.")
  | .operands => (.warning, "Operator \"" ++ symbol ++ "\" can't be applied to these operands.")
  | .unknown => (.warning, "Operator \"" ++ symbol ++ "\" wasn't found.")

/-- A value that can be counted with. -/
inductive Number where
  | integer (value : Int64)
  | float (value : Float)

namespace Number

def of? : Option Value → Option Number
  | some (.integer value) => some (.integer value)
  | some (.float value) => some (.float value)
  | _ => none

def toFloat : Number → Float
  | .integer value => value.toFloat
  | .float value => value

end Number

/-- An integer result, if it fits. -/
def fitting (value : Int) : Except Error Value :=
  match Word.ofInt? value with
  | some word => .ok (.integer word)
  | none => .error .overflow

/-- Integer arithmetic; division goes towards zero. -/
def onIntegers (symbol : String) (a b : Int) : Except Error Value :=
  match symbol with
  | "+" => fitting (a + b)
  | "-" => fitting (a - b)
  | "*" => fitting (a * b)
  | symbol =>
    if b = 0 then .error .divisionByZero
    else if symbol == "/" then fitting (a.tdiv b)
    else if a = Word.least ∧ b = -1 then .error .overflow
    else fitting (a.tmod b)

/-- Float arithmetic. -/
def onFloats (symbol : String) (a b : Float) : Value :=
  match symbol with
  | "+" => .float (a + b)
  | "-" => .float (a - b)
  | "*" => .float (a * b)
  | "/" => .float (a / b)
  | _ => .float (Decimal.remainder a b)

/-- A comparison by an order that has both `<` and `≤`. -/
def ordered (symbol : String) (less lessEqual greater greaterEqual : Bool) : Bool :=
  match symbol with
  | "<" => less
  | "<=" => lessEqual
  | ">" => greater
  | _ => greaterEqual

/-- Compares strings by their characters, integers as such, and other numbers as floats; with a
    float that is not a number nothing holds. -/
def compare (symbol : String) (a b : Option Value) : Except Error Bool :=
  match a, b with
  | some (.string a), some (.string b) => .ok (ordered symbol (a < b) (a ≤ b) (b < a) (b ≤ a))
  | a, b =>
    match Number.of? a, Number.of? b with
    | some (.integer a), some (.integer b) =>
      .ok (ordered symbol (a.toInt < b.toInt) (a.toInt ≤ b.toInt) (b.toInt < a.toInt)
        (b.toInt ≤ a.toInt))
    | some a, some b =>
      let a := a.toFloat
      let b := b.toFloat
      .ok (ordered symbol (a < b) (a ≤ b) (b < a) (b ≤ a))
    | _, _ => .error .operands

def isString : Option Value → Bool
  | some (.string _) => true
  | _ => false

/-- The built-in meaning of an operator between two operands. -/
def binary (symbol : String) (a b : Option Value) : Except Error Value :=
  match symbol with
  | "==" => .ok (.boolean (Value.sameOption a b))
  | "!=" => .ok (.boolean (!Value.sameOption a b))
  | "<" | "<=" | ">" | ">=" => .boolean <$> compare symbol a b
  | "+" | "-" | "*" | "/" | "%" =>
    if symbol == "+" && (isString a || isString b) then
      .ok (.string (Value.displayOption a ++ Value.displayOption b))
    else
      match Number.of? a, Number.of? b with
      | some (.integer a), some (.integer b) => onIntegers symbol a.toInt b.toInt
      | some a, some b => .ok (onFloats symbol a.toFloat b.toFloat)
      | _, _ => .error .operands
  | _ => .error .unknown

/-- A value one up or down. -/
def step (value : Option Value) (delta : Int) : Except Error Value :=
  match value with
  | some (.integer value) => fitting (value.toInt + delta)
  | some (.float value) => .ok (.float (value + (Int64.ofInt delta).toFloat))
  | _ => .error .operands

/-- The precedence and associativity of an operator that was not declared. -/
def precedence (symbol : String) : Int × Associativity :=
  match symbol with
  | "=" | "+=" | "-=" | "*=" | "/=" | "%=" => (8, .right)
  | "||" => (16, .left)
  | "&&" => (24, .left)
  | "==" | "!=" | "<" | "<=" | ">" | ">=" => (32, .none)
  | "+" | "-" => (64, .left)
  | "*" | "/" | "%" => (96, .left)
  | _ => (128, .left)

end CompositeGraph.Arithmetic
