/-
  PRECEDENCE: the tree of a sequence of operands and operators.

  The sequence alternates operands and operators that stand between them.  `climb` takes an operand
  and then as many operators as bind at least as tightly as asked for; the right side of each is
  climbed with its own precedence, or one more unless the operator associates to the right.

    1. TREES.     `Operation`, and `Operation.inOrder`, the sequence it was made of.
    2. CLIMBING.  `climb`; it fails with an operator that does not associate
but is chained. -/
import CompositeGraph.Composite.Basic
import CompositeGraph.Word

namespace CompositeGraph

/-- Operands joined by operators. -/
inductive Operation where
  | operand (node : Node)
  | join (symbol : String) (left right : Operation)

/-- The symbol of a node that stands between operands. -/
def Node.between? (node : Node) : Option String :=
  match node.form with
  | .operator .between symbol => some symbol
  | _ => none

namespace Operation

/-- An operand or an operator of a sequence. -/
inductive Item where
  | operand (node : Node)
  | operator (symbol : String)

/-- Operands and operators from left to right. -/
def inOrder : Operation → List Item
  | .operand node => [.operand node]
  | .join symbol left right => left.inOrder ++ [.operator symbol] ++ right.inOrder

/-- What the right side of an operator has to bind at least.  Precedences are words. -/
def rightMinimum (precedence : Int) : Associativity → Int
  | .right => precedence
  | _ => min (precedence + 1) Word.greatest

variable (table : String → Int × Associativity)

mutual

/-- Takes an operand and what binds to it at least as tightly as `minimum`, and gives the rest. -/
def climb : (fuel : Nat) → (minimum : Int) → List Node →
    Except String (Option Operation × List Node)
  | 0, _, rest => .ok (none, rest)
  | _ + 1, _, [] => .ok (none, [])
  | fuel + 1, minimum, node :: rest => do
    let (operation, rest) ← extend fuel minimum (.operand node) none rest
    return (some operation, rest)

/-- Extends a left side by operators; `last` is the precedence and symbol of the operator before, if
    that does not associate. -/
def extend : (fuel : Nat) → (minimum : Int) → (left : Operation) → (last : Option (Int × String)) →
    List Node → Except String (Operation × List Node)
  | 0, _, left, _, rest => .ok (left, rest)
  | _ + 1, _, left, _, [] => .ok (left, [])
  | fuel + 1, minimum, left, last, node :: rest =>
    match node.between? with
    | none => .ok (left, node :: rest)
    | some symbol =>
      let (precedence, associativity) := table symbol
      if precedence < minimum then .ok (left, node :: rest)
      else
        match last.filter fun (level, _) => level == precedence with
        | some (_, previous) => .error previous
        | none => do
          let (right, rest) ← climb fuel (rightMinimum precedence associativity) rest
          match right with
          | none => return (left, rest)
          | some right =>
            let last := if associativity = .none then some (precedence, symbol) else none
            extend fuel minimum (.join symbol left right) last rest

end

/-- The tree of a sequence; none without an operand.  Each step takes a node, so the length of the
    sequence bounds their number. -/
def ofSequence (values : List Node) : Except String (Option Operation) :=
  (·.1) <$> climb table (values.length + 2) Word.least values

end Operation

end CompositeGraph
