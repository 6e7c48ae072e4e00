/-
  EVALUATION: the value of a node, by its form.
-/
import CompositeGraph.Evaluation.Declarations
import CompositeGraph.Evaluation.Operators
import CompositeGraph.Evaluation.Statements

namespace CompositeGraph.Run

variable (rules : Rules)

/-- The value of a node in a scope.  Operators, signatures and types are read by the nodes around
    them and have no value of their own. -/
def evalNow (node : Node) (scope : Handle) : Flow (Option Value) :=
  match node.form with
  | .module statements => executeStatements rules scope statements
  | .body statements => executeStatements rules scope statements
  | .identifier name => (identifier node name scope : Run (Option Value))
  | .literal sort literal => return literal.value sort
  | .nilLiteral => return none
  | .stringLiteral segments => return some (.string (← stringSegments rules scope segments))
  | .stringSegment text => return some (.string text)
  | .stringExpression value => evalChild rules value scope
  | .arrayLiteral values => arrayLiteral rules node values scope
  | .dictionaryLiteral entries => dictionaryLiteral rules node entries scope
  | .entry _ value => evalChild rules value scope
  | .parenthesized value => evalChild rules value scope
  | .sequence values => sequence rules node values scope
  | .prefixed operator operand => prefixed rules node operator operand scope
  | .postfixed operator operand => postfixed rules node operator operand scope
  | .call _ _ _ _ => absorbNilUnwrap rules (rules.evalLink node scope)
  | .argument _ value => evalChild rules value scope
  | .chain _ _ => absorbNilUnwrap rules (rules.evalLink node scope)
  | .subscript _ _ _ _ => absorbNilUnwrap rules (rules.evalLink node scope)
  | .inoutExpression value => inoutExpression rules node value scope
  | .nillableExpression _ => absorbNilUnwrap rules (rules.evalLink node scope)
  | .tryExpression nillable value => tryExpression rules nillable value scope
  | .deleteExpression value => deleteExpression rules node value scope
  | .typeExpression type => return some (.type (← (typeOf scope type : Run TypeTree)))
  | .functionExpression parts => (functionExpression rules parts scope : Run (Option Value))
  | .compositeExpression kind parts => compositeDeclaration rules kind parts scope true
  | .variableDeclaration modifiers declarators =>
      variableDeclaration rules modifiers declarators scope
  | .functionDeclaration parts => functionDeclaration rules parts scope
  | .initializerDeclaration modifiers nillable signature body =>
    (initializerDeclaration rules modifiers nillable signature body scope : Run (Option Value))
  | .deinitializerDeclaration body =>
      (deinitializerDeclaration rules body scope : Run (Option Value))
  | .compositeDeclaration kind parts => compositeDeclaration rules kind parts scope false
  | .operatorDeclaration modifiers operator body =>
    (operatorDeclaration modifiers operator body scope : Run (Option Value))
  | .importDeclaration value => importDeclaration rules node value scope
  | .ifStatement condition consequence alternative =>
    ifStatement rules condition consequence alternative scope
  | .whileStatement condition body => whileStatement rules condition body scope
  | .returnStatement value => transfer rules value .return scope
  | .throwStatement value => transfer rules value .throw scope
  | .breakStatement _ => transfer rules none .break scope
  | .continueStatement _ => transfer rules none .continue scope
  | _ => return none

end CompositeGraph.Run
