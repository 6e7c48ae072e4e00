/-
  PROGRAMS: what is handed to the interpreter.
-/
import CompositeGraph.Interpreter
import CompositeGraph.Node.Decoder
import CompositeGraph.Snapshot

namespace CompositeGraph

/-- The tokens and the tree of a program. -/
structure Program where
  tokens : List Token := []
  tree : Node

/-- What a run leaves behind. -/
structure Interpretation where
  store : Store
  reports : Array Report

namespace Program

/-- Why a text is no program. -/
inductive Error where
  | unreadable (fault : Fault)
  | notAModule (found : String)

def Error.message : Error → String
  | .unreadable _ => "Malformed program"
  | .notAModule found => "Program tree must be a module, found " ++ found

def decoder : Decoder Program :=
  Decoder.record { tree := default }
    [Decoder.field "tokens" .defaulted (Decoder.list Token.decoder) fun value program =>
        { program with tokens := value },
      Decoder.field "tree" .needed Node.decoder fun value program => { program with tree := value }]

def toJson (program : Program) : Json :=
  .object [("tokens", .list (program.tokens.map Token.toJson)), ("tree", program.tree.toJson)]

def isModule (node : Node) : Bool :=
  match node.form with
  | .module _ => true
  | _ => false

/-- The program of a text. -/
def ofText (text : String) : Except Error Program :=
  match decoder.run text with
  | .error fault => .error (.unreadable fault)
  | .ok program =>
    if isModule program.tree then .ok program else .error (.notAModule program.tree.typeName)

/-- Runs a program on the composites of an earlier run, if there was one. -/
def interpret (program : Program) (store : Store) (preferences : Preferences) :
    Option Interpretation :=
  let machine := { Machine.withStore store preferences with tokens := program.tokens.toArray }
  ((Run.runModule .unbounded program.tree).run machine).toOption.map fun (_, machine) =>
    ⟨machine.store, machine.reports.entries⟩

end Program

end CompositeGraph
