import MiniJava.Main
import MiniJava.Proofs.Sequencing
import MiniJava.Proofs.Tree.Parts
import MiniJava.Proofs.Typing.Rules
import MiniJava.Proofs.Table
import MiniJava.Proofs.Typing.Checker
import MiniJava.Proofs.Typing.Programs
import MiniJava.Proofs.ClassTable.Declarations
import MiniJava.Proofs.ClassTable.Members
import MiniJava.Proofs.ClassTable.Nearest
import MiniJava.Proofs.Typing.Elaborated
import MiniJava.Proofs.Assembly.Labels
import MiniJava.Proofs.Assembly.Emission
import MiniJava.Proofs.Assembly.Descriptors
import MiniJava.Proofs.Assembly.Lookup
import MiniJava.Proofs.Assembly.Gathering
import MiniJava.Proofs.Assembly.Invocations
import MiniJava.Proofs.Assembly.StackTypes
import MiniJava.Proofs.Assembly.Verified
import MiniJava.Proofs.CUnit.Total
import MiniJava.Proofs.CUnit.Lowering
import MiniJava.Proofs.CUnit.Temporaries
import MiniJava.Proofs.CUnit.Shapes
import MiniJava.Proofs.CUnit.Objects
import MiniJava.Proofs.Inheritance.Views
import MiniJava.Proofs.Inheritance.Layouts
import MiniJava.Proofs.Inheritance.Accesses
import MiniJava.Proofs.Inheritance.Cells
import MiniJava.Proofs.Inheritance.Dispatch
import MiniJava.Proofs.Grammar.Reading
import MiniJava.Proofs.Grammar.Expressions
import MiniJava.Proofs.Grammar.Programs
import MiniJava.Proofs.Grammar.Spelling
import MiniJava.Proofs.Execution.Host
import MiniJava.Proofs.Execution.Source
import MiniJava.Proofs.Execution.Lazy
import MiniJava.Proofs.Execution.Careful
import MiniJava.Proofs.Execution.Machine
import MiniJava.Proofs.Execution.Runs
import MiniJava.Proofs.Execution.Expressions
import MiniJava.Proofs.Execution.Statements
import MiniJava.Proofs.Execution.Programs
import MiniJava.Proofs.Native.Meaning
import MiniJava.Proofs.Native.Expressions
import MiniJava.Proofs.Native.Statements
import MiniJava.Proofs.Native.Programs
import MiniJava.Proofs.Native.Agreement
import MiniJava.Proofs.Native.Typing
import MiniJava.Proofs.Native.Preservation
import MiniJava.Proofs.Source.Chars
import MiniJava.Proofs.Token.Lexemes
import MiniJava.Proofs.Token.Printing
import MiniJava.Proofs.CUnit.Symbols
import MiniJava.Proofs.Grammar.Names
import MiniJava.Proofs.CUnit.Declarators
import MiniJava.Proofs.CUnit.Scopes
import MiniJava.Proofs.CUnit.Reserved
import MiniJava.Proofs.CText.Expressions
import MiniJava.Proofs.CText.Statements
import MiniJava.Proofs.CText.Pieces
import MiniJava.Proofs.CText.Spacing
import MiniJava.Proofs.CText.Trees
import MiniJava.Proofs.CText.Lowered
import MiniJava.Proofs.CText.Readback
import MiniJava.Proofs.Source.Positions
import MiniJava.Proofs.Token.Segments
import MiniJava.Proofs.Token.Tiling
import MiniJava.Proofs.Token.Recovery
import MiniJava.Proofs.Typing.Marks
import MiniJava.Proofs.ClassTable.WellDeclared
import MiniJava.Proofs.ClassOrder.Elaboration
import MiniJava.Proofs.Assembly.Renumbering
import MiniJava.Proofs.ClassOrder.Code
import MiniJava.Proofs.Inheritance.Tables
import MiniJava.Proofs.CUnit.Collector
import MiniJava.Proofs.Assignment.Ways
import MiniJava.Proofs.Assignment.Exposure
import MiniJava.Proofs.Assignment.Unset
import MiniJava.Proofs.Command.Files
import MiniJava.Proofs.Command.Siblings
import MiniJava.Proofs.Command.Delivery
import MiniJava.Proofs.ClassTable.Walks
import MiniJava.Proofs.ClassTable.Contents
import MiniJava.Proofs.Failures
import MiniJava.Proofs.Assembly.Numbering
import MiniJava.Proofs.Tree.Spans
import MiniJava.Proofs.Grammar.Places
import MiniJava.Proofs.Grammar.Refusals
import MiniJava.Proofs.Typing.Errors
import MiniJava.Proofs.Source.Places
import MiniJava.Proofs.Token.Places
import MiniJava.Proofs.Source.Excerpts
import MiniJava.Proofs.Reports
import MiniJava.Proofs.ClassTable.Cycles
import MiniJava.Proofs.ClassTable.Bounds
import MiniJava.Proofs.ClassTable.Lineages
import MiniJava.Proofs.Height.Limit
import MiniJava.Proofs.Assembly.SlotUses
import MiniJava.Proofs.Native.CallTemps
import MiniJava.Proofs.Assembly.Lines
import MiniJava.Proofs.Assembly.Readback
import MiniJava.Proofs.Source.Grid
import MiniJava.Proofs.Token.Maximal
import MiniJava.Proofs.Token.Numerals
import MiniJava.Proofs.Tree.Nesting
import MiniJava.Proofs.Grammar.Nesting
import MiniJava.Proofs.Assembly.LabelChecks
import MiniJava.Proofs.ClassTable.Calls
import MiniJava.Proofs.Command.Names
import MiniJava.Proofs.Command.Sources
import MiniJava.Proofs.Token.Machine
import MiniJava.Proofs.Grammar.Calls
import MiniJava.Proofs.Progress
