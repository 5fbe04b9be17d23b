import ChocoCompiler.Text.Span
import ChocoCompiler.Text.Location
import ChocoCompiler.Text.Unprintable
import ChocoCompiler.Text.Quoted
import ChocoCompiler.NameTable
import ChocoCompiler.Token
import ChocoCompiler.Token.Lexeme
import ChocoCompiler.Token.Lexer
import ChocoCompiler.Syntax
import ChocoCompiler.Grammar.Cursor
import ChocoCompiler.Grammar.Expr
import ChocoCompiler.Grammar.Program
import ChocoCompiler.ValueType
import ChocoCompiler.Syntax.Walk
import ChocoCompiler.Syntax.Outline
import ChocoCompiler.Scope
import ChocoCompiler.Typing
import ChocoCompiler.Ir
import ChocoCompiler.Ir.Text
import ChocoCompiler.Ir.Builder
import ChocoCompiler.ListShape
import ChocoCompiler.Lowering.Library
import ChocoCompiler.Lowering.State
import ChocoCompiler.Lowering.Expr
import ChocoCompiler.Lowering.Stmt
import ChocoCompiler.Lowering.Program
import ChocoCompiler.Diagnostic
import ChocoCompiler.Compile
import ChocoCompiler.CommandLine.Settings
import ChocoCompiler.CommandLine.Run
import ChocoCompiler.Main
import ChocoCompiler.Proofs.DottedNames
import ChocoCompiler.Proofs.IrTyping
import ChocoCompiler.Proofs.Emission
import ChocoCompiler.Proofs.BuildRules
import ChocoCompiler.Proofs.LibraryEmitted
import ChocoCompiler.Proofs.SuccessfulRuns
import ChocoCompiler.Proofs.ProgramParts
import ChocoCompiler.Proofs.CheckedForms
import ChocoCompiler.Proofs.CheckedPrograms
import ChocoCompiler.Proofs.LoweringRules
import ChocoCompiler.Proofs.ExpressionsEmitted
import ChocoCompiler.Proofs.ModulesEmitted
import ChocoCompiler.Proofs.TypedModules
import ChocoCompiler.Proofs.Temporaries
import ChocoCompiler.Proofs.Dominance
import ChocoCompiler.Proofs.ControlFlow
import ChocoCompiler.Proofs.IdentifierWords
import ChocoCompiler.Proofs.LocalNames
import ChocoCompiler.Proofs.LoweringFaults
import ChocoCompiler.Proofs.StoredNames
import ChocoCompiler.Proofs.Machine
import ChocoCompiler.Proofs.Evaluation
import ChocoCompiler.Proofs.LibraryRuns
import ChocoCompiler.Proofs.LibraryModule
import ChocoCompiler.Proofs.CodeLayout
import ChocoCompiler.Proofs.Simulation
import ChocoCompiler.Proofs.ScalarExpressions
import ChocoCompiler.Proofs.ScalarStatements
import ChocoCompiler.Proofs.CheckedMeaning
import ChocoCompiler.Proofs.ScalarModules
import ChocoCompiler.Proofs.FailingPrograms
import ChocoCompiler.Proofs.ClosedCode
import ChocoCompiler.Proofs.ClosedLowering
import ChocoCompiler.Proofs.SymbolNames
import ChocoCompiler.Proofs.ClosedModules
import ChocoCompiler.Proofs.ScopeRules
import ChocoCompiler.Proofs.KnownNames
import ChocoCompiler.Proofs.TypingRules
import ChocoCompiler.Proofs.TypeTable
import ChocoCompiler.Proofs.NoneTests
import ChocoCompiler.Proofs.NoneCode
import ChocoCompiler.Proofs.NoneValues
import ChocoCompiler.Proofs.Terminals
import ChocoCompiler.Proofs.Spelling
import ChocoCompiler.Proofs.Lines
import ChocoCompiler.Proofs.BareTrees
import ChocoCompiler.Proofs.Precedence
import ChocoCompiler.Proofs.ExpressionGrammar
import ChocoCompiler.Proofs.ProgramGrammar
import ChocoCompiler.Proofs.ProgramCompleteness
import ChocoCompiler.Proofs.WrittenPrograms
import ChocoCompiler.Proofs.LexerSteps
import ChocoCompiler.Proofs.SourceLines
import ChocoCompiler.Proofs.Indentation
import ChocoCompiler.Proofs.LosslessTokens
import ChocoCompiler.Proofs.CanonicalText
import ChocoCompiler.Proofs.LayoutEdits
import ChocoCompiler.Proofs.AssignableTypes
import ChocoCompiler.Proofs.AssignedStorage
import ChocoCompiler.Proofs.CollectedShapes
import ChocoCompiler.Proofs.AlikeRuns
import ChocoCompiler.Proofs.ParsedWords
import ChocoCompiler.Proofs.StrippedChecks
import ChocoCompiler.Proofs.StrippedLowering
import ChocoCompiler.Proofs.WordsDecide
import ChocoCompiler.Proofs.InternedShapes
import ChocoCompiler.Proofs.StringLiterals
import ChocoCompiler.Proofs.FloorDivision
import ChocoCompiler.Proofs.ByteMemory
import ChocoCompiler.Proofs.MemoryRuns
import ChocoCompiler.Proofs.ListCode
import ChocoCompiler.Proofs.ListMemory
import ChocoCompiler.Proofs.ListConcatenation
import ChocoCompiler.Proofs.TextConstants
import ChocoCompiler.Proofs.LineColumns
import ChocoCompiler.Proofs.TokenPlaces
import ChocoCompiler.Proofs.SyntaxRegions
import ChocoCompiler.Proofs.ParsedRegions
import ChocoCompiler.Proofs.ProgramRegions
import ChocoCompiler.Proofs.DiagnosticPlaces
import ChocoCompiler.Proofs.NumberOrder
import ChocoCompiler.Proofs.ParserMoves
import ChocoCompiler.Proofs.EnteredNames
import ChocoCompiler.Proofs.ComparisonChains
import ChocoCompiler.Proofs.VisitedNodes
import ChocoCompiler.Proofs.BuilderRuns
import ChocoCompiler.Proofs.NameHandles
import ChocoCompiler.Proofs.SlotNames
import ChocoCompiler.Proofs.InputBuffer
import ChocoCompiler.Proofs.ParserProgress
import ChocoCompiler.Proofs.ParserTermination
