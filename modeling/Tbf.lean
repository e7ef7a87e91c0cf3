import Tbf.Library.Text
import Tbf.Library.Numeral
import Tbf.Library.CNumber
import Tbf.Library.CLiteral
import Tbf.Library.InputSource
import Tbf.Library.ByteRepr
import Tbf.Library.Interaction
import Tbf.Library.Transition
import Tbf.Utils
import Tbf.Harness
import Tbf.Execution
import Tbf.ErrorSearch
import Tbf.Tools.Afl
import Tbf.Tools.Klee
import Tbf.Tools.CpaTiger
import Tbf.Tools.RandomTester
import Tbf.Tools.Converters
import Tbf.Replay
import Tbf.TestSuiteXml
import Tbf.Processing
import Tbf.Parallel
import Tbf.Run
import Tbf.Tools.PrtestGenerator
import Tbf.Library.Directory
import Tbf.Tools.PrtestExchange
import Tbf.Ast
import Tbf.Library.CDeclaration
import Tbf.MethodHead
import Tbf.DeclaratorText
import Tbf.NestedDeclarators
import Tbf.VariadicHeads
import Tbf.ImplicitFunctions
import Tbf.Library.Visitor
import Tbf.UndefinedMethods
import Tbf.Library.Pattern
import Tbf.NondetMethods
import Tbf.Statistics
import Tbf.StopAfterSuccess
import Tbf.Coverage
import Tbf.ExecutionValidation
import Tbf.Library.CInteger
import Tbf.ParseInp
import Tbf.FractionalInputs
import Tbf.Tools.FshellSuite
import Tbf.Tools.PrtestCoverage
import Tbf.Library.Words
import Tbf.Tools.PrtestPreprocessor
import Tbf.KeywordRewriting
import Tbf.CommentRemoval
import Tbf.Tools.FshellPreprocessor
import Tbf.Library.Deletion
import Tbf.Library.Nesting
import Tbf.AttributeRemoval
import Tbf.AttributePatterns
import Tbf.AttributeSources
import Tbf.AttributeLines
import Tbf.AttributeLineStage
import Tbf.AttributeCorrectness
import Tbf.Library.BinaryReader
import Tbf.Tools.KtestFile
import Tbf.Tools.KleeExecution
import Tbf.Library.Effects
import Tbf.CProblems
import Tbf.ChildProcess
import Tbf.InputGeneration
import Tbf.Reproduction
import Tbf.HarnessText
import Tbf.Linking
import Tbf.ReportedHarness
import Tbf.Runners
import Tbf.ValidatedRun
import Tbf.RunCommands
import Tbf.FalseVerdict
import Tbf.Library.Polling
import Tbf.TestDirectory
import Tbf.CastInputs
import Tbf.Tools.Preprocessors
