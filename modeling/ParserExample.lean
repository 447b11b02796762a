import ParserExample.Library.Except
import ParserExample.Library.Calls
import ParserExample.Library.Term
import ParserExample.Library.Store
import ParserExample.Library.Numbering
import ParserExample.Library.Postfix
import ParserExample.Library.Word
import ParserExample.Library.Lines
import ParserExample.Library.Block
import ParserExample.Library.Ranges
import ParserExample.Library.Series
import ParserExample.Library.Doubling
import ParserExample.Runtime
import ParserExample.Buffer
import ParserExample.Ast
import ParserExample.Ast.Storage
import ParserExample.Allocations
import ParserExample.Library.Proc
import ParserExample.Library.Exchange
import ParserExample.Bytecode
import ParserExample.Bytecode.Compiler
import ParserExample.Bytecode.Interpreter
import ParserExample.Bytecode.Decode
import ParserExample.Bytecode.Memory
import ParserExample.Optimizer
import ParserExample.Optimizer.Rules
import ParserExample.Optimizer.InPlace
import ParserExample.Optimizer.Run
import ParserExample.Optimizer.Refinement
import ParserExample.Optimizer.NormalForm
import ParserExample.Optimizer.Preservation
import ParserExample.Optimizer.Termination
import ParserExample.Optimizer.Size
import ParserExample.Optimizer.Chains
import ParserExample.Optimizer.Passes
import ParserExample.Optimizer.Constants
import ParserExample.Optimizer.Negations
import ParserExample.Parser
import ParserExample.Printer
import ParserExample.Tokens
import ParserExample.Grammar
import ParserExample.Grammar.Stage
import ParserExample.Reader
import ParserExample.Reader.Expression
import ParserExample.Reader.Soundness
import ParserExample.Reader.Completeness
import ParserExample.Reader.Prefix
import ParserExample.Reader.Faults
import ParserExample.Parser.Contract
import ParserExample.Parser.Descent
import ParserExample.Parser.Errors
import ParserExample.Parser.Calls
import ParserExample.Parser.Invariant
import ParserExample.Parser.Digits
import ParserExample.Parser.Kept
import ParserExample.Parser.Numbers
import ParserExample.Parser.Memory
import ParserExample.Parser.Allocations
import ParserExample.Parser.Lexing
import ParserExample.Parser.Layout
import ParserExample.Parser.Simulation
import ParserExample.Parser.Language
import ParserExample.Parser.PostOrder
import ParserExample.Grammar.Unambiguous
import ParserExample.Grammar.Renaming
import ParserExample.Parser.Termination
import ParserExample.Parser.Words
import ParserExample.Parser.LongestMatch
import ParserExample.Parser.Refusals
import ParserExample.Parser.Faults
import ParserExample.Parser.Parameters
import ParserExample.Parser.Unread
import ParserExample.Parser.Literal
import ParserExample.Printer.Reparse
import ParserExample.Parser.Composition
import ParserExample.Diagnostics
import ParserExample.Diagnostics.Lines
import ParserExample.Diagnostics.Marker
import ParserExample.Pipeline
import ParserExample.Resources
import ParserExample.Canonical
import ParserExample.Printer.Optimized
import ParserExample.Driver
import ParserExample.Driver.Environment
import ParserExample.Driver.Report
import ParserExample.Driver.Status
import ParserExample.Driver.Memory
import ParserExample.Driver.Allocations
