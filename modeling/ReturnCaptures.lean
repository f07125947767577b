import ReturnCaptures.Command.Display
import ReturnCaptures.Command.Outline
import ReturnCaptures.Command.Request
import ReturnCaptures.Command.Run
import ReturnCaptures.Diagnostic.Basic
import ReturnCaptures.Diagnostic.Report
import ReturnCaptures.Expansion.Basic
import ReturnCaptures.Expansion.Edit
import ReturnCaptures.Expansion.Source
import ReturnCaptures.Expansion.Text
import ReturnCaptures.Expansion.Trees
import ReturnCaptures.FileTree
import ReturnCaptures.Grammar.Expect
import ReturnCaptures.Grammar.Failure
import ReturnCaptures.Grammar.FunctionItem
import ReturnCaptures.Grammar.Generics
import ReturnCaptures.Grammar.Params
import ReturnCaptures.Grammar.Pattern
import ReturnCaptures.Grammar.ReturnClause
import ReturnCaptures.Grammar.TypeExpr
import ReturnCaptures.Main
import ReturnCaptures.NameSet
import ReturnCaptures.Proofs.Balance
import ReturnCaptures.Proofs.CaptureLists
import ReturnCaptures.Proofs.Crossing
import ReturnCaptures.Proofs.FixedPoint
import ReturnCaptures.Proofs.ItemParts
import ReturnCaptures.Proofs.Lossless
import ReturnCaptures.Proofs.PatternRuns
import ReturnCaptures.Proofs.TypeLevels
import ReturnCaptures.Proofs.TypeRuns
import ReturnCaptures.Settings.Basic
import ReturnCaptures.Settings.Document
import ReturnCaptures.Settings.Toml
import ReturnCaptures.Text.CharClass
import ReturnCaptures.Text.CharRange
import ReturnCaptures.Text.Escape
import ReturnCaptures.Text.Lines
import ReturnCaptures.Text.Position
import ReturnCaptures.Text.Quoted
import ReturnCaptures.Token.Basic
import ReturnCaptures.Token.Lexer
import ReturnCaptures.Token.Scan
import ReturnCaptures.TokenTree.Basic
import ReturnCaptures.TokenTree.Build
import ReturnCaptures.TokenTree.Cursor
import ReturnCaptures.TokenTree.Match
import ReturnCaptures.TokenTree.Printer
import ReturnCaptures.TokenTree.SeatedCursor
import ReturnCaptures.Proofs.Cuts
import ReturnCaptures.Proofs.RunEnds
import ReturnCaptures.Proofs.CopyThrough
import ReturnCaptures.Proofs.Embedding
import ReturnCaptures.Proofs.Surfaces
import ReturnCaptures.Proofs.Printing
import ReturnCaptures.Proofs.Tiling
import ReturnCaptures.Proofs.Composition
import ReturnCaptures.Proofs.Collapse
import ReturnCaptures.Proofs.Declarations
import ReturnCaptures.Proofs.Ambiguity
import ReturnCaptures.Proofs.Iteration
import ReturnCaptures.Proofs.LineFeeds
import ReturnCaptures.Proofs.FilesBelow
import ReturnCaptures.Proofs.FileRuns
import ReturnCaptures.Proofs.Rewriting
import ReturnCaptures.Proofs.ReturnTypes
import ReturnCaptures.Proofs.CaptureGrammar
import ReturnCaptures.Proofs.RecordedParts
import ReturnCaptures.Proofs.CheckedExpansion
import ReturnCaptures.Proofs.Nesting
import ReturnCaptures.Proofs.Literals
import ReturnCaptures.Proofs.Numbers
import ReturnCaptures.Proofs.Joints
import ReturnCaptures.Proofs.LinesAndColumns
import ReturnCaptures.Proofs.Operators
import ReturnCaptures.Proofs.Reprinting
import ReturnCaptures.Proofs.ItemTexts
import ReturnCaptures.Proofs.LineEnds
import ReturnCaptures.Proofs.FailedStages
import ReturnCaptures.Proofs.QuotedLines
import ReturnCaptures.Proofs.RecordedNames
import ReturnCaptures.Proofs.FlatForms
import ReturnCaptures.Proofs.PathSeparators
import ReturnCaptures.Proofs.LongerWords
import ReturnCaptures.Proofs.CapturedTexts
import ReturnCaptures.Proofs.Signatures
import ReturnCaptures.Proofs.RenderedBodies
import ReturnCaptures.Proofs.UnmarkedTrees
import ReturnCaptures.Proofs.RewrittenTrees
import ReturnCaptures.Proofs.Resumptions
import ReturnCaptures.Proofs.RewrittenTexts
