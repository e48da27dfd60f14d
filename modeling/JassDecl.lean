import JassDecl.Library.Source
import JassDecl.Main
import JassDecl.Run
import JassDecl.Session
import JassDecl.Token.Display
import JassDecl.Proofs.NormalForm
import JassDecl.Proofs.BlockRun
import JassDecl.Proofs.Concatenation
import JassDecl.Proofs.NormalText
import JassDecl.Proofs.Layout
import JassDecl.Proofs.WholeWords
import JassDecl.Proofs.StatementGrammar
import JassDecl.Proofs.Unambiguity
import JassDecl.Proofs.FileLines
import JassDecl.Proofs.Lexemes
import JassDecl.Proofs.Parameters
import JassDecl.Proofs.StatementLine
import JassDecl.Proofs.GlobalLine
import JassDecl.Proofs.WrittenLines
import JassDecl.Proofs.Rereading
import JassDecl.Proofs.Items
import JassDecl.Proofs.SourceBySource
import JassDecl.Proofs.Initializers
import JassDecl.Proofs.Overriding
import JassDecl.Proofs.Writing
import JassDecl.Proofs.Encoding
import JassDecl.Proofs.Steps
import JassDecl.Proofs.Runs
import JassDecl.Proofs.JsonGrammar
import JassDecl.Proofs.JsonReading
import JassDecl.Proofs.LibraryText
import JassDecl.Proofs.Layering
import JassDecl.Proofs.TableFiles
import JassDecl.Override.Store
import JassDecl.Proofs.Store
import JassDecl.Proofs.Sessions
import JassDecl.Proofs.Remarks
import JassDecl.Proofs.Reporting
import JassDecl.Proofs.OpenBlocks
import JassDecl.Proofs.Records
import JassDecl.Proofs.GlobalGrammar
import JassDecl.Proofs.Clauses
import JassDecl.Proofs.Spacing
import JassDecl.Proofs.Arguments
import JassDecl.Proofs.JsonObjects
import JassDecl.Proofs.Validation
import JassDecl.Proofs.Segmentation
import JassDecl.Proofs.Strictness
import JassDecl.Proofs.KeywordSearch
import JassDecl.Proofs.NormalTokens
import JassDecl.Proofs.FixedLines
