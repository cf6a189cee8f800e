import DocComment.Check
import DocComment.Comment
import DocComment.Cursor.Action
import DocComment.Cursor.Basic
import DocComment.Declaration
import DocComment.Diagnostic
import DocComment.Document.Basic
import DocComment.Document.Tag
import DocComment.Form.Accept
import DocComment.Form.Address
import DocComment.Form.Email
import DocComment.Form.Name
import DocComment.Form.Uri
import DocComment.Form.Version
import DocComment.Grammar.Basic
import DocComment.Grammar.BlockTag
import DocComment.Grammar.Comment
import DocComment.Grammar.Description
import DocComment.Grammar.Reference
import DocComment.Grammar.Type
import DocComment.Main
import DocComment.Output.DocumentJson
import DocComment.Output.Json
import DocComment.Output.TokenTable
import DocComment.Output.Tree
import DocComment.Program
import DocComment.Report
import DocComment.Screening
import DocComment.Settings.Arguments
import DocComment.Settings.Basic
import DocComment.Settings.Toml
import DocComment.Storage.Basic
import DocComment.Storage.FileTree
import DocComment.Storage.Path
import DocComment.SyntaxError
import DocComment.Text.Basic
import DocComment.Text.Blank
import DocComment.Text.Digit
import DocComment.Text.Letter
import DocComment.Text.Line
import DocComment.Text.Position
import DocComment.Text.Printable
import DocComment.Text.Quoted
import DocComment.Token.Basic
import DocComment.Token.Raw
import DocComment.Token.Reader
import DocComment.Proofs.Screening.Run
import DocComment.Proofs.Screening.Step
import DocComment.Proofs.Screening.Segmentation
import DocComment.Proofs.Cursor.View
import DocComment.Proofs.Cursor.Places
import DocComment.Proofs.Cursor.Keeps
import DocComment.Proofs.Cursor.Refinement
import DocComment.Proofs.Grammar.Walk
import DocComment.Proofs.Grammar.Keeps
import DocComment.Proofs.Grammar.Faults
import DocComment.Proofs.Screening.Margin
import DocComment.Proofs.Screening.Spelling
import DocComment.Proofs.Grammar.Reads
import DocComment.Proofs.Form.Characters
import DocComment.Proofs.Grammar.TypeText
import DocComment.Proofs.Grammar.Words
import DocComment.Proofs.Grammar.Prose
import DocComment.Proofs.Document.Canonical
import DocComment.Proofs.Document.Roundtrip
import DocComment.Proofs.Screening.Readable
import DocComment.Proofs.Cursor.Takes
import DocComment.Proofs.Grammar.Takes
import DocComment.Proofs.Document.WellFormed
import DocComment.Proofs.Grammar.Answers
import DocComment.Proofs.Grammar.Inline
import DocComment.Proofs.Document.Blocks
import DocComment.Proofs.Document.Mark
import DocComment.Proofs.Document.Placeholders
import DocComment.Proofs.Screening.Chunk
import DocComment.Proofs.Comment.Delimiters
import DocComment.Proofs.Screening.Offsets
import DocComment.Proofs.Comment.Reported
import DocComment.Proofs.Grammar.Enclosed
import DocComment.Proofs.Document.Closed
import DocComment.Proofs.Text.Position
import DocComment.Proofs.Screening.SameLine
import DocComment.Proofs.Screening.StepPair
import DocComment.Proofs.Cursor.Pairs
import DocComment.Proofs.Grammar.Pairs
import DocComment.Proofs.Document.LineBreaks
import DocComment.Proofs.Token.First
import DocComment.Proofs.Token.LineEnd
import DocComment.Proofs.Screening.Indent
import DocComment.Proofs.Document.Indent
import DocComment.Proofs.Screening.LineFault
import DocComment.Proofs.Grammar.TypeGrammar
import DocComment.Proofs.Text.Squeeze
import DocComment.Proofs.Screening.Verbatim
import DocComment.Proofs.Screening.Flat
import DocComment.Proofs.Grammar.TypeExact
import DocComment.Proofs.Screening.Whole
import DocComment.Proofs.Grammar.Quotes
import DocComment.Proofs.Document.Quoted
import DocComment.Proofs.Cursor.CommentEnd
import DocComment.Proofs.Cursor.Lockstep
import DocComment.Proofs.Cursor.LockstepActions
import DocComment.Proofs.Grammar.Lockstep
import DocComment.Proofs.Grammar.LockstepTags
import DocComment.Proofs.Grammar.Severed
import DocComment.Proofs.Screening.Behind
import DocComment.Proofs.Document.BeforeClosing
import DocComment.Proofs.Comment.Refusal
import DocComment.Proofs.Comment.Scan
import DocComment.Proofs.Token.Unique
import DocComment.Proofs.Token.Reader
import DocComment.Proofs.Screening.Head
import DocComment.Proofs.Grammar.Refuses
import DocComment.Proofs.Grammar.Signature
import DocComment.Proofs.Document.Method
import DocComment.Proofs.Text.Pieces
import DocComment.Proofs.Form.HostName
import DocComment.Proofs.Form.EmailGrammar
import DocComment.Proofs.Form.UriGrammar
import DocComment.Proofs.Grammar.Exact
import DocComment.Proofs.Grammar.ElementGrammar
import DocComment.Proofs.Grammar.ElementExact
import DocComment.Proofs.Text.Line
import DocComment.Proofs.Text.LineColumn
import DocComment.Proofs.Comment.Excerpt
import DocComment.Proofs.Comment.Ranges
import DocComment.Proofs.Comment.Checked
import DocComment.Proofs.Output.Layout
import DocComment.Proofs.Output.Documents
import DocComment.Proofs.Cursor.Shape
import DocComment.Proofs.Cursor.Spends
import DocComment.Proofs.Grammar.Spends
import DocComment.Proofs.Grammar.Progress
