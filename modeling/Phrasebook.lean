import Phrasebook.Archive
import Phrasebook.Archive.Checksum
import Phrasebook.Archive.Deflate
import Phrasebook.Archive.Draft
import Phrasebook.Archive.EndRecord
import Phrasebook.Archive.Extra
import Phrasebook.Archive.Huffman
import Phrasebook.Archive.Inflate
import Phrasebook.Archive.Layout
import Phrasebook.Arena
import Phrasebook.Backup
import Phrasebook.CallRules
import Phrasebook.Command
import Phrasebook.Command.Arguments
import Phrasebook.Command.Run
import Phrasebook.Digest
import Phrasebook.Edit
import Phrasebook.Entry
import Phrasebook.EntryFile
import Phrasebook.Fault
import Phrasebook.FileTree
import Phrasebook.Grammar.Builder
import Phrasebook.Grammar.Cursor
import Phrasebook.Grammar.Expression
import Phrasebook.Grammar.Statement
import Phrasebook.Index
import Phrasebook.Json
import Phrasebook.Json.Decode
import Phrasebook.Json.Read
import Phrasebook.Json.Write
import Phrasebook.Lexeme
import Phrasebook.Lexeme.Scan
import Phrasebook.Main
import Phrasebook.Node
import Phrasebook.NodeTable
import Phrasebook.ParseError
import Phrasebook.Path
import Phrasebook.Position
import Phrasebook.Project
import Phrasebook.Proofs.Arena
import Phrasebook.Proofs.ByFunction
import Phrasebook.Proofs.Candidates
import Phrasebook.Proofs.Chunks
import Phrasebook.Proofs.Coverage
import Phrasebook.Proofs.Discovery
import Phrasebook.Proofs.Edges
import Phrasebook.Proofs.EntryFiles
import Phrasebook.Proofs.Files
import Phrasebook.Proofs.Finds
import Phrasebook.Proofs.Fresh
import Phrasebook.Proofs.FunctionLines
import Phrasebook.Proofs.Grafts
import Phrasebook.Proofs.Grammar.Advances
import Phrasebook.Proofs.Grammar.Alike
import Phrasebook.Proofs.Grammar.AlikeStatement
import Phrasebook.Proofs.Grammar.Building
import Phrasebook.Proofs.Grammar.BuildingStatement
import Phrasebook.Proofs.Grammar.Cutting
import Phrasebook.Proofs.Grammar.CuttingExpression
import Phrasebook.Proofs.Grammar.CuttingMoves
import Phrasebook.Proofs.Grammar.CuttingStatement
import Phrasebook.Proofs.Grammar.Expression
import Phrasebook.Proofs.Grammar.ExpressionAdvances
import Phrasebook.Proofs.Grammar.Headers
import Phrasebook.Proofs.Grammar.Lengths
import Phrasebook.Proofs.Grammar.LineAdvances
import Phrasebook.Proofs.Grammar.Loops
import Phrasebook.Proofs.Grammar.Parts
import Phrasebook.Proofs.Grammar.Precedence
import Phrasebook.Proofs.Grammar.Reaches
import Phrasebook.Proofs.Grammar.Statement
import Phrasebook.Proofs.Grammar.StatementAdvances
import Phrasebook.Proofs.Grammar.Written
import Phrasebook.Proofs.Insets
import Phrasebook.Proofs.JsonText
import Phrasebook.Proofs.Keeping
import Phrasebook.Proofs.Keys
import Phrasebook.Proofs.Layout
import Phrasebook.Proofs.LineIndex
import Phrasebook.Proofs.LineStarts
import Phrasebook.Proofs.Lines
import Phrasebook.Proofs.Located
import Phrasebook.Proofs.Lookahead
import Phrasebook.Proofs.Merging
import Phrasebook.Proofs.Names
import Phrasebook.Proofs.Numbering
import Phrasebook.Proofs.Outcomes
import Phrasebook.Proofs.Partition
import Phrasebook.Proofs.Patterns
import Phrasebook.Proofs.Pieces
import Phrasebook.Proofs.Places
import Phrasebook.Proofs.Planning
import Phrasebook.Proofs.Positions
import Phrasebook.Proofs.Progress
import Phrasebook.Proofs.Ranges
import Phrasebook.Proofs.RawText
import Phrasebook.Proofs.Recast
import Phrasebook.Proofs.Reformatting
import Phrasebook.Proofs.Regions
import Phrasebook.Proofs.Replacing
import Phrasebook.Proofs.Rereading
import Phrasebook.Proofs.Rescan
import Phrasebook.Proofs.Restating
import Phrasebook.Proofs.Scenes
import Phrasebook.Proofs.Seams
import Phrasebook.Proofs.Searching
import Phrasebook.Proofs.Shape
import Phrasebook.Proofs.Sharing
import Phrasebook.Proofs.Sites
import Phrasebook.Proofs.Spacing
import Phrasebook.Proofs.Standing
import Phrasebook.Proofs.Stream
import Phrasebook.Proofs.Substitution
import Phrasebook.Proofs.Tracking
import Phrasebook.Proofs.Undisturbed
import Phrasebook.Proofs.Unkeyed
import Phrasebook.Proofs.Unpacking
import Phrasebook.Proofs.Values
import Phrasebook.Proofs.WellFormed
import Phrasebook.Proofs.Wrapping
import Phrasebook.Proofs.Writing
import Phrasebook.Scene
import Phrasebook.Script
import Phrasebook.Script.Chunk
import Phrasebook.Script.Finds
import Phrasebook.Script.Plan
import Phrasebook.Script.Site
import Phrasebook.Script.Translate
import Phrasebook.Settings
import Phrasebook.Span
import Phrasebook.Store
import Phrasebook.Table
import Phrasebook.Text
import Phrasebook.Text.Blank
import Phrasebook.Text.Letter
import Phrasebook.Text.Quoted
import Phrasebook.Text.Repair
import Phrasebook.Tree
import Phrasebook.Unpack
