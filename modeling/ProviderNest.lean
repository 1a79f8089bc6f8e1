import ProviderNest.Batch
import ProviderNest.Command.Arguments
import ProviderNest.Command.Run
import ProviderNest.Edit
import ProviderNest.Entry.Basic
import ProviderNest.Entry.Environment
import ProviderNest.Entry.Flat
import ProviderNest.Entry.Object
import ProviderNest.FileTree.Basic
import ProviderNest.FileTree.Update
import ProviderNest.Log.Console
import ProviderNest.Log.Record
import ProviderNest.Log.Trace
import ProviderNest.Main
import ProviderNest.Migrated
import ProviderNest.Pass
import ProviderNest.Path
import ProviderNest.Pipeline
import ProviderNest.Proofs.Characters
import ProviderNest.Proofs.Layout
import ProviderNest.Proofs.Lexing
import ProviderNest.Proofs.Recognition
import ProviderNest.Report.Basic
import ProviderNest.Report.Json
import ProviderNest.SingleFile
import ProviderNest.Source.Automaton
import ProviderNest.Source.Basic
import ProviderNest.Source.Brace
import ProviderNest.Source.Cut
import ProviderNest.Source.Kind
import ProviderNest.Source.Matching
import ProviderNest.Source.Segment
import ProviderNest.Source.Word
import ProviderNest.TargetList.Basic
import ProviderNest.TargetList.BuiltIn
import ProviderNest.TargetList.Provider
import ProviderNest.Text.Basic
import ProviderNest.Text.Blank
import ProviderNest.Text.Byte
import ProviderNest.Text.CaseTable
import ProviderNest.Text.HiddenTable
import ProviderNest.Text.Lowercase
import ProviderNest.Text.Quoted
import ProviderNest.Yaml.Cursor
import ProviderNest.Yaml.Node
import ProviderNest.Yaml.Scalar
import ProviderNest.Yaml.Token
import ProviderNest.Proofs.Changes
import ProviderNest.Proofs.Relexing
import ProviderNest.Proofs.Spelling
import ProviderNest.Proofs.Substance
import ProviderNest.Proofs.Balance
import ProviderNest.Proofs.Window
import ProviderNest.Proofs.Locality
import ProviderNest.Proofs.Migrated
import ProviderNest.Proofs.Bodies
import ProviderNest.Proofs.Gaps
import ProviderNest.Proofs.Batches
import ProviderNest.Proofs.Orders
import ProviderNest.Proofs.Tally
import ProviderNest.Proofs.Occurrences
import ProviderNest.Proofs.FirstField
import ProviderNest.Proofs.Nesting
import ProviderNest.Proofs.Division
import ProviderNest.Proofs.Rebuilding
import ProviderNest.Proofs.Commas
import ProviderNest.Proofs.Blocks
import ProviderNest.Proofs.Renewal
import ProviderNest.Proofs.Interior
import ProviderNest.Proofs.Settling
import ProviderNest.Proofs.Wrapping
import ProviderNest.Proofs.Growth
import ProviderNest.Proofs.Access
import ProviderNest.Proofs.Checked
import ProviderNest.Proofs.Faultless
import ProviderNest.Proofs.Outermost
import ProviderNest.Proofs.Declarations
import ProviderNest.Proofs.Woven
import ProviderNest.Proofs.Layers
import ProviderNest.Proofs.Environment
import ProviderNest.Proofs.Surroundings
import ProviderNest.Proofs.Matching
import ProviderNest.Proofs.Entries
import ProviderNest.Proofs.Conditional
import ProviderNest.Proofs.Unnesting
