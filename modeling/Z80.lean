import Z80.Assembly
import Z80.CodeBuffer
import Z80.CommandLine.Arguments
import Z80.CommandLine.Assemble
import Z80.CommandLine.Files
import Z80.CommandLine.Help
import Z80.CommandLine.Host
import Z80.CommandLine.Lister
import Z80.CommandLine.Styled
import Z80.CommandLine.Tool
import Z80.Dictionary
import Z80.Encoding
import Z80.Event
import Z80.Fault
import Z80.InstructionSet
import Z80.Json
import Z80.Json.Reader
import Z80.Line
import Z80.Listing
import Z80.Literal
import Z80.Main
import Z80.Numeral
import Z80.OpcodeTable
import Z80.Proofs.Attempt
import Z80.Proofs.BufferHistory
import Z80.Proofs.CodeBuffer
import Z80.Proofs.CommandLine
import Z80.Proofs.Computation
import Z80.Proofs.Data
import Z80.Proofs.Encoding
import Z80.Proofs.Events
import Z80.Proofs.Files
import Z80.Proofs.Folding
import Z80.Proofs.Host
import Z80.Proofs.Jumps
import Z80.Proofs.LabelNames
import Z80.Proofs.Layout
import Z80.Proofs.LetterCase
import Z80.Proofs.Line
import Z80.Proofs.LineByLine
import Z80.Proofs.Linking
import Z80.Proofs.Listing
import Z80.Proofs.Literal
import Z80.Proofs.MachineCode
import Z80.Proofs.Numeral
import Z80.Proofs.Origin
import Z80.Proofs.Outcome
import Z80.Proofs.Pending
import Z80.Proofs.Phases
import Z80.Proofs.Printed
import Z80.Proofs.Quoted
import Z80.Proofs.Refusal
import Z80.Proofs.Relocation
import Z80.Proofs.Renaming
import Z80.Proofs.Report
import Z80.Proofs.Rereading
import Z80.Proofs.Resolution
import Z80.Proofs.Run
import Z80.Proofs.Source
import Z80.Proofs.Spacing
import Z80.Proofs.Statement
import Z80.Proofs.Step
import Z80.Proofs.Strictness
import Z80.Proofs.Substitution
import Z80.Proofs.Symbols
import Z80.Proofs.Text
import Z80.Proofs.Tiling
import Z80.Proofs.Value
import Z80.Proofs.Word
import Z80.Report
import Z80.Resolution
import Z80.Session
import Z80.Settings
import Z80.Statement
import Z80.Text
import Z80.Vocabulary
import Z80.Word
