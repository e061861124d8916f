import TreeCode.CommandLine
import TreeCode.CommandLine.Files
import TreeCode.Document
import TreeCode.Document.Markup
import TreeCode.Document.Pairs
import TreeCode.Draft
import TreeCode.Error
import TreeCode.Host
import TreeCode.Instruction
import TreeCode.Instruction.Layout
import TreeCode.Instruction.Read
import TreeCode.Listing
import TreeCode.Log
import TreeCode.Machine
import TreeCode.Machine.Run
import TreeCode.Main
import TreeCode.Memory
import TreeCode.Opcode
import TreeCode.Operands
import TreeCode.Patch
import TreeCode.Proofs.Canonical
import TreeCode.Proofs.CommandLine.Effects
import TreeCode.Proofs.CommandLine.Files
import TreeCode.Proofs.CommandLine.Printing
import TreeCode.Proofs.Document.Attributes
import TreeCode.Proofs.Document.Beside
import TreeCode.Proofs.Document.Contents
import TreeCode.Proofs.Document.Forest
import TreeCode.Proofs.Document.Growth
import TreeCode.Proofs.Document.Html
import TreeCode.Proofs.Document.Inside
import TreeCode.Proofs.Document.Keeping
import TreeCode.Proofs.Document.Links
import TreeCode.Proofs.Document.Listeners
import TreeCode.Proofs.Document.Pairs
import TreeCode.Proofs.Document.Parents
import TreeCode.Proofs.Document.Placing
import TreeCode.Proofs.Document.Reachable
import TreeCode.Proofs.Draft
import TreeCode.Proofs.Grammar
import TreeCode.Proofs.Listing
import TreeCode.Proofs.Listing.Joined
import TreeCode.Proofs.Listing.Lines
import TreeCode.Proofs.Machine.Calling
import TreeCode.Proofs.Machine.Conservation
import TreeCode.Proofs.Machine.Deeds
import TreeCode.Proofs.Machine.Echoing
import TreeCode.Proofs.Machine.Failing
import TreeCode.Proofs.Machine.Following
import TreeCode.Proofs.Machine.Keyed
import TreeCode.Proofs.Machine.Locality
import TreeCode.Proofs.Machine.Mirroring
import TreeCode.Proofs.Machine.Once
import TreeCode.Proofs.Machine.Plain
import TreeCode.Proofs.Machine.Postponing
import TreeCode.Proofs.Machine.Renaming
import TreeCode.Proofs.Machine.Requests
import TreeCode.Proofs.Machine.Roots
import TreeCode.Proofs.Machine.Running
import TreeCode.Proofs.Machine.Streaming
import TreeCode.Proofs.Machine.Taking
import TreeCode.Proofs.Machine.Workshop
import TreeCode.Proofs.Markup.Merged
import TreeCode.Proofs.Markup.Tags
import TreeCode.Proofs.Operands
import TreeCode.Proofs.Operands.Calls
import TreeCode.Proofs.Operands.Texts
import TreeCode.Proofs.Operands.Undisturbed
import TreeCode.Proofs.Patch
import TreeCode.Proofs.Patch.Records
import TreeCode.Proofs.Reactor.Course
import TreeCode.Proofs.Reactor.Numbers
import TreeCode.Proofs.Reading
import TreeCode.Proofs.Session.Firing
import TreeCode.Proofs.Session.Fragments
import TreeCode.Proofs.Session.Losses
import TreeCode.Proofs.Session.Postponing
import TreeCode.Proofs.Session.Queue
import TreeCode.Proofs.Session.Sharing
import TreeCode.Proofs.Session.Tails
import TreeCode.Proofs.Session.Trees
import TreeCode.Proofs.Slots
import TreeCode.Proofs.Slots.Keyed
import TreeCode.Proofs.Text.Delimited
import TreeCode.Proofs.Text.Numeral
import TreeCode.Proofs.Text.Quoted
import TreeCode.Proofs.Tree.Building
import TreeCode.Proofs.Tree.Composing
import TreeCode.Proofs.Tree.Faults
import TreeCode.Proofs.Tree.Outline
import TreeCode.Proofs.Tree.Shape
import TreeCode.Proofs.Tree.Sketch
import TreeCode.Proofs.Tree.Writing
import TreeCode.Proofs.Widths
import TreeCode.Proofs.Written
import TreeCode.Reactor
import TreeCode.Registry
import TreeCode.Session
import TreeCode.Settings
import TreeCode.Slots
import TreeCode.Slots.Keyed
import TreeCode.Text.Blank
import TreeCode.Text.Numeral
import TreeCode.Text.Printable
import TreeCode.Text.Quoted
import TreeCode.Text.Utf8
import TreeCode.Tree
import TreeCode.Tree.Encode
import TreeCode.Tree.Sketch
