import EventLog.Address
import EventLog.Archive.Entry
import EventLog.Archive.Sink
import EventLog.Archive.TarHeader
import EventLog.Archive.Tree
import EventLog.Archive.Writer
import EventLog.Bytes.LittleEndian
import EventLog.Bytes.Supply
import EventLog.Calendar
import EventLog.Checksum
import EventLog.CommandLine.Arguments
import EventLog.CommandLine.Failure
import EventLog.CommandLine.Run
import EventLog.Control.Outcome
import EventLog.Cursor
import EventLog.Event.Basic
import EventLog.Event.Context
import EventLog.Event.Filter
import EventLog.Event.Header
import EventLog.Event.Iterator
import EventLog.Event.Payload
import EventLog.Event.Render
import EventLog.Fault
import EventLog.Field.Layout
import EventLog.Field.Name
import EventLog.Field.Primitive
import EventLog.Field.Value
import EventLog.Json.Number
import EventLog.Json.Printer
import EventLog.Json.Reader
import EventLog.Json.Token
import EventLog.Json.Value
import EventLog.Log
import EventLog.Main
import EventLog.Notice
import EventLog.Proofs.Address.Grammar
import EventLog.Proofs.Address.Text
import EventLog.Proofs.Archive.Entry
import EventLog.Proofs.Archive.Limit
import EventLog.Proofs.Archive.Names
import EventLog.Proofs.Archive.Outputs
import EventLog.Proofs.Archive.Reader
import EventLog.Proofs.Archive.RoundTrip
import EventLog.Proofs.Archive.Tree
import EventLog.Proofs.Archive.Writing
import EventLog.Proofs.Buffer.Decode
import EventLog.Proofs.Buffer.Place
import EventLog.Proofs.Buffer.Scan
import EventLog.Proofs.Buffer.Walk
import EventLog.Proofs.Calendar.Count
import EventLog.Proofs.Calendar.Text
import EventLog.Proofs.Calls
import EventLog.Proofs.Checksum
import EventLog.Proofs.CommandLine.Preparation
import EventLog.Proofs.CommandLine.Printing
import EventLog.Proofs.Event.Accounts
import EventLog.Proofs.Event.Append
import EventLog.Proofs.Event.Corruption
import EventLog.Proofs.Event.Document
import EventLog.Proofs.Event.Ending
import EventLog.Proofs.Event.Extension
import EventLog.Proofs.Event.Fault
import EventLog.Proofs.Event.Filter
import EventLog.Proofs.Event.Numbering
import EventLog.Proofs.Event.Origin
import EventLog.Proofs.Event.RoundTrip
import EventLog.Proofs.Event.Selection
import EventLog.Proofs.Event.Time
import EventLog.Proofs.Event.Walk
import EventLog.Proofs.Field.Name
import EventLog.Proofs.Json.Grammar
import EventLog.Proofs.Json.Lexemes
import EventLog.Proofs.Json.Line
import EventLog.Proofs.Json.Number
import EventLog.Proofs.Json.Reading
import EventLog.Proofs.Json.RoundTrip
import EventLog.Proofs.Json.Sequence
import EventLog.Proofs.Json.Text
import EventLog.Proofs.Json.Tokens
import EventLog.Proofs.Record.Append
import EventLog.Proofs.Record.Cut
import EventLog.Proofs.Record.Fault
import EventLog.Proofs.Record.Framing
import EventLog.Proofs.Record.Progress
import EventLog.Proofs.Record.Scan
import EventLog.Proofs.Record.Validation
import EventLog.Proofs.Schema.Document
import EventLog.Proofs.Schema.Draft
import EventLog.Proofs.Schema.Members
import EventLog.Proofs.Schema.Order
import EventLog.Proofs.Text.Digits
import EventLog.Proofs.Text.Malformed
import EventLog.Proofs.Text.Order
import EventLog.Proofs.Text.Utf8
import EventLog.Proofs.Wire.Address
import EventLog.Proofs.Wire.Canonical
import EventLog.Proofs.Wire.Context
import EventLog.Proofs.Wire.Event
import EventLog.Proofs.Wire.Fault
import EventLog.Proofs.Wire.Field
import EventLog.Proofs.Wire.InTurn
import EventLog.Proofs.Wire.Relocation
import EventLog.Proofs.Wire.Strict
import EventLog.Proofs.Wire.Text
import EventLog.Proofs.Wire.Truncation
import EventLog.Proofs.Workspace.FileTree
import EventLog.Proofs.Workspace.Path
import EventLog.Proofs.Workspace.Steps
import EventLog.Record.Frame
import EventLog.Record.Scanner
import EventLog.Schema.Document
import EventLog.Schema.Draft
import EventLog.Schema.Forum
import EventLog.Schema.Table
import EventLog.Text.Digits
import EventLog.Text.Utf8
import EventLog.Uuid
import EventLog.Workspace.Basic
import EventLog.Workspace.FileTree
import EventLog.Workspace.Model
import EventLog.Workspace.Path
import EventLog.Proofs.CommandLine.Arguments
