import MethodFingerprint.Text.Blank
import MethodFingerprint.Text.Decimal
import MethodFingerprint.Text.Hex
import MethodFingerprint.AccessFlag
import MethodFingerprint.Method
import MethodFingerprint.Feature
import MethodFingerprint.Feature.Set
import MethodFingerprint.Feature.Extract
import MethodFingerprint.Index.Slots
import MethodFingerprint.Index
import MethodFingerprint.Search.Budget
import MethodFingerprint.Search.Target
import MethodFingerprint.Search.Frontier
import MethodFingerprint.Search.Walk
import MethodFingerprint.Search.Outcome
import MethodFingerprint.Search.Greedy
import MethodFingerprint.Search.Notice
import MethodFingerprint.Pattern
import MethodFingerprint.Pattern.Literal
import MethodFingerprint.Pattern.Render
import MethodFingerprint.Pattern.Parse
import MethodFingerprint.Session
import MethodFingerprint.Document.Json
import MethodFingerprint.Document.Json.Read
import MethodFingerprint.Document.Datum
import MethodFingerprint.Document.Yaml.Cursor
import MethodFingerprint.Document.Yaml.Scalar
import MethodFingerprint.Document.Yaml.Tag
import MethodFingerprint.Document.Yaml.Token
import MethodFingerprint.Document.Yaml.Resolve
import MethodFingerprint.Document.Yaml.Read
import MethodFingerprint.Document.Path
import MethodFingerprint.Document
import MethodFingerprint.Document.Record
import MethodFingerprint.Corpus
import MethodFingerprint.Config
import MethodFingerprint.Digest
import MethodFingerprint.Document.Codec
import MethodFingerprint.Database.Cell
import MethodFingerprint.Database.Statement
import MethodFingerprint.Database.Engine
import MethodFingerprint.Database.Contents
import MethodFingerprint.Database.Memory
import MethodFingerprint.Database.Memory.File
import MethodFingerprint.History.Run
import MethodFingerprint.History.Layout
import MethodFingerprint.History.Backend
import MethodFingerprint.History.Course
import MethodFingerprint.Report
import MethodFingerprint.CommandLine.Options
import MethodFingerprint.CommandLine.Command
import MethodFingerprint.CommandLine.Failure
import MethodFingerprint.CommandLine.Output
import MethodFingerprint.CommandLine.Run
import MethodFingerprint.CommandLine.Directory
import MethodFingerprint.Main
import MethodFingerprint.Proofs.AccessFlag
import MethodFingerprint.Proofs.Feature
import MethodFingerprint.Proofs.Feature.Extract
import MethodFingerprint.Proofs.Feature.Grammar
import MethodFingerprint.Proofs.Feature.Comparison
import MethodFingerprint.Proofs.Index
import MethodFingerprint.Proofs.Index.Contents
import MethodFingerprint.Proofs.Index.Renaming
import MethodFingerprint.Proofs.Isolation
import MethodFingerprint.Proofs.Pattern.Grammar
import MethodFingerprint.Proofs.Pattern.Sections
import MethodFingerprint.Proofs.Pattern.Recognition
import MethodFingerprint.Proofs.Pattern.Arguments
import MethodFingerprint.Proofs.Pattern.Clauses
import MethodFingerprint.Proofs.Pattern.Gathering
import MethodFingerprint.Proofs.Pattern.RoundTrip
import MethodFingerprint.Proofs.Search.Cover
import MethodFingerprint.Proofs.Search.Coverage
import MethodFingerprint.Proofs.Search.Failure
import MethodFingerprint.Proofs.Search.Greedy
import MethodFingerprint.Proofs.Search.Narrowing
import MethodFingerprint.Proofs.Search.Outcome
import MethodFingerprint.Proofs.Search.Rarest
import MethodFingerprint.Proofs.Search.Renaming
import MethodFingerprint.Proofs.Search.Target
import MethodFingerprint.Proofs.Search.Walk
import MethodFingerprint.Proofs.Text
import MethodFingerprint.Proofs.Search.Growth
import MethodFingerprint.Proofs.Search.Guards
import MethodFingerprint.Proofs.Session
import MethodFingerprint.Proofs.Pattern.Features
import MethodFingerprint.Proofs.Report
import MethodFingerprint.Proofs.Search.Limit
import MethodFingerprint.Proofs.Session.Shared
import MethodFingerprint.Proofs.Document.Json
import MethodFingerprint.Proofs.Method
import MethodFingerprint.Proofs.Pattern.Fault
import MethodFingerprint.Proofs.Pattern.Writing
import MethodFingerprint.Proofs.Pattern.Redundancy
import MethodFingerprint.Proofs.Pattern.Stability
import MethodFingerprint.Proofs.Pattern.Position
import MethodFingerprint.Proofs.Search.Peak
import MethodFingerprint.Proofs.Search.Bounds
import MethodFingerprint.Proofs.Index.Merge
import MethodFingerprint.Proofs.Fingerprint
import MethodFingerprint.Proofs.Pattern.Delimiting
import MethodFingerprint.Proofs.Database.Laws
import MethodFingerprint.Proofs.Database.Memory
import MethodFingerprint.Proofs.Database.Contents
import MethodFingerprint.Proofs.History.Transaction
import MethodFingerprint.Proofs.History.Opening
import MethodFingerprint.Proofs.History.Version
import MethodFingerprint.Proofs.Document.Codec
import MethodFingerprint.Proofs.History.Tables
import MethodFingerprint.Proofs.History.Listing
import MethodFingerprint.Proofs.History.Course
