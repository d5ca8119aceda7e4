import SchemaScript.CommandLine
import SchemaScript.Compile
import SchemaScript.Error
import SchemaScript.Event
import SchemaScript.FileTree
import SchemaScript.Job
import SchemaScript.Main
import SchemaScript.Position
import SchemaScript.Proofs.Acceptance
import SchemaScript.Proofs.Attachment
import SchemaScript.Proofs.ClauseOrder
import SchemaScript.Proofs.CommandLines
import SchemaScript.Proofs.Completion
import SchemaScript.Proofs.Containment
import SchemaScript.Proofs.Decoding
import SchemaScript.Proofs.Derivation
import SchemaScript.Proofs.Determinacy
import SchemaScript.Proofs.Files
import SchemaScript.Proofs.ForeignKeys
import SchemaScript.Proofs.Generation
import SchemaScript.Proofs.Grammar
import SchemaScript.Proofs.Indexing
import SchemaScript.Proofs.Invariant
import SchemaScript.Proofs.Jobs
import SchemaScript.Proofs.Layout
import SchemaScript.Proofs.Locating
import SchemaScript.Proofs.Logging
import SchemaScript.Proofs.Lookup
import SchemaScript.Proofs.Meaning
import SchemaScript.Proofs.Messages
import SchemaScript.Proofs.Modularity
import SchemaScript.Proofs.Munch
import SchemaScript.Proofs.Precedence
import SchemaScript.Proofs.Printing
import SchemaScript.Proofs.Progress
import SchemaScript.Proofs.Quoting
import SchemaScript.Proofs.Reading
import SchemaScript.Proofs.Refusal
import SchemaScript.Proofs.Reordering
import SchemaScript.Proofs.Rescanning
import SchemaScript.Proofs.Rewriting
import SchemaScript.Proofs.Scanning
import SchemaScript.Proofs.Splicing
import SchemaScript.Proofs.Stopping
import SchemaScript.Proofs.Summary
import SchemaScript.Proofs.Usability
import SchemaScript.Proofs.WellFormed
import SchemaScript.Proofs.Writing
import SchemaScript.Schema.Attribute
import SchemaScript.Schema.Basic
import SchemaScript.Schema.Clause
import SchemaScript.Schema.Configuration
import SchemaScript.Schema.Draft
import SchemaScript.Sql.Dialect
import SchemaScript.Sql.Generate
import SchemaScript.Sql.Statement
import SchemaScript.Token
import SchemaScript.Token.Cursor
import SchemaScript.Token.Lexeme
import SchemaScript.Token.Script
