import BlockLang.Bytecode.Codec
import BlockLang.Bytecode.Emit
import BlockLang.Bytecode.Listing
import BlockLang.Bytecode.Op
import BlockLang.Bytecode.Program
import BlockLang.Cache
import BlockLang.Cbor.Basic
import BlockLang.Cbor.Decode
import BlockLang.CommandLine.App
import BlockLang.CommandLine.Flag
import BlockLang.CommandLine.FlagSet
import BlockLang.Compilation
import BlockLang.Diagnostic
import BlockLang.Digest
import BlockLang.Disk.Basic
import BlockLang.Disk.Path
import BlockLang.Disk.Pattern
import BlockLang.Duration
import BlockLang.Golden.Basic
import BlockLang.Golden.Job
import BlockLang.Golden.Pool
import BlockLang.Golden.Suite
import BlockLang.Golden.Verdict
import BlockLang.Json.Basic
import BlockLang.Json.Read
import BlockLang.Log
import BlockLang.Machine.Fault
import BlockLang.Machine.Heap
import BlockLang.Machine.Run
import BlockLang.Machine.Step
import BlockLang.Machine.Value
import BlockLang.Main
import BlockLang.Markdown.Block
import BlockLang.Markdown.Inline
import BlockLang.Markdown.Line
import BlockLang.Markdown.Reference
import BlockLang.Markdown.Tag
import BlockLang.Proofs.Alteration
import BlockLang.Proofs.Arguments
import BlockLang.Proofs.Binding
import BlockLang.Proofs.Caching
import BlockLang.Proofs.Checking
import BlockLang.Proofs.Confinement
import BlockLang.Proofs.Containment
import BlockLang.Proofs.Correctness
import BlockLang.Proofs.Counting
import BlockLang.Proofs.Coverage
import BlockLang.Proofs.Demands
import BlockLang.Proofs.Denotation
import BlockLang.Proofs.Depth
import BlockLang.Proofs.Descent
import BlockLang.Proofs.Effects
import BlockLang.Proofs.Emission
import BlockLang.Proofs.Encoding
import BlockLang.Proofs.Escapes
import BlockLang.Proofs.Excerpts
import BlockLang.Proofs.Exits
import BlockLang.Proofs.Features
import BlockLang.Proofs.Folders
import BlockLang.Proofs.Grammar
import BlockLang.Proofs.Heap
import BlockLang.Proofs.Isolation
import BlockLang.Proofs.Layout
import BlockLang.Proofs.Legibility
import BlockLang.Proofs.Lifetime
import BlockLang.Proofs.Listings
import BlockLang.Proofs.Literals
import BlockLang.Proofs.Loading
import BlockLang.Proofs.Meaning
import BlockLang.Proofs.Mentions
import BlockLang.Proofs.Numerals
import BlockLang.Proofs.Outlines
import BlockLang.Proofs.Parsing
import BlockLang.Proofs.Phrases
import BlockLang.Proofs.Pieces
import BlockLang.Proofs.Places
import BlockLang.Proofs.Plain
import BlockLang.Proofs.Precedence
import BlockLang.Proofs.Quotation
import BlockLang.Proofs.Reading
import BlockLang.Proofs.Recovery
import BlockLang.Proofs.Release
import BlockLang.Proofs.Renaming
import BlockLang.Proofs.Rendering
import BlockLang.Proofs.Repetition
import BlockLang.Proofs.Resolution
import BlockLang.Proofs.Rules
import BlockLang.Proofs.Safety
import BlockLang.Proofs.Scoping
import BlockLang.Proofs.Sections
import BlockLang.Proofs.Sequence
import BlockLang.Proofs.Simulation
import BlockLang.Proofs.Soundness
import BlockLang.Proofs.Spelling
import BlockLang.Proofs.Storage
import BlockLang.Proofs.Substitution
import BlockLang.Proofs.Tables
import BlockLang.Proofs.Turns
import BlockLang.Proofs.Typing
import BlockLang.Proofs.Usage
import BlockLang.Proofs.Utf8
import BlockLang.Proofs.Validity
import BlockLang.Proofs.Warnings
import BlockLang.Proofs.Wrapping
import BlockLang.Settings
import BlockLang.Settings.Environment
import BlockLang.Settings.File
import BlockLang.Settings.Flags
import BlockLang.TestCase
import BlockLang.Text.Blank
import BlockLang.Text.Decimal
import BlockLang.Text.Digit
import BlockLang.Text.Fold
import BlockLang.Text.Hex
import BlockLang.Text.Letter
import BlockLang.Text.Pad
import BlockLang.Text.Printable
import BlockLang.Text.Punctuation
import BlockLang.Text.Quoted
import BlockLang.Text.Ranges
import BlockLang.Text.Utf8
import BlockLang.Text.Wrap
import BlockLang.Token.Basic
import BlockLang.Token.Scan
import BlockLang.Toml.Basic
import BlockLang.Toml.Read
import BlockLang.Toml.Scalar
import BlockLang.Tool.Compiler
import BlockLang.Tool.Session
import BlockLang.Tool.Tester
import BlockLang.Tree.Basic
import BlockLang.Tree.Check
import BlockLang.Tree.Outline
import BlockLang.Tree.Parse
import BlockLang.Tree.Resolve
