import SmallLisp.Main
import SmallLisp.Reader.Progress
import SmallLisp.Token.Progress
import SmallLisp.World.Copy
import SmallLisp.Value.Sharing
import SmallLisp.Proofs.Session.Scoped
import SmallLisp.Proofs.Session.Isolation
import SmallLisp.Proofs.Analysis.Expansion
import SmallLisp.Proofs.Token.Boundary
import SmallLisp.Proofs.Token.Joint
import SmallLisp.Proofs.Reader.Shape
import SmallLisp.Proofs.Reader.Forms
import SmallLisp.Proofs.Reader.Texts
import SmallLisp.Proofs.Reader.Results
import SmallLisp.Proofs.Reader.Moved
import SmallLisp.Proofs.Session.Sequence
import SmallLisp.Proofs.Repl.Incomplete
import SmallLisp.Proofs.Repl.Agreement
import SmallLisp.Proofs.Token.Cut
import SmallLisp.Proofs.Reader.Nesting
import SmallLisp.Proofs.Reader.Recovery
import SmallLisp.Proofs.Token.OpenString
import SmallLisp.Proofs.Token.Spelling
import SmallLisp.Proofs.Token.Written
import SmallLisp.Proofs.Reader.Completion
import SmallLisp.Proofs.Analysis.Limit
import SmallLisp.Proofs.Analysis.Definition
import SmallLisp.Proofs.Value.Entries
import SmallLisp.Proofs.Value.Parts
import SmallLisp.Proofs.Value.Written
import SmallLisp.Proofs.Value.Tokens
import SmallLisp.Proofs.Session.Keywords
import SmallLisp.Proofs.Reader.Written
import SmallLisp.Proofs.Reader.Printed
import SmallLisp.Proofs.Reader.Grammar
import SmallLisp.Proofs.World.Permanence
import SmallLisp.Proofs.World.Registered
import SmallLisp.Proofs.World.Copies
import SmallLisp.Proofs.World.Image
import SmallLisp.Proofs.World.Sections
import SmallLisp.Proofs.World.Interruption
import SmallLisp.Proofs.Session.Permanence
import SmallLisp.Proofs.Session.Copies
import SmallLisp.Proofs.Session.Interleaving
import SmallLisp.Proofs.Session.Threads
import SmallLisp.Proofs.Analysis.Counting
import SmallLisp.Proofs.Analysis.Inert
import SmallLisp.Proofs.World.Names
import SmallLisp.Proofs.Session.Generated
import SmallLisp.Value.Hash
import SmallLisp.Proofs.Value.Objects
import SmallLisp.Proofs.World.Objects
import SmallLisp.Proofs.Action.Objects
import SmallLisp.Proofs.Native.Objects
import SmallLisp.Proofs.Evaluation.Objects
import SmallLisp.Proofs.Analysis.Objects
import SmallLisp.Proofs.Reader.Objects
import SmallLisp.Proofs.Session.Objects
import SmallLisp.Proofs.Value.Congruence
import SmallLisp.Proofs.Value.Hash
import SmallLisp.Proofs.Session.Equality
import SmallLisp.Proofs.Session.Lookup
import SmallLisp.Proofs.Native.Arithmetic
import SmallLisp.Proofs.Repl.Waiting
import SmallLisp.Proofs.Repl.Reports
import SmallLisp.Proofs.CommandLine.Expressions
import SmallLisp.Proofs.Native.Symbols
import SmallLisp.Proofs.Reader.Depth
import SmallLisp.Proofs.Session.Quiet
