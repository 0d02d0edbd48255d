import FrontendAudit.Disk.Workspace
import FrontendAudit.Main
import FrontendAudit.Proofs.Keyed
import FrontendAudit.Proofs.Reports
import FrontendAudit.Proofs.Merge
import FrontendAudit.Proofs.Cancellation
import FrontendAudit.Proofs.Path
import FrontendAudit.Proofs.Tree
import FrontendAudit.Proofs.Walk
import FrontendAudit.Proofs.Bytes
import FrontendAudit.Proofs.WalkOrder
import FrontendAudit.Proofs.Lines
import FrontendAudit.Proofs.Search
import FrontendAudit.Proofs.Value
import FrontendAudit.Proofs.Spacing
import FrontendAudit.Proofs.Violation
import FrontendAudit.Proofs.Line
import FrontendAudit.Proofs.Declarations
import FrontendAudit.Proofs.Gate
import FrontendAudit.Proofs.Endings
import FrontendAudit.Proofs.Document
import FrontendAudit.Proofs.Page
import FrontendAudit.Proofs.Arguments
import FrontendAudit.Proofs.Operands
import FrontendAudit.Proofs.InPlace
import FrontendAudit.Proofs.LogLevel
import FrontendAudit.Proofs.Excluded
import FrontendAudit.Proofs.Context
import FrontendAudit.Proofs.Rules
import FrontendAudit.Proofs.Concatenation
import FrontendAudit.Proofs.Surroundings
import FrontendAudit.Proofs.Loss
import FrontendAudit.Proofs.Isolation
import FrontendAudit.Proofs.Encoding
import FrontendAudit.Proofs.ArbitraryValues
import FrontendAudit.Proofs.Shape
import FrontendAudit.Proofs.OncePerLine
import FrontendAudit.Proofs.CommandLine
import FrontendAudit.Proofs.Contents
import FrontendAudit.Proofs.Terminator
import FrontendAudit.Proofs.TrailingSeparator
import FrontendAudit.Log.Logger
import FrontendAudit.Proofs.Decimal
import FrontendAudit.Proofs.LevelHistory
import FrontendAudit.Proofs.Colour
import FrontendAudit.Proofs.Edits
