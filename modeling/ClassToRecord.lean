import ClassToRecord.Configuration
import ClassToRecord.Conversion.Commit
import ClassToRecord.Json.Report
import ClassToRecord.Project.Builder
import ClassToRecord.Proofs.Rename.Phase
import ClassToRecord.Proofs.Conversion.Edit
import ClassToRecord.Proofs.Conversion.Commit
import ClassToRecord.Proofs.Project.WellFormed
import ClassToRecord.Proofs.Project.Replace
import ClassToRecord.Proofs.Record.Children
import ClassToRecord.Proofs.Conversion.WellFormed
import ClassToRecord.Proofs.Conversion.Prepare
import ClassToRecord.Proofs.Conversion.Coverage
import ClassToRecord.Proofs.Usage.Origin
import ClassToRecord.Proofs.Conversion.Analysis
import ClassToRecord.Proofs.Conversion.Methods
import ClassToRecord.Proofs.Conversion.Namesakes
import ClassToRecord.Proofs.Conversion.OverrideLinks
import ClassToRecord.Proofs.Conversion.Stale
import ClassToRecord.Proofs.Record.Identities
import ClassToRecord.Proofs.Record.Accessors
import ClassToRecord.Proofs.Record.LineComments
import ClassToRecord.Proofs.Record.Canonical
import ClassToRecord.Proofs.Record.FieldOrder
import ClassToRecord.Proofs.Conversion.Identities
import ClassToRecord.Proofs.Conversion.Preview
import ClassToRecord.Proofs.Project.Place
import ClassToRecord.Proofs.Rename.Place
import ClassToRecord.Proofs.Usage.Place
import ClassToRecord.Proofs.Conversion.Unrelated
import ClassToRecord.Proofs.Project.Ledger
import ClassToRecord.Proofs.Project.Building
import ClassToRecord.Proofs.Conversion.History
import ClassToRecord.Proofs.Conversion.Once
import ClassToRecord.Proofs.Conversion.Report
import ClassToRecord.Proofs.Conversion.Preconditions
import ClassToRecord.Proofs.Conversion.Listing
import ClassToRecord.Proofs.Conversion.Classification
import ClassToRecord.Proofs.Json.Basic
import ClassToRecord.Proofs.Json.Syntax
import ClassToRecord.Proofs.Json.Report
import ClassToRecord.Proofs.Hierarchy.Walk
import ClassToRecord.Proofs.Usage.Run
import ClassToRecord.Proofs.Usage.Exact
import ClassToRecord.Proofs.Usage.Coherence
import ClassToRecord.Proofs.Usage.Collisions
import ClassToRecord.Proofs.Rename.Order
import ClassToRecord.Proofs.Rename.Outcome
import ClassToRecord.Proofs.Syntax.Merging
import ClassToRecord.Proofs.Record.Merging
