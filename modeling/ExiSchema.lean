import ExiSchema.CommandLine.Machine
import ExiSchema.Draft.Operation
import ExiSchema.Grammar.Named
import ExiSchema.Grammar.Shape
import ExiSchema.Main
import ExiSchema.Proofs.Draft.Content
import ExiSchema.Proofs.Draft.Canonical
import ExiSchema.Proofs.Sorted.Agreement
import ExiSchema.Schema.Meaning
import ExiSchema.Schema.Parts
import ExiSchema.Table.Registration
import ExiSchema.Text.Hash
import ExiSchema.Proofs.Draft.References
import ExiSchema.Proofs.Draft.Shape
import ExiSchema.Proofs.Draft.Failing
import ExiSchema.Proofs.Draft.Reordered
import ExiSchema.Proofs.Draft.Alone
import ExiSchema.Proofs.Draft.Lasting
import ExiSchema.Proofs.Draft.Handles
import ExiSchema.Proofs.Draft.Settling
import ExiSchema.Proofs.Draft.Locals
import ExiSchema.Proofs.Sorted.Increasing
import ExiSchema.Proofs.Draft.Finishing
import ExiSchema.Proofs.Grammar.Segments
import ExiSchema.Proofs.Draft.Repeating
import ExiSchema.Proofs.Draft.Chaining
import ExiSchema.Proofs.Draft.Choosing
import ExiSchema.Proofs.Draft.Mixing
import ExiSchema.Proofs.Model.Attributes
import ExiSchema.Proofs.Draft.Attributes
import ExiSchema.Proofs.Table.Lookup
import ExiSchema.Proofs.Sorted.Stability
import ExiSchema.Proofs.Draft.Finding
import ExiSchema.Proofs.Draft.Copies
import ExiSchema.Proofs.Draft.Skipping
import ExiSchema.Proofs.Draft.Permuting
import ExiSchema.Proofs.Draft.Listing
import ExiSchema.Proofs.Draft.Scoping
import ExiSchema.Proofs.Name
import ExiSchema.Proofs.Text.Comparing
import ExiSchema.Proofs.Draft.Balancing
import ExiSchema.Proofs.Draft.Sharing
import ExiSchema.Proofs.Text.Splitting
import ExiSchema.Proofs.Draft.Overflow
