import Shading.Main
import Shading.Request.Encode
import Shading.Proofs.Names
import Shading.Proofs.Order
import Shading.Proofs.Builders
import Shading.Proofs.Emission
import Shading.Proofs.Run
import Shading.Proofs.Naming
import Shading.Proofs.Stage
import Shading.Proofs.Plan
import Shading.Proofs.Schedule
import Shading.Proofs.Acceptance
import Shading.Proofs.Scope
import Shading.Proofs.Parallel
import Shading.Proofs.Inlining
import Shading.Proofs.Likeness
import Shading.Proofs.Inventory
import Shading.Proofs.Header
import Shading.Proofs.Slots
import Shading.Proofs.Meaning
import Shading.Proofs.Returning
import Shading.Proofs.History
import Shading.Proofs.Isolation
import Shading.Proofs.Orphans
import Shading.Proofs.Renaming
import Shading.Proofs.Equivariance
import Shading.Proofs.Functions
import Shading.Proofs.Shadowing
import Shading.Proofs.Conversions
import Shading.Proofs.Calls
import Shading.Proofs.Repetition
import Shading.Proofs.Capture
import Shading.Proofs.Declared
import Shading.Proofs.Brackets
import Shading.Proofs.Grouping
import Shading.Proofs.Sorting
import Shading.Proofs.Ledger
import Shading.Proofs.Rounding
import Shading.Proofs.Numerals
import Shading.Proofs.Decimals
import Shading.Proofs.Lexemes
import Shading.Proofs.Documents
import Shading.Proofs.Records
import Shading.Proofs.Rendering
import Shading.Proofs.Variants
import Shading.Proofs.Rewriting
import Shading.Proofs.RoundTrip
import Shading.Proofs.Representation
import Shading.Proofs.Footprint
import Shading.Proofs.Definitions
import Shading.Proofs.Uses
import Shading.Proofs.Postorder
import Shading.Proofs.Registry
import Shading.Proofs.Resolution
import Shading.Proofs.Operators
import Shading.Proofs.Atoms
import Shading.Proofs.Suffixes
