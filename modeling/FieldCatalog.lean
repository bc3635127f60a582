import FieldCatalog.FieldType.Probe
import FieldCatalog.Http.Server
import FieldCatalog.Session
import FieldCatalog.Settings
import FieldCatalog.Proofs.Listing.Arrangement
import FieldCatalog.Proofs.Store.Settlement
import FieldCatalog.Proofs.Listing.Resequencing
import FieldCatalog.Proofs.Catalog.CategoryEffect
import FieldCatalog.Proofs.Catalog.FieldEffect
import FieldCatalog.Proofs.Catalog.Change
import FieldCatalog.Proofs.Catalog.Guarantee
import FieldCatalog.Proofs.Catalog.Calling
import FieldCatalog.Proofs.Catalog.Contiguity
import FieldCatalog.Proofs.Catalog.Operations
import FieldCatalog.Proofs.Action.Answering
import FieldCatalog.Proofs.Catalog.Validity
import FieldCatalog.Proofs.Session.Lasting
import FieldCatalog.Proofs.Session.Invariants
import FieldCatalog.Catalog.Inquiry
import FieldCatalog.Proofs.Catalog.Safety
import FieldCatalog.Proofs.Catalog.Isolation
import FieldCatalog.Proofs.FieldType.Preparation
import FieldCatalog.Proofs.FieldType.Acceptance
import FieldCatalog.Proofs.Catalog.Editing
import FieldCatalog.Proofs.Json.Canonical
import FieldCatalog.Proofs.Json.Token
import FieldCatalog.Proofs.Json.Roundtrip
import FieldCatalog.Proofs.Action.Roundtrip
import FieldCatalog.Proofs.Store.Keeping
import FieldCatalog.Proofs.Catalog.Configuration
import FieldCatalog.Proofs.Session.Configuration
import FieldCatalog.Proofs.Listing.Placement
import FieldCatalog.Proofs.Catalog.Dragging
import FieldCatalog.Proofs.Catalog.Stepping
import FieldCatalog.Proofs.Catalog.Part
import FieldCatalog.Proofs.Catalog.Locality
import FieldCatalog.Proofs.Catalog.Commutation
import FieldCatalog.Proofs.Catalog.Agreement
import FieldCatalog.Proofs.Catalog.Entries
import FieldCatalog.Proofs.Catalog.Deletion
import FieldCatalog.Proofs.Text.Naming
import FieldCatalog.Proofs.Catalog.Creation
import FieldCatalog.Proofs.Catalog.Renumbering
import FieldCatalog.Proofs.Catalog.Retrying
import FieldCatalog.Proofs.Session.Locking
import FieldCatalog.Proofs.Catalog.Touching
import FieldCatalog.Proofs.Catalog.Repetition
import FieldCatalog.Proofs.Catalog.Gathering
import FieldCatalog.Proofs.FieldType.Options
import FieldCatalog.Proofs.Store.Putting
import FieldCatalog.Proofs.Json.Spelling
import FieldCatalog.Proofs.Action.Description
import FieldCatalog.Proofs.Action.Spelling
import FieldCatalog.Proofs.Listing.Reinsertion
import FieldCatalog.Proofs.Catalog.Ranking
import FieldCatalog.Proofs.FieldType.Registration
import FieldCatalog.Proofs.Settings.Layering
import FieldCatalog.Proofs.Store.Positions
