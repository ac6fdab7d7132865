import FeatureLogic.Document.Reader
import FeatureLogic.FileSystem.Folder
import FeatureLogic.Main
import FeatureLogic.Proofs.Arena.Compression
import FeatureLogic.Proofs.Arena.Listing
import FeatureLogic.Proofs.Arena.Nesting
import FeatureLogic.Proofs.Arena.Persistence
import FeatureLogic.Proofs.Arena.Placement
import FeatureLogic.Proofs.Constraint.Deduplication
import FeatureLogic.Proofs.FeatureTree.Leaves
import FeatureLogic.Proofs.Interpretation.Idempotence
import FeatureLogic.Proofs.Interpretation.Merging
import FeatureLogic.Proofs.Search.Accounting
import FeatureLogic.Proofs.Search.Completeness
import FeatureLogic.Proofs.Search.Interchange
import FeatureLogic.Proofs.Search.Probability
import FeatureLogic.Proofs.Search.Renaming
import FeatureLogic.Proofs.Search.Wildcards
import FeatureLogic.Proofs.Signature.Compiling
import FeatureLogic.Proofs.Structure.Coindexing
import FeatureLogic.Proofs.Structure.Description
import FeatureLogic.Proofs.Structure.Feasibility
import FeatureLogic.Proofs.Structure.LeastModel
import FeatureLogic.Proofs.Structure.Placing
import FeatureLogic.Proofs.Structure.Selecting
