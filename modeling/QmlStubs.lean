import QmlStubs.Assessment
import QmlStubs.ModuleName
import QmlStubs.Snapshot.Store
import QmlStubs.Trace
import QmlStubs.TypesFile.Format
import QmlStubs.Toml.Document
import QmlStubs.Discovery
import QmlStubs.Registrar
import QmlStubs.Importer.Table
import QmlStubs.Importer.Helper
import QmlStubs.Scan
import QmlStubs.Stubs
import QmlStubs.Generator
import QmlStubs.Proofs.Convergence
import QmlStubs.Proofs.Changes
import QmlStubs.Proofs.Executing
import QmlStubs.Proofs.Globbing
import QmlStubs.Proofs.Keys
import QmlStubs.Proofs.RefreshedTree
import QmlStubs.Proofs.Pruning
import QmlStubs.Proofs.Replacing
import QmlStubs.Proofs.ScannedTree
import QmlStubs.Proofs.RegistrarRuns
import QmlStubs.Proofs.Aborting
import QmlStubs.Proofs.Repeating
import QmlStubs.Proofs.OutputTree
import QmlStubs.Proofs.Conversation
import QmlStubs.Proofs.Rebuilding
import QmlStubs.Proofs.RelativeInputs
import QmlStubs.Proofs.Exactness
import QmlStubs.Proofs.Reloading
import QmlStubs.Proofs.Namespaces
import QmlStubs.Proofs.Passes
import QmlStubs.Proofs.RecordedNames
import QmlStubs.Proofs.Containment
import QmlStubs.Proofs.RegistrationOrder
import QmlStubs.Proofs.Blocking
import QmlStubs.Proofs.Interruptions
import QmlStubs.Proofs.TypesPaths
import QmlStubs.Proofs.SourceNames
import QmlStubs.Proofs.IgnoredDirectories
import QmlStubs.Proofs.OverlappingInputs
