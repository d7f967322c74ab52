import ZMachine.Assembler.Objects
import ZMachine.Main
import ZMachine.Proofs.Ascending
import ZMachine.Proofs.Batches
import ZMachine.Proofs.Bytes
import ZMachine.Proofs.Calls
import ZMachine.Proofs.Capturing
import ZMachine.Proofs.Characters
import ZMachine.Proofs.Checksums
import ZMachine.Proofs.Coherence
import ZMachine.Proofs.ContainerBounds
import ZMachine.Proofs.ContainerImage
import ZMachine.Proofs.Course
import ZMachine.Proofs.Coverage
import ZMachine.Proofs.DictionarySearch
import ZMachine.Proofs.DictionaryWords
import ZMachine.Proofs.Discovery
import ZMachine.Proofs.Entirety
import ZMachine.Proofs.Extent
import ZMachine.Proofs.Forgetting
import ZMachine.Proofs.HelperNeeds
import ZMachine.Proofs.Locality
import ZMachine.Proofs.Memoisation
import ZMachine.Proofs.Mirroring
import ZMachine.Proofs.Nesting
import ZMachine.Proofs.ObjectFields
import ZMachine.Proofs.ObjectNames
import ZMachine.Proofs.ParseTables
import ZMachine.Proofs.Partition
import ZMachine.Proofs.RandomNumbers
import ZMachine.Proofs.Replaying
import ZMachine.Proofs.RestartedCode
import ZMachine.Proofs.Sessions
import ZMachine.Proofs.Simulation
import ZMachine.Proofs.Splitting
import ZMachine.Proofs.StackDiscipline
import ZMachine.Proofs.TableCopies
import ZMachine.Proofs.TextBuffers
import ZMachine.Proofs.TextRoundTrip
import ZMachine.Proofs.UserStack
