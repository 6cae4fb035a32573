import Orochimaru.Lib.Literals
import Orochimaru.Lib.Positional
import Orochimaru.Lib.Accesses
import Orochimaru.Lib.Loops
import Orochimaru.Lib.Lucas
import Orochimaru.Lib.FlatMemory
import Orochimaru.Lib.Switching
import Orochimaru.Lib.Transactions
import Orochimaru.Lib.Interleaving
import Orochimaru.Lib.Guarantees
import Orochimaru.Lib.Observers
import Orochimaru.Lib.Processes
import Orochimaru.Zkmemory.Base
import Orochimaru.Zkmemory.Machine
import Orochimaru.Zkmemory.MachineCells
import Orochimaru.Zkmemory.MachineTrace
import Orochimaru.Zkmemory.MachineBytes
import Orochimaru.Zkmemory.MachineFrame
import Orochimaru.Zkmemory.Config
import Orochimaru.Zkmemory.ConfigCells
import Orochimaru.Zkmemory.ConfigIsolation
import Orochimaru.Zkmemory.StackRefinement
import Orochimaru.Zkmemory.Zincplus.Benes
import Orochimaru.Zkmemory.Zincplus.Coloring
import Orochimaru.Zkmemory.Zincplus.Routing
import Orochimaru.Zkmemory.Zincplus.ColorTrails
import Orochimaru.Zkmemory.Zincplus.Uair
import Orochimaru.Zkmemory.Zincplus.Equations
import Orochimaru.Zkmemory.Zincplus.NetworkLayers
import Orochimaru.Zkmemory.Zincplus.Magnitudes
import Orochimaru.Zkmemory.Zincplus.Soundness
import Orochimaru.Zkmemory.Zincplus.Builder
import Orochimaru.Zkmemory.Zincplus.Witness
import Orochimaru.Zkmemory.Zincplus.BuilderRun
import Orochimaru.Zkmemory.Zincplus.Completeness
import Orochimaru.Zkmemory.Zincplus.MachineRuns
import Orochimaru.Zkmemory.Constraints.PastaFp
import Orochimaru.Lib.Plonkish
import Orochimaru.Lib.FieldDigits
import Orochimaru.Zkmemory.Constraints.Gadgets
import Orochimaru.Zkmemory.Constraints.Ordering
import Orochimaru.Zkmemory.Constraints.SortedMemory
import Orochimaru.Zkmemory.Constraints.OriginalMemory
import Orochimaru.Zkmemory.Constraints.SortedEquations
import Orochimaru.Zkmemory.Constraints.Records
import Orochimaru.Zkmemory.Constraints.SortedAssignment
import Orochimaru.Zkmemory.Constraints.SortedSoundness
import Orochimaru.Zkmemory.Constraints.OriginalAssignment
import Orochimaru.Zkmemory.Constraints.ConsistencyCheck
import Orochimaru.Zkmemory.Constraints.ConsistencyLink
import Orochimaru.Zkmemory.Constraints.KeyComparison
import Orochimaru.Zkmemory.Constraints.TimeOrder
import Orochimaru.Zkmemory.Constraints.OriginalRejection
import Orochimaru.Zkmemory.Backends
import Orochimaru.Zkmemory.Halo2Contract
import Orochimaru.Lib.R1cs
import Orochimaru.Zkmemory.Folding.MerkleCommit
import Orochimaru.Zkmemory.Folding.Cells
import Orochimaru.Zkmemory.Folding.Nova
import Orochimaru.Zkmemory.Folding.NovaSoundness
import Orochimaru.Zkmemory.Folding.NovaRuns
import Orochimaru.Zkmemory.Folding.SuperNova
import Orochimaru.Zkmemory.Folding.SuperNovaSoundness
import Orochimaru.Zkmemory.Folding.SuperNovaRuns
import Orochimaru.Zkmemory.Folding.SuperNovaShape
import Orochimaru.Lib.MerkleTree
import Orochimaru.Zkmemory.Folding.MerkleBinding
import Orochimaru.Lib.ShortWeierstrass
import Orochimaru.Libecvrf.Constants
import Orochimaru.Libecvrf.Secp256k1
import Orochimaru.Libecvrf.Hash
import Orochimaru.Libecvrf.ProjectiveAdd
import Orochimaru.Libecvrf.Helper
import Orochimaru.Lib.DlogEquality
import Orochimaru.Libecvrf.Ecvrf
import Orochimaru.Libecvrf.KeyPair
import Orochimaru.Libecvrf.Soundness
import Orochimaru.Libecvrf.FieldHash
import Orochimaru.Libecvrf.HashToCurve
import Orochimaru.Libecvrf.ContractProof
import Orochimaru.Lib.Layouter
import Orochimaru.Poseidon.Hash
import Orochimaru.Poseidon.Permutation
import Orochimaru.Poseidon.Reference
import Orochimaru.Poseidon.Circuit
import Orochimaru.Poseidon.Rounds
import Orochimaru.Poseidon.Sponge
import Orochimaru.Poseidon.Soundness
import Orochimaru.Poseidon.OrchardNullifier
import Orochimaru.Zkmemory.Commitment.MerkleTree
import Orochimaru.Zkmemory.Commitment.MerkleSoundness
import Orochimaru.Zkmemory.Commitment.VerkleSoundness
import Orochimaru.Zkmemory.Commitment.PathBinding
import Orochimaru.Zkmemory.Commitment.Kzg
import Orochimaru.Lib.Vectors
import Orochimaru.Zkmemory.Zincplus.BenesVec
import Orochimaru.Zkmemory.Constraints.FieldConversions
import Orochimaru.Lib.LinearForms
import Orochimaru.Zkmemory.Constraints.Compression
import Orochimaru.Zkmemory.Zincplus.BuilderVec
import Orochimaru.Zkmemory.Zincplus.BuilderContract
import Orochimaru.Node.Hex
import Orochimaru.Node.Database
import Orochimaru.Node.Rpc
import Orochimaru.Node.RequestGrammar
import Orochimaru.Node.Jwt
import Orochimaru.Node.SafeInsert
import Orochimaru.Node.EpochChain
import Orochimaru.Node.EpochProgress
import Orochimaru.Node.EpochRuns
import Orochimaru.Node.WitnessAddress
import Orochimaru.Node.Service
import Orochimaru.Node.Effects
import Orochimaru.Node.ServiceRuns
import Orochimaru.Node.ServiceProgress
import Orochimaru.Node.Serving
import Orochimaru.Node.Secrets
import Orochimaru.Node.Consistency
import Orochimaru.Node.EpochQueries
import Orochimaru.Node.OperatorProofs
import Orochimaru.Node.Accounts
import Orochimaru.Node.Deployment
import Orochimaru.Node.SingleNode
