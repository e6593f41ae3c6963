import TypeGraph.Main
import TypeGraph.Disk.Tree
import TypeGraph.Proofs.TypeRef.RoundTrip
import TypeGraph.Proofs.TypeRef.Composition
import TypeGraph.Proofs.TypeRef.Misplaced
import TypeGraph.Proofs.System.References
import TypeGraph.Proofs.System.FailedLoad
import TypeGraph.Proofs.System.ExactLoad
import TypeGraph.Proofs.System.Together
import TypeGraph.Proofs.System.Memoisation
import TypeGraph.Proofs.System.Totality
import TypeGraph.Proofs.System.Acyclic
import TypeGraph.Proofs.System.Arena
import TypeGraph.Proofs.System.Pieces
import TypeGraph.Proofs.System.Isolation
import TypeGraph.Proofs.System.Requests
import TypeGraph.Proofs.System.Extends
import TypeGraph.Proofs.System.Documented
import TypeGraph.Proofs.System.Consulted
import TypeGraph.Proofs.Manifest.WellFormed
import TypeGraph.Proofs.Manifest.Padding
import TypeGraph.Proofs.Manifest.Respelling
import TypeGraph.Proofs.System.Cycles
import TypeGraph.Proofs.System.Reasons
import TypeGraph.Proofs.CommandLine.Exit
import TypeGraph.Proofs.System.Implementations
import TypeGraph.Proofs.System.Members
import TypeGraph.Proofs.System.DataTypes
import TypeGraph.Proofs.System.Waves
import TypeGraph.Proofs.TypeRef.TypeNames
import TypeGraph.Proofs.Manifest.Declared
import TypeGraph.Proofs.Manifest.ShortNames
import TypeGraph.Proofs.Manifest.Attribution
import TypeGraph.Proofs.Manifest.ParameterLists
import TypeGraph.Proofs.Registry.History
import TypeGraph.Proofs.Resolver.MergedRoots
import TypeGraph.Proofs.CommandLine.ValidSources
