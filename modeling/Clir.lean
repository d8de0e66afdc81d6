import Clir.Lib.Graph
import Clir.Lib.Region
import Clir.Lib.Dfs
import Clir.Lib.Fixpoint
import Clir.Lib.Command
import Clir.Ir.Types
import Clir.Ir.Opcode
import Clir.Lib.PrimaryMap
import Clir.Ir.Function
import Clir.Lib.ListEdit
import Clir.Ir.Cursor
import Clir.Ir.FlowGraph
import Clir.Cf.Construct
import Clir.Ir.CursorSpec
import Clir.Cf.Edits
import Clir.Cf.Replace
import Clir.Cf.Append
import Clir.Cf.Substitute
import Clir.Cf.Kinds
import Clir.Cf.Refinement
import Clir.Cf.Skeleton
import Clir.Cf.Levels
import Clir.Cf.Guarantees
import Clir.Gen.Dominators
import Clir.Gen.Config
import Clir.Gen.Select
import Clir.Gen.Populate
import Clir.Gen.Generator
import Clir.Gen.Invoke
import Clir.Lib.Ensures
import Clir.Ir.Values
import Clir.Ir.Memory
import Clir.Gen.Keeps
import Clir.Gen.Emit
import Clir.Gen.Typing
import Clir.Gen.Valid
import Clir.Gen.Intersect
import Clir.Gen.Working
import Clir.Gen.PopulateSpec
import Clir.Gen.InPlace
import Clir.Gen.Seed
import Clir.Gen.Fill
import Clir.Gen.Join
import Clir.Gen.Complete
import Clir.Gen.Build
import Clir.Gen.InvokeSpec
import Clir.Gen.Guarantees
import Clir.Gen.Safety
import Clir.Gen.JoinTypes
import Clir.Gen.PopulatePanics
import Clir.Gen.Compatible
import Clir.Lib.Panics
import Clir.Corpus.Json
import Clir.Corpus.Store
import Clir.Cg.CallGraph
import Clir.Cg.Program
import Clir.Gen.Arms
import Clir.Gen.References
import Clir.Gen.TwoLists
import Clir.Corpus.Serialise
import Clir.Lib.Streams
import Clir.Gen.Coverage
import Clir.Gen.Interface
import Clir.Gen.Supported
import Clir.Gen.Coherent
import Clir.Cg.Guarantees
import Clir.Cg.Files
import Clir.Run.Generated
