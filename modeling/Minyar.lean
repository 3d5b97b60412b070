import Minyar.Library.Acyclic
import Minyar.Library.CountedGraph
import Minyar.Library.ByteMemory
import Minyar.Library.BuddyTiling
import Minyar.Library.DoublyLinked
import Minyar.Library.Brackets
import Minyar.Types.TypeCode
import Minyar.Types.ListMutation
import Minyar.Types.TypedHeap
import Minyar.Types.MutationCheck
import Minyar.Pool.Model
import Minyar.Pool.Invariant
import Minyar.Pool.Hole
import Minyar.Pool.Run
import Minyar.Compiler.Tokens
import Minyar.Compiler.IndexAssignment
import Minyar.Rc.Objects
import Minyar.Rc.Cursor
import Minyar.Rc.Ownership
import Minyar.Rc.Drop
import Minyar.Rc.Units
import Minyar.Rc.Poll
import Minyar.Rc.Service
import Minyar.Rc.Fusion
import Minyar.Rc.Ledger
import Minyar.Rc.Operations
import Minyar.Rc.Mutator
import Minyar.Rc.Lists
import Minyar.Rc.Values
import Minyar.Rc.Activations
import Minyar.Rc.Run
import Minyar.Library.Utf8
import Minyar.Text.Decode
import Minyar.Text.Index
import Minyar.Library.Machine
import Minyar.Text.History
import Minyar.Modules.Fields
import Minyar.Modules.CacheFile
import Minyar.Modules.Delta
import Minyar.Rc.WorkLimits
import Minyar.Rc.ServiceRuns
import Minyar.Rc.Fairness
import Minyar.Pool.Calls
import Minyar.Pool.Frame
import Minyar.Pool.Resize
import Minyar.Rc.Drained
import Minyar.Rc.StackFrames
import Minyar.Library.SinglyLinked
import Minyar.Rc.Heap
import Minyar.Rc.FrameCache
import Minyar.Rc.FrameLists
import Minyar.Rc.FrameRun
import Minyar.Rc.Kinds
import Minyar.Rc.ImmortalLists
import Minyar.Library.Decimal
import Minyar.Library.Precedence
import Minyar.Compiler.Grouping
import Minyar.Compiler.Climbing
import Minyar.Compiler.Layers
import Minyar.Compiler.SameGrouping
import Minyar.Compiler.ExpressionReading
import Minyar.Modules.FieldDecoders
import Minyar.Modules.SymbolTable
import Minyar.Compiler.Tokenize
import Minyar.Modules.QuotedSource
import Minyar.Compiler.Escape
import Minyar.Modules.SymbolNames
import Minyar.Text.Encode
import Minyar.Compiler.LiteralData
import Minyar.Compiler.CompareText
import Minyar.Compiler.IntegerLimits
import Minyar.Compiler.TokenLocations
import Minyar.Modules.ModuleIdentity
import Minyar.Modules.SourcePaths
import Minyar.Modules.SymbolSearch
import Minyar.Rc.ListRoom
import Minyar.Rc.Appended
import Minyar.Text.Blocks
import Minyar.Compiler.OwnershipBudget
import Minyar.Types.TypeCodes
import Minyar.Library.TaggedMap
import Minyar.Compiler.LexicalScopes
import Minyar.Compiler.Emitter
import Minyar.Compiler.Emission
import Minyar.Compiler.OwnerSlots
import Minyar.Compiler.SlotRuns
import Minyar.Compiler.FunctionSlots
import Minyar.Compiler.ReadOnlyParameters
import Minyar.Compiler.Declarations
import Minyar.Compiler.DeclarationPasses
import Minyar.Compiler.FunctionSymbols
import Minyar.Rc.Eager
import Minyar.Rc.EagerDestroy
import Minyar.Rc.EagerRefines
import Minyar.Rc.SharedStops
import Minyar.Rc.EagerRun
import Minyar.Compiler.ScalarSource
import Minyar.Compiler.ScalarCode
import Minyar.Compiler.ScalarEmission
import Minyar.Library.Numbered
import Minyar.Compiler.ScalarBlocks
import Minyar.Compiler.ScalarPreservation
