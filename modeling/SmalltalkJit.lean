import SmalltalkJit.Lib.Emission
import SmalltalkJit.Optimizer.Feedback
import SmalltalkJit.Optimizer.Preservation
import SmalltalkJit.Jit.Tracking
import SmalltalkJit.Jit.Instructions
import SmalltalkJit.Jit.BodyWalk
import SmalltalkJit.Jit.ImplicitReturn
import SmalltalkJit.Jit.RegsPool
import SmalltalkJit.Memory.StopTheWorld
import SmalltalkJit.Memory.Become
import SmalltalkJit.Dispatch.Invalidation
import SmalltalkJit.Classes.ConcurrentUpdates
import SmalltalkJit.Classes.Redefinition
import SmalltalkJit.Classes.Globals
import SmalltalkJit.Classes.Layout
import SmalltalkJit.Concurrency.Semaphore
import SmalltalkJit.Concurrency.Channel
import SmalltalkJit.Exceptions.Cleanups
import SmalltalkJit.Snapshot.Isomorphism
import SmalltalkJit.Packages.Resolution
import SmalltalkJit.Collections.SortedCollection
import SmalltalkJit.Collections.Heap
import SmalltalkJit.Collections.Interval
import SmalltalkJit.Streams.PositionableStream
import SmalltalkJit.Collections.SharedDictionary
import SmalltalkJit.Collections.Monitors
import SmalltalkJit.Numbers.Exactness
import SmalltalkJit.Numbers.Rounding
import SmalltalkJit.Numbers.SmallFloat
import SmalltalkJit.Numbers.DateTime
import SmalltalkJit.Numbers.AsNumber
import SmalltalkJit.Actors.Discipline
import SmalltalkJit.Actors.Termination
import SmalltalkJit.Messages.RoundTrip
import SmalltalkJit.Runtime.SymbolTable
import SmalltalkJit.Http.Chunking
import SmalltalkJit.Compiler.Delimiters
import SmalltalkJit.Compiler.Selectors
import SmalltalkJit.Bytecode.Emission
import SmalltalkJit.Actors.Isolation
import SmalltalkJit.Memory.PageIndex
import SmalltalkJit.Memory.RememberedSets
import SmalltalkJit.Concurrency.Timers
