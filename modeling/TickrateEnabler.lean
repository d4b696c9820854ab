import TickrateEnabler.Memory
import TickrateEnabler.Transition
import TickrateEnabler.Overlay
import TickrateEnabler.EventLog
import TickrateEnabler.Checked
import TickrateEnabler.Chains
import TickrateEnabler.FirstWins
import TickrateEnabler.Rounding
import TickrateEnabler.BinPatch
import TickrateEnabler.TwoState
import TickrateEnabler.CodePatch
import TickrateEnabler.PatchManager
import TickrateEnabler.Objects
import TickrateEnabler.SymbolTable
import TickrateEnabler.LinkedTable
import TickrateEnabler.LinkedIntern
import TickrateEnabler.InternRuns
import TickrateEnabler.LoadFactor
import TickrateEnabler.ResolveSymbol
import TickrateEnabler.Destructor
import TickrateEnabler.SharedHeap
import TickrateEnabler.HeapRuns
import TickrateEnabler.FindPattern
import TickrateEnabler.X86.Machine
import TickrateEnabler.X86.Decode
import TickrateEnabler.Sigs
import TickrateEnabler.LibraryInfo
import TickrateEnabler.Construct
import TickrateEnabler.Layers
import TickrateEnabler.SymbolCache
import TickrateEnabler.BoomerVomit
import TickrateEnabler.FrameTimeRead
import TickrateEnabler.MaxRate
import TickrateEnabler.RateClamp
import TickrateEnabler.PatchPhase
import TickrateEnabler.Ownership
import TickrateEnabler.Interfaces
import TickrateEnabler.Plugin
import TickrateEnabler.Load
import TickrateEnabler.LoadCycles
import TickrateEnabler.PluginRuns
import TickrateEnabler.WindowsRuns
import TickrateEnabler.PatchedCode
import TickrateEnabler.TickInterval
import TickrateEnabler.PatchOrder
import TickrateEnabler.Cleanup
import TickrateEnabler.Protection
import TickrateEnabler.Ledger
import TickrateEnabler.ElfFile
import TickrateEnabler.ElfWalk
import TickrateEnabler.SystemCalls
import TickrateEnabler.MachO
