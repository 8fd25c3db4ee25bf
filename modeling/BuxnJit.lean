import BuxnJit.Foundations.Prog
import BuxnJit.Foundations.CircularStack
import BuxnJit.Uxn.Machine
import BuxnJit.Jit.Joins
import BuxnJit.Jit.Conservation
import BuxnJit.Jit.Session
import BuxnJit.Hooks.Registration
import BuxnJit.Jit.BlockMap
import BuxnJit.Jit.Requests
import BuxnJit.Jit.Settled
import BuxnJit.Jit.Termination
import BuxnJit.Jit.Registers
import BuxnJit.Jit.Constants
import BuxnJit.Jit.Footprint
import BuxnJit.Jit.InPlace
import BuxnJit.Jit.Addresses
import BuxnJit.Jit.Lookup
import BuxnJit.Hooks.Symbols
import BuxnJit.Hooks.DebugHooks
import BuxnJit.Hooks.Recording
import BuxnJit.Hooks.Scan
import BuxnJit.Hooks.DumpFile
import BuxnJit.Hooks.Reader
