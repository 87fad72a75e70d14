import StackScript.Main
import StackScript.Proofs.Compile.Scope
import StackScript.Proofs.Compile.Verify
import StackScript.Proofs.Machine.Captured
import StackScript.Proofs.Machine.Registry
import StackScript.Proofs.Machine.Robust
import StackScript.Proofs.Compile.AcceptExpression
import StackScript.Proofs.Compile.AcceptStatement
import StackScript.Proofs.Compile.Ending
import StackScript.Proofs.Compile.Accept
import StackScript.Proofs.Store.Dictionary
import StackScript.Proofs.Machine.Interned
import StackScript.Proofs.Machine.Floor
import StackScript.Proofs.Machine.Transparent
import StackScript.Proofs.Compile.Echo
import StackScript.Proofs.Compile.Replay
import StackScript.Proofs.Machine.Evolves
import StackScript.Proofs.Machine.Globals
import StackScript.Proofs.Syntax.Octets
import StackScript.Proofs.Compile.Pace
import StackScript.Proofs.Bytecode.Sweep
import StackScript.Proofs.Compile.Independent
import StackScript.Proofs.Compile.Recovery
import StackScript.Proofs.Machine.Consecutive
import StackScript.Proofs.Bytecode.Pool
import StackScript.Proofs.Machine.Atomic
import StackScript.Proofs.Machine.Comparison
import StackScript.Proofs.Machine.Trace
import StackScript.Proofs.Compile.Relaid
import StackScript.Proofs.Store.Probing
import StackScript.Proofs.Machine.Decoding
import StackScript.Proofs.Compile.Outline
import StackScript.Proofs.Machine.Limited
import StackScript.Proofs.Semantics.Call
import StackScript.Proofs.Semantics.Meaning
import StackScript.Proofs.Debugger.Layout
import StackScript.Proofs.Debugger.Source
import StackScript.Proofs.Debugger.Session
import StackScript.Proofs.Machine.Generator
import StackScript.Proofs.Semantics.Enclosed
import StackScript.Proofs.Semantics.Loops
import StackScript.Proofs.Store.Handles
import StackScript.Proofs.Store.Display
