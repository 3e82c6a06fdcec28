import LispCore.Binding
import LispCore.Code.Instr
import LispCore.Code.Listing
import LispCore.Code.Lower
import LispCore.Code.Pool
import LispCore.Code.Stream
import LispCore.Coercion
import LispCore.Command
import LispCore.Data.Datum
import LispCore.Data.Dump
import LispCore.Data.Json.Reader
import LispCore.Data.Json.Token
import LispCore.Data.Json.Writer
import LispCore.Data.Load
import LispCore.Data.Toml
import LispCore.Data.Yaml
import LispCore.Decimal.Read
import LispCore.Decimal.Shortest
import LispCore.Decimal.Style
import LispCore.Double
import LispCore.Env
import LispCore.Eval
import LispCore.Fault
import LispCore.Globals
import LispCore.Layout
import LispCore.Machine
import LispCore.Main
import LispCore.Node.Basic
import LispCore.Node.Uses
import LispCore.Node.Walk
import LispCore.Place
import LispCore.Primitive
import LispCore.Program
import LispCore.Proofs.Acceptance
import LispCore.Proofs.Agreement
import LispCore.Proofs.Arithmetic
import LispCore.Proofs.Assembly
import LispCore.Proofs.Children
import LispCore.Proofs.Compilation
import LispCore.Proofs.Confinement
import LispCore.Proofs.Demand
import LispCore.Proofs.Diagnosis
import LispCore.Proofs.Elision
import LispCore.Proofs.Emission
import LispCore.Proofs.EmissionOrder
import LispCore.Proofs.FaithfulStore
import LispCore.Proofs.Fixups
import LispCore.Proofs.Freshness
import LispCore.Proofs.History
import LispCore.Proofs.Identity
import LispCore.Proofs.Interning
import LispCore.Proofs.Invariant
import LispCore.Proofs.Layout
import LispCore.Proofs.Limits
import LispCore.Proofs.Loading
import LispCore.Proofs.Lowering
import LispCore.Proofs.ModuleHistory
import LispCore.Proofs.Occurrence
import LispCore.Proofs.Operations
import LispCore.Proofs.Patching
import LispCore.Proofs.Placement
import LispCore.Proofs.Pool
import LispCore.Proofs.Preservation
import LispCore.Proofs.RenamedCode
import LispCore.Proofs.Renaming
import LispCore.Proofs.Resolution
import LispCore.Proofs.Run
import LispCore.Proofs.Safety
import LispCore.Proofs.Scoping
import LispCore.Proofs.Serialization
import LispCore.Proofs.Simulation
import LispCore.Proofs.Storage
import LispCore.Proofs.TailPosition
import LispCore.Proofs.Temporaries
import LispCore.Proofs.Tree
import LispCore.Proofs.TypeSoundness
import LispCore.Proofs.Typing
import LispCore.Proofs.Unwinding
import LispCore.Proofs.UseSites
import LispCore.Scope
import LispCore.Session
import LispCore.Text.Extender
import LispCore.Text.Quoted
import LispCore.Text.Unprintable
import LispCore.Ty
import LispCore.Value
import LispCore.Variable
