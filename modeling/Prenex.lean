import Prenex.Bytes
import Prenex.Distinct
import Prenex.Text.Hex
import Prenex.Text.Quoted
import Prenex.Text.Blank
import Prenex.Fingerprint
import Prenex.Constructor
import Prenex.Builtin
import Prenex.Ty.Basic
import Prenex.Ty.Printer
import Prenex.Ty.Preorder
import Prenex.Ty.Instantiate
import Prenex.TypeError
import Prenex.Substitution
import Prenex.Supply
import Prenex.Unify.Equation
import Prenex.Unify.Problem
import Prenex.Instance
import Prenex.Application
import Prenex.Wire.Fault
import Prenex.Wire.Encode
import Prenex.Wire.Reader
import Prenex.Wire.Decode
import Prenex.Registry
import Prenex.Error
import Prenex.HostType
import Prenex.Log.Level
import Prenex.Log.Logger
import Prenex.Log.Logged
import Prenex.Journal.Event
import Prenex.Journal
import Prenex.Proofs.Ty.Instantiate
import Prenex.Proofs.Ty.Relabel
import Prenex.Proofs.Ty.Equality
import Prenex.Proofs.Ty.ArgumentCounts
import Prenex.Proofs.Ty.Renumber
import Prenex.Proofs.Ty.Alpha
import Prenex.Proofs.Unify.Solution
import Prenex.Proofs.Unify.Run
import Prenex.Proofs.Unify.MostGeneral
import Prenex.Proofs.Unify.Failure
import Prenex.Proofs.Unify.Matching
import Prenex.Proofs.Instance
import Prenex.Proofs.Bytes
import Prenex.Proofs.Wire.Grammar
import Prenex.Proofs.Wire.Descent
import Prenex.Proofs.Wire.RoundTrip
import Prenex.Proofs.Substitution
import Prenex.Proofs.Supply
import Prenex.Proofs.Application
import Prenex.Proofs.Unify.Incremental
import Prenex.Proofs.Unify.Relabelling
import Prenex.Proofs.Names
import Prenex.Proofs.Instance.Order
import Prenex.Proofs.Registry
import Prenex.Proofs.Unify.Invariant
import Prenex.Proofs.Supply.Run
import Prenex.Proofs.Instance.Numbering
import Prenex.Proofs.Ty.Printer
import Prenex.Proofs.Ty.Reader
import Prenex.Proofs.Ty.Unambiguous
import Prenex.Proofs.Unify.Termination
import Prenex.Proofs.Wire.Script
import Prenex.Proofs.Wire.Truncation
import Prenex.Proofs.Unify.Copies
import Prenex.Proofs.Unify.Turned
import Prenex.Proofs.Application.Function
import Prenex.Proofs.Numbers
import Prenex.Proofs.Ty.Variables
import Prenex.Proofs.Fingerprint
import Prenex.Proofs.Wire.Slices
import Prenex.Proofs.Wire.Rounds
