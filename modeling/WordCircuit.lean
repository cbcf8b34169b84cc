import WordCircuit.BitSliced
import WordCircuit.Bits
import WordCircuit.ConstraintSystem.Untyped
import WordCircuit.ConstraintSystem.Witness
import WordCircuit.Datum.Arithmetic
import WordCircuit.Partial
import WordCircuit.Sha256.Compression
import WordCircuit.Trace
import WordCircuit.Number.Basic
import WordCircuit.Proofs.Action
import WordCircuit.Proofs.BitSliced.Cost
import WordCircuit.Proofs.BitSliced.Interpretation
import WordCircuit.Proofs.BitSliced.Layers
import WordCircuit.Proofs.BitSliced.Preservation
import WordCircuit.Proofs.BitSliced.Uniform
import WordCircuit.Proofs.BitSliced.Words
import WordCircuit.Proofs.Bits
import WordCircuit.Proofs.Bits.Decoding
import WordCircuit.Proofs.Capability
import WordCircuit.Proofs.Combination.Arithmetic
import WordCircuit.Proofs.Combination.Canonical
import WordCircuit.Proofs.Combination.Denotation
import WordCircuit.Proofs.Combination.Dimension
import WordCircuit.Proofs.Combination.Formula
import WordCircuit.Proofs.Combination.Homomorphism
import WordCircuit.Proofs.Combination.Scaling
import WordCircuit.Proofs.Combination.TermCount
import WordCircuit.Proofs.ConstraintSystem.Assertions
import WordCircuit.Proofs.ConstraintSystem.Bytes
import WordCircuit.Proofs.ConstraintSystem.Calls
import WordCircuit.Proofs.ConstraintSystem.Circuit
import WordCircuit.Proofs.ConstraintSystem.Connectives
import WordCircuit.Proofs.ConstraintSystem.Cost
import WordCircuit.Proofs.ConstraintSystem.ForeignField
import WordCircuit.Proofs.ConstraintSystem.Forward
import WordCircuit.Proofs.ConstraintSystem.Gate
import WordCircuit.Proofs.ConstraintSystem.Growth
import WordCircuit.Proofs.ConstraintSystem.Inputs
import WordCircuit.Proofs.ConstraintSystem.Ledger
import WordCircuit.Proofs.ConstraintSystem.Refusal
import WordCircuit.Proofs.ConstraintSystem.Solutions
import WordCircuit.Proofs.ConstraintSystem.Store
import WordCircuit.Proofs.ConstraintSystem.TermCount
import WordCircuit.Proofs.ConstraintSystem.Uniform
import WordCircuit.Proofs.ConstraintSystem.Violations
import WordCircuit.Proofs.Coupling
import WordCircuit.Proofs.Datum.Distinct
import WordCircuit.Proofs.Datum.Equality
import WordCircuit.Proofs.Direct.Calculation
import WordCircuit.Proofs.Direct.Words
import WordCircuit.Proofs.Disjunction
import WordCircuit.Proofs.Embedding
import WordCircuit.Proofs.Field.Residues
import WordCircuit.Proofs.Gating
import WordCircuit.Proofs.Interpretation
import WordCircuit.Proofs.Movement.Laws
import WordCircuit.Proofs.Movement.Words
import WordCircuit.Proofs.Operation
import WordCircuit.Proofs.Preservation
import WordCircuit.Proofs.Program.Basic
import WordCircuit.Proofs.Program.Boolean
import WordCircuit.Proofs.Program.Circuit
import WordCircuit.Proofs.Program.Cost
import WordCircuit.Proofs.Program.Direct
import WordCircuit.Proofs.Program.Outcome
import WordCircuit.Proofs.Program.Satisfiability
import WordCircuit.Proofs.Program.Sliced
import WordCircuit.Proofs.Program.Word
import WordCircuit.Proofs.Reading
import WordCircuit.Proofs.Scalar
import WordCircuit.Proofs.Scalar.Expression
import WordCircuit.Proofs.Script
import WordCircuit.Proofs.Script.Forward
import WordCircuit.Proofs.Script.Preservation
import WordCircuit.Proofs.Script.TermCount
import WordCircuit.Proofs.Sha256.Backends
import WordCircuit.Proofs.Sha256.Compression
import WordCircuit.Proofs.Sha256.Decoding
import WordCircuit.Proofs.Sha256.Oblivious
import WordCircuit.Proofs.Sha256.Digest
import WordCircuit.Proofs.Sha256.Octets
import WordCircuit.Proofs.Sha256.PaddedMessage
import WordCircuit.Proofs.Sha256.Padding
import WordCircuit.Proofs.Sha256.Simulation
import WordCircuit.Proofs.Sha256.Standard
import WordCircuit.Proofs.Sha256.StandardHash
