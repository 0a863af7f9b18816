import ScriptMachine.Amount
import ScriptMachine.Bytes
import ScriptMachine.Bytes.Lemmas
import ScriptMachine.Command.Assembler
import ScriptMachine.Command.Debugger
import ScriptMachine.Command.Folder
import ScriptMachine.Command.Log
import ScriptMachine.Command.Outcome
import ScriptMachine.Command.Path
import ScriptMachine.Curve.Modular
import ScriptMachine.Curve.Point
import ScriptMachine.Curve.PublicKey
import ScriptMachine.Digest.Basic
import ScriptMachine.Digest.Block
import ScriptMachine.Digest.Ripemd160
import ScriptMachine.Digest.Sha1
import ScriptMachine.Digest.Sha256
import ScriptMachine.Edition
import ScriptMachine.File
import ScriptMachine.Hex
import ScriptMachine.Instruction.Basic
import ScriptMachine.Instruction.MinimalPush
import ScriptMachine.Listing.Assembly
import ScriptMachine.Listing.Basic
import ScriptMachine.Listing.Fault
import ScriptMachine.Listing.File
import ScriptMachine.Listing.Token
import ScriptMachine.Machine.Action
import ScriptMachine.Machine.Context
import ScriptMachine.Machine.Fault
import ScriptMachine.Machine.FlowOps
import ScriptMachine.Machine.ItemOps
import ScriptMachine.Machine.NumberOps
import ScriptMachine.Machine.Run
import ScriptMachine.Machine.SignatureOps
import ScriptMachine.Machine.StackOps
import ScriptMachine.Machine.State
import ScriptMachine.Machine.Step
import ScriptMachine.Machine.Summary
import ScriptMachine.Machine.TransactionOps
import ScriptMachine.Main
import ScriptMachine.Meter
import ScriptMachine.Opcode.Basic
import ScriptMachine.Opcode.Naming
import ScriptMachine.Policy
import ScriptMachine.Proofs.Curve.BaseOrder
import ScriptMachine.Proofs.Curve.GroupLaw
import ScriptMachine.Proofs.Curve.Primality
import ScriptMachine.Proofs.Curve.PrimeOrder
import ScriptMachine.Proofs.Curve.PublicKey
import ScriptMachine.Proofs.Curve.Residue
import ScriptMachine.Proofs.Instruction.Codec
import ScriptMachine.Proofs.Instruction.ShortestPush
import ScriptMachine.Proofs.Listing.Joining
import ScriptMachine.Proofs.Listing.Pointing
import ScriptMachine.Proofs.Listing.Reading
import ScriptMachine.Proofs.Listing.RoundTrip
import ScriptMachine.Proofs.Listing.Token
import ScriptMachine.Proofs.Listing.WellFormed
import ScriptMachine.Proofs.Machine.Accounting
import ScriptMachine.Proofs.Machine.ActiveBytecode
import ScriptMachine.Proofs.Machine.Agreement
import ScriptMachine.Proofs.Machine.Arithmetic
import ScriptMachine.Proofs.Machine.Conversion
import ScriptMachine.Proofs.Machine.DeadCode
import ScriptMachine.Proofs.Machine.DeadRun
import ScriptMachine.Proofs.Machine.Effect
import ScriptMachine.Proofs.Machine.Halting
import ScriptMachine.Proofs.Machine.LegacyMultisig
import ScriptMachine.Proofs.Machine.Lexical
import ScriptMachine.Proofs.Machine.Limit
import ScriptMachine.Proofs.Machine.Monotone
import ScriptMachine.Proofs.Machine.OpcodeEffect
import ScriptMachine.Proofs.Machine.OpcodeStep
import ScriptMachine.Proofs.Machine.Pushing
import ScriptMachine.Proofs.Machine.Relaxation
import ScriptMachine.Proofs.Machine.RepeatedBytes
import ScriptMachine.Proofs.Machine.SchnorrMultisig
import ScriptMachine.Proofs.Machine.SignatureCheck
import ScriptMachine.Proofs.Machine.StackOpcodes
import ScriptMachine.Proofs.Machine.StackWindow
import ScriptMachine.Proofs.Machine.TimeLock
import ScriptMachine.Proofs.Machine.Trace
import ScriptMachine.Proofs.Machine.Transition
import ScriptMachine.Proofs.Machine.Truth
import ScriptMachine.Proofs.Opcode.Naming
import ScriptMachine.Proofs.Opcode.Spelling
import ScriptMachine.Proofs.ScriptNumber.Encoding
import ScriptMachine.Proofs.Signature.Schnorr
import ScriptMachine.Proofs.Source.Compilation
import ScriptMachine.Proofs.Source.Conservation
import ScriptMachine.Proofs.Source.Coverage
import ScriptMachine.Proofs.Source.Displacement
import ScriptMachine.Proofs.Source.Joining
import ScriptMachine.Proofs.Source.Lexeme
import ScriptMachine.Proofs.Source.Matching
import ScriptMachine.Proofs.Source.Nesting
import ScriptMachine.Proofs.Source.Partition
import ScriptMachine.Proofs.Source.PostOrder
import ScriptMachine.Proofs.Source.Range
import ScriptMachine.Proofs.Source.Reach
import ScriptMachine.Proofs.Source.Sampling
import ScriptMachine.Proofs.Spend.Budget
import ScriptMachine.Proofs.Spend.Relaxation
import ScriptMachine.Proofs.Spend.ScriptHash
import ScriptMachine.Proofs.Spend.Standard
import ScriptMachine.Proofs.Spend.Unlocking
import ScriptMachine.Proofs.Spend.Upgrade
import ScriptMachine.Proofs.Text.Numeral
import ScriptMachine.Proofs.Transaction.Delimiting
import ScriptMachine.Proofs.Transaction.SigningMessage
import ScriptMachine.Proofs.Transaction.WireForm
import ScriptMachine.ScriptNumber
import ScriptMachine.Signature.Checker
import ScriptMachine.Signature.Der
import ScriptMachine.Signature.Ecdsa
import ScriptMachine.Signature.Schnorr
import ScriptMachine.Signature.SecretKey
import ScriptMachine.Signing
import ScriptMachine.Source.Compilation
import ScriptMachine.Source.Coverage
import ScriptMachine.Source.Extraction
import ScriptMachine.Source.Lexeme
import ScriptMachine.Source.Range
import ScriptMachine.Source.Sample
import ScriptMachine.Source.Tree
import ScriptMachine.Spend
import ScriptMachine.Text.Align
import ScriptMachine.Text.Blank
import ScriptMachine.Text.Lines
import ScriptMachine.Text.Numeral
import ScriptMachine.Text.Percentage
import ScriptMachine.Total
import ScriptMachine.Transaction.Basic
import ScriptMachine.Transaction.Wire
