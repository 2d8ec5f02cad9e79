import Niladic.Source
import Niladic.Tree.Outline
import Niladic.Code.Listing
import Niladic.Code.Check
import Niladic.Code.Draft
import Niladic.Machine
import Niladic.Compiler.Generate
import Niladic.Compiler.Output
import Niladic.CommandLine.Run
import Niladic.Main
import Niladic.Proofs.Actions
import Niladic.Proofs.Growth
import Niladic.Proofs.Drafting
import Niladic.Proofs.Registering
import Niladic.Proofs.Coherence
import Niladic.Proofs.Operations
import Niladic.Proofs.Recursion
import Niladic.Proofs.Direct
import Niladic.Proofs.Lockstep
import Niladic.Proofs.Termination
import Niladic.Proofs.Traversal
import Niladic.Proofs.Sessions
import Niladic.Proofs.Checking
import Niladic.Proofs.Confinement
import Niladic.Proofs.Soundness
import Niladic.Proofs.Shape
import Niladic.Proofs.Lowering
import Niladic.Proofs.Acceptance
import Niladic.Proofs.Retrying
import Niladic.Proofs.Tracing
import Niladic.Proofs.Evaluation
import Niladic.Proofs.Grammar
import Niladic.Proofs.Parsing
import Niladic.Proofs.Verification
import Niladic.Proofs.Requests
import Niladic.Proofs.Representation
import Niladic.Proofs.Freezing
import Niladic.Proofs.Catalogue
import Niladic.Proofs.Outcomes
import Niladic.Proofs.Cutting
import Niladic.Proofs.Literals
import Niladic.Proofs.Labels
import Niladic.Proofs.Naming
import Niladic.Proofs.Lines
import Niladic.Proofs.Listings
import Niladic.Proofs.Twins
import Niladic.Proofs.Fidelity
import Niladic.Proofs.CallDepth
import Niladic.Proofs.Signs
import Niladic.Proofs.Viability
import Niladic.Proofs.Descent
import Niladic.Proofs.Progress
import Niladic.Proofs.Spelling
import Niladic.Proofs.Announcing
import Niladic.Proofs.Layout
import Niladic.Proofs.Finishing
import Niladic.Proofs.Framing
import Niladic.Proofs.ReadBack
import Niladic.Proofs.Hoisting
import Niladic.Proofs.Accounting
import Niladic.Proofs.Census
import Niladic.Proofs.Outlining
import Niladic.Proofs.Inquiries
import Niladic.Proofs.FiniteMaps
import Niladic.Proofs.OpenScopes
