import ProcessCalculus.BitSet
import ProcessCalculus.CallGraph.Basic
import ProcessCalculus.CallGraph.Discovery
import ProcessCalculus.CallGraph.Render
import ProcessCalculus.CommandLine
import ProcessCalculus.Definition
import ProcessCalculus.Function
import ProcessCalculus.Grammar.Expected
import ProcessCalculus.Grammar.State
import ProcessCalculus.LineIndex
import ProcessCalculus.Name
import ProcessCalculus.Parameter
import ProcessCalculus.Program
import ProcessCalculus.Reading
import ProcessCalculus.Scanner
import ProcessCalculus.Shrink
import ProcessCalculus.Shrink.Silence
import ProcessCalculus.Shrink.Uncalled
import ProcessCalculus.Shrink.Undefined
import ProcessCalculus.Statement.Basic
import ProcessCalculus.Statement.Communication
import ProcessCalculus.Statement.Render
import ProcessCalculus.Statement.Targets
import ProcessCalculus.SyntaxError
import ProcessCalculus.Text
import ProcessCalculus.Token.Basic
import ProcessCalculus.Token.Lexer
import ProcessCalculus.Token.Scan
import ProcessCalculus.WorkQueue
import ProcessCalculus.Main
import ProcessCalculus.Proofs.BitSet
import ProcessCalculus.Proofs.CallGraph
import ProcessCalculus.Proofs.CallRelation
import ProcessCalculus.Proofs.Observable
import ProcessCalculus.Proofs.Silence
import ProcessCalculus.Proofs.Uncalled
import ProcessCalculus.Proofs.Pruning
import ProcessCalculus.Proofs.Survivors
import ProcessCalculus.Proofs.Execution
import ProcessCalculus.Proofs.Simulation
import ProcessCalculus.Proofs.Acceptance
import ProcessCalculus.Proofs.Soundness
import ProcessCalculus.Proofs.Reading
import ProcessCalculus.Proofs.Lexing
import ProcessCalculus.Proofs.Printable
import ProcessCalculus.Proofs.Rendering
import ProcessCalculus.Proofs.RoundTrip
import ProcessCalculus.Proofs.Viability
import ProcessCalculus.Proofs.Refusal
import ProcessCalculus.Proofs.Remnant
import ProcessCalculus.Proofs.Passes
import ProcessCalculus.Proofs.Retracing
import ProcessCalculus.Proofs.History
import ProcessCalculus.Proofs.Concatenation
import ProcessCalculus.Proofs.Canonical
import ProcessCalculus.Proofs.Reacceptance
import ProcessCalculus.Proofs.Adjacency
import ProcessCalculus.Proofs.DiscoveryOrder
import ProcessCalculus.Proofs.Policy
import ProcessCalculus.Proofs.Tidiness
import ProcessCalculus.Proofs.Outline
import ProcessCalculus.Proofs.TraceEquivalence
import ProcessCalculus.Proofs.Expectation
import ProcessCalculus.Proofs.Positions
import ProcessCalculus.Proofs.Lexemes
import ProcessCalculus.Proofs.Tiling
import ProcessCalculus.Proofs.Spacing
import ProcessCalculus.Proofs.Variables
import ProcessCalculus.Proofs.Branches
import ProcessCalculus.Proofs.Members
import ProcessCalculus.Proofs.Journal
import ProcessCalculus.Proofs.Sweep
import ProcessCalculus.Proofs.Surface
