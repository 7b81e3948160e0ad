import Spintax.Chooser
import Spintax.Config
import Spintax.Diagnostic
import Spintax.Escape
import Spintax.Evaluation
import Spintax.Generation
import Spintax.Journal
import Spintax.Location
import Spintax.Parser
import Spintax.Pick
import Spintax.Proofs.EvaluationCorrect
import Spintax.Proofs.ParserCorrect
import Spintax.Proofs.Spelling
import Spintax.Proofs.SweepCorrect
import Spintax.Proofs.Tiling
import Spintax.Release
import Spintax.Scanner
import Spintax.Session.Run
import Spintax.Template
import Spintax.Token
import Spintax.TokenStream
import Spintax.Tree.Revision
import Spintax.Proofs.Cuts
import Spintax.Proofs.Sameness
import Spintax.Proofs.Meanings
import Spintax.Proofs.Wrapping
import Spintax.Proofs.Concatenation
import Spintax.Proofs.Coverage
import Spintax.Proofs.Slices
import Spintax.Proofs.Joining
import Spintax.Proofs.Writing
import Spintax.Proofs.Blame
import Spintax.Proofs.Language
import Spintax.Proofs.Resumption
import Spintax.Proofs.KeptConfig
import Spintax.Proofs.Scopes
import Spintax.Proofs.Rebuilding
import Spintax.Proofs.Placeless
import Spintax.Proofs.Courses
import Spintax.Proofs.Sampling
import Spintax.Proofs.Moments
import Spintax.Proofs.Solo
import Spintax.Proofs.Separation
import Spintax.Proofs.Positions
import Spintax.Proofs.Dangling
import Spintax.Proofs.Allotment
import Spintax.Proofs.Nesting
import Spintax.Proofs.DepthGate
import Spintax.Proofs.LaterCalls
import Spintax.Proofs.Batches
import Spintax.Proofs.Records
import Spintax.Proofs.Formatting
import Spintax.Proofs.Locality
import Spintax.Proofs.ModeStack
import Spintax.Proofs.DescentCases
import Spintax.Proofs.Registers
import Spintax.Proofs.Activations
