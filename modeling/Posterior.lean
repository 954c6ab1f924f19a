import Posterior.Cursor
import Posterior.Parser.Related
import Posterior.Parser.Progress
import Posterior.Record
import Posterior.Sampler.Message
import Posterior.Source
import Posterior.Proofs.Grammar
import Posterior.Proofs.Grammar.Soundness
import Posterior.Proofs.Grammar.Completeness
import Posterior.Proofs.Grammar.Nesting
import Posterior.Proofs.Grammar.Locality
import Posterior.Proofs.Grammar.Recognition
import Posterior.Proofs.Grammar.Shape
import Posterior.Proofs.Shape
import Posterior.Proofs.Checking
import Posterior.Proofs.Checking.Evaluation
import Posterior.Proofs.Checking.Run
import Posterior.Proofs.Sampling.Cycles
import Posterior.Proofs.Sampling.Rejection
import Posterior.Proofs.Spelling
import Posterior.Proofs.Lexing
import Posterior.Proofs.Lexing.Munch
import Posterior.Proofs.Spelling.Lexing
import Posterior.Proofs.Spelling.Derivation
import Posterior.Proofs.Spelling.RoundTrip
import Posterior.Proofs.Lexing.Partition
import Posterior.Proofs.Lexing.Faults
import Posterior.Proofs.Grammar.Prefix
import Posterior.Proofs.Grammar.Lookahead
import Posterior.Proofs.Grammar.Faults
import Posterior.Proofs.Grammar.Frames
import Posterior.Proofs.Grammar.Procedures
import Posterior.Proofs.Grammar.Calls
import Posterior.Proofs.Grammar.Depth
import Posterior.Proofs.Trace
import Posterior.Proofs.Trace.Order
import Posterior.Proofs.Trace.Run
import Posterior.Proofs.Trace.Adequacy
import Posterior.Proofs.Trace.Ledger
import Posterior.Proofs.Footprint
import Posterior.Proofs.Determinism
import Posterior.Proofs.Replay
import Posterior.Proofs.Replay.Run
import Posterior.Proofs.Sampling.Requests
import Posterior.Proofs.Sampling.Rest
import Posterior.Proofs.Sampling.Coherence
import Posterior.Proofs.Checking.Halts
import Posterior.Proofs.Sampling.Skipping
import Posterior.Proofs.Session
import Posterior.Proofs.Session.Balance
import Posterior.Proofs.Sampling.Balance
import Posterior.Proofs.Sampling.Importance
import Posterior.Proofs.Sampling.Log
import Posterior.Proofs.Sampling.Progress
import Posterior.Proofs.Sampling.Renewal
import Posterior.Proofs.Checking.Native
import Posterior.Proofs.Grammar.Concatenation
import Posterior.Proofs.Lexing.Stream
import Posterior.Proofs.Lexing.Concatenation
import Posterior.Proofs.FrontEnd
import Posterior.Proofs.Concatenation
import Posterior.Proofs.Trace.Scores
import Posterior.Proofs.Trace.Deals
import Posterior.Proofs.Sampling.Alignment
import Posterior.Proofs.Exact
import Posterior.Proofs.Exact.Weights
import Posterior.Proofs.Exact.Statistics
import Posterior.Proofs.Exact.Scores
import Posterior.Proofs.Exact.Support
import Posterior.Proofs.Exact.Summaries
import Posterior.Proofs.Footprint.Statement
import Posterior.Proofs.Footprint.Commuting
import Posterior.Proofs.Footprint.Names
import Posterior.Proofs.Sampling.Uniformity
import Posterior.Proofs.Guarded
import Posterior.Proofs.Construction
import Posterior.Proofs.Sampling.Refusal
import Posterior.Proofs.Condition
import Posterior.Proofs.Condition.Reading
import Posterior.Proofs.Decimal
import Posterior.Proofs.Rendering
import Posterior.Proofs.Rendering.Paths
import Posterior.Proofs.Rendering.Outline
import Posterior.Proofs.Json
import Posterior.Proofs.Record
import Posterior.Proofs.Unambiguous
import Posterior.Proofs.Rendering.Traversals
