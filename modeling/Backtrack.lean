import Backtrack.Manifest
import Backtrack.Parser.Script
import Backtrack.Session
import Backtrack.Proofs.Fuel
import Backtrack.Proofs.Script.Approximation
import Backtrack.Proofs.Stream.Pulling
import Backtrack.Proofs.Stream.Telling
import Backtrack.Proofs.Stream.Runs
import Backtrack.Proofs.Offsets
import Backtrack.Proofs.Ends
import Backtrack.Proofs.Recursion
import Backtrack.Proofs.Ambiguity
import Backtrack.Proofs.Script.Ending
import Backtrack.Proofs.Stream.Showing
import Backtrack.Proofs.Range
import Backtrack.Proofs.Remainder
import Backtrack.Proofs.WholeText
import Backtrack.Proofs.Chains
import Backtrack.Proofs.Repetition
import Backtrack.Proofs.Stream.Comparing
import Backtrack.Proofs.Sequence
import Backtrack.Proofs.Alternation
import Backtrack.Proofs.Furthest
import Backtrack.Proofs.Diagnosis
import Backtrack.Proofs.Collected
import Backtrack.Proofs.Listing
import Backtrack.Proofs.Steering
import Backtrack.Proofs.Caret
import Backtrack.Proofs.Sessions
import Backtrack.Proofs.Layout
import Backtrack.Proofs.Traversal
import Backtrack.Proofs.Routes
import Backtrack.Proofs.Guard
import Backtrack.Proofs.SeparatedLists
import Backtrack.Proofs.FirstItem
import Backtrack.Proofs.OneOrMore
import Backtrack.Proofs.Rows
import Backtrack.Proofs.Draining
import Backtrack.Proofs.Factoring
import Backtrack.Proofs.LookingAhead
import Backtrack.Proofs.Seeking
import Backtrack.Proofs.Absence
import Backtrack.Proofs.Conduct
import Backtrack.Proofs.Logging
import Backtrack.Proofs.Merging
import Backtrack.Proofs.Blameless
import Backtrack.Proofs.Handles
import Backtrack.Proofs.Spelling
import Backtrack.Proofs.Respelling
import Backtrack.Proofs.Tandem
import Backtrack.Proofs.Definitions
import Backtrack.Proofs.Literals
import Backtrack.Proofs.LongestRun
import Backtrack.Proofs.Letters
