import Stylesheet.Interchange
import Stylesheet.Proofs.Lossless
import Stylesheet.Proofs.Nesting
import Stylesheet.Proofs.Session
import Stylesheet.Proofs.Streaming
import Stylesheet.Tokenizer.Bytes
import Stylesheet.Proofs.Grammar
import Stylesheet.Proofs.Taking
import Stylesheet.Proofs.Lexing
import Stylesheet.Proofs.Totality
import Stylesheet.Proofs.Runs
import Stylesheet.Proofs.Munch
import Stylesheet.Proofs.Standalone
import Stylesheet.Proofs.Seams
import Stylesheet.Proofs.Positions
import Stylesheet.Proofs.Segmentation
import Stylesheet.Proofs.Drivers
import Stylesheet.Proofs.Sources
import Stylesheet.Proofs.Ends
import Stylesheet.Proofs.Accounts
import Stylesheet.Proofs.RoundTrip
import Stylesheet.Proofs.Languages
import Stylesheet.Proofs.Pieces
import Stylesheet.Proofs.Starts
import Stylesheet.Proofs.Urls
import Stylesheet.Proofs.Numerals
import Stylesheet.Proofs.Names
import Stylesheet.Proofs.Strings
import Stylesheet.Proofs.Delims
import Stylesheet.Proofs.Comments
import Stylesheet.Proofs.LineEndings
import Stylesheet.Proofs.Detection
import Stylesheet.Proofs.Discipline
import Stylesheet.Proofs.ReadFailures
import Stylesheet.Proofs.Lookahead
import Stylesheet.Proofs.Laziness
import Stylesheet.Proofs.Reached
import Stylesheet.Proofs.ByteBuffer
import Stylesheet.Proofs.Routines
import Stylesheet.Proofs.Literals
import Stylesheet.Proofs.Spending
import Stylesheet.Proofs.Progress
