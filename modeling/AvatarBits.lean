import AvatarBits.Analysis.Bounds
import AvatarBits.Analysis.Indexed
import AvatarBits.Analysis.Menu
import AvatarBits.Analysis.Range
import AvatarBits.Analysis.Usage
import AvatarBits.Avatar.Basic
import AvatarBits.Avatar.Controller
import AvatarBits.Avatar.Menu
import AvatarBits.Avatar.Names
import AvatarBits.Avatar.Parameter
import AvatarBits.Avatar.Reading
import AvatarBits.Avatar.Writing
import AvatarBits.Codec.Assembly
import AvatarBits.Codec.Bits
import AvatarBits.Codec.Declarations
import AvatarBits.Codec.Layer
import AvatarBits.Codec.Tree
import AvatarBits.CommandLine
import AvatarBits.Compression.Basic
import AvatarBits.Compression.Writing
import AvatarBits.Config
import AvatarBits.Error
import AvatarBits.Json.Node
import AvatarBits.Json.Reader
import AvatarBits.Json.Scan
import AvatarBits.Json.Value
import AvatarBits.Main
import AvatarBits.Number.Binary
import AvatarBits.Number.Numeral
import AvatarBits.Number.Reading
import AvatarBits.Number.Shortest
import AvatarBits.Proofs.Analysis.Closed
import AvatarBits.Proofs.Analysis.Counting
import AvatarBits.Proofs.Analysis.Exact
import AvatarBits.Proofs.Analysis.Indexed
import AvatarBits.Proofs.Analysis.Literals
import AvatarBits.Proofs.Analysis.Pages
import AvatarBits.Proofs.Analysis.Peaks
import AvatarBits.Proofs.Analysis.Usage
import AvatarBits.Proofs.Analysis.Writes
import AvatarBits.Proofs.Avatar.Acceptance
import AvatarBits.Proofs.Avatar.Nesting
import AvatarBits.Proofs.Avatar.Rereading
import AvatarBits.Proofs.Codec.Branches
import AvatarBits.Proofs.Codec.Building
import AvatarBits.Proofs.Codec.Descent
import AvatarBits.Proofs.Codec.Endpoints
import AvatarBits.Proofs.Codec.Faithful
import AvatarBits.Proofs.Codec.Footprint
import AvatarBits.Proofs.Codec.Grafting
import AvatarBits.Proofs.Codec.Leaves
import AvatarBits.Proofs.Codec.Levels
import AvatarBits.Proofs.Codec.Livelock
import AvatarBits.Proofs.Codec.Names
import AvatarBits.Proofs.Codec.Numbers
import AvatarBits.Proofs.Codec.Running
import AvatarBits.Proofs.Codec.Settling
import AvatarBits.Proofs.Codec.Steering
import AvatarBits.Proofs.Compression.Budget
import AvatarBits.Proofs.Compression.Declared
import AvatarBits.Proofs.Compression.Freshness
import AvatarBits.Proofs.Compression.Lossless
import AvatarBits.Proofs.Compression.Namesakes
import AvatarBits.Proofs.Compression.Pointers
import AvatarBits.Proofs.Compression.Repeated
import AvatarBits.Proofs.Compression.Report
import AvatarBits.Proofs.Compression.Rerun
import AvatarBits.Proofs.Compression.SelfCheck
import AvatarBits.Proofs.Compression.Tallies
import AvatarBits.Proofs.Compression.Totality
import AvatarBits.Proofs.Exchange.Layouts
import AvatarBits.Proofs.Exchange.Memoryless
import AvatarBits.Proofs.Exchange.Resync
import AvatarBits.Proofs.Exchange.Session
import AvatarBits.Proofs.Exchange.Strays
import AvatarBits.Proofs.Exchange.Verified
import AvatarBits.Proofs.Json.Records
import AvatarBits.Proofs.Json.Requirements
import AvatarBits.Proofs.Json.Results
import AvatarBits.Proofs.Json.Text
import AvatarBits.Proofs.Number.Conversion
import AvatarBits.Proofs.Number.Decimals
import AvatarBits.Proofs.Number.Gaps
import AvatarBits.Proofs.Number.Legible
import AvatarBits.Proofs.Number.Numerals
import AvatarBits.Proofs.Number.Picking
import AvatarBits.Proofs.Number.Rounding
import AvatarBits.Proofs.Number.Whole
import AvatarBits.Proofs.Simulation.Firing
import AvatarBits.Proofs.Simulation.Playing
import AvatarBits.Proofs.Simulation.Stepping
import AvatarBits.Simulation.Machine
import AvatarBits.Simulation.RoundTrip
import AvatarBits.Simulation.Store
import AvatarBits.Text.Hidden
import AvatarBits.Text.Quoted
