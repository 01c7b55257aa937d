import SdlGraph.Catalog.Build
import SdlGraph.Config.Settings
import SdlGraph.Document.Walk
import SdlGraph.Proofs.Catalog.WellFormed
import SdlGraph.Proofs.Document.Faithful
import SdlGraph.Proofs.Document.FirstOffence
import SdlGraph.Proofs.Document.Rendering
import SdlGraph.Proofs.Document.WrittenTypes
import SdlGraph.Session
import SdlGraph.Proofs.Graph.Depiction
import SdlGraph.Proofs.Catalog.Merging
import SdlGraph.Proofs.Catalog.Roots
import SdlGraph.Proofs.Token.Escaping
import SdlGraph.Proofs.Token.Lexeme
import SdlGraph.Proofs.Token.Numeral
import SdlGraph.Proofs.Token.StringLiteral
import SdlGraph.Proofs.Token.Splitting
import SdlGraph.Proofs.Catalog.Layout
import SdlGraph.Proofs.Token.LineFeeds
import SdlGraph.Proofs.Catalog.Rearrangement
import SdlGraph.Proofs.Catalog.Labels
import SdlGraph.Proofs.Session
import SdlGraph.Proofs.Document.Partition
import SdlGraph.Proofs.Validation.RepeatFindings
import SdlGraph.Proofs.Catalog.Growth
import SdlGraph.Proofs.Document.NestingLimit
import SdlGraph.Proofs.Graph.GridPlacement
import SdlGraph.Proofs.Graph.Lookups
