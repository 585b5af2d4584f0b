import Folio.CommandLine
import Folio.Component
import Folio.Config
import Folio.Config.SocketAddress
import Folio.Document
import Folio.Identity
import Folio.Json.Basic
import Folio.Json.Printer
import Folio.Json.Reader
import Folio.Json.Shape
import Folio.Link.Embed
import Folio.Link.HostForm
import Folio.Link.SecureHost
import Folio.Link.Url
import Folio.Link.Video
import Folio.Main
import Folio.Markup.Element
import Folio.Markup.Octets
import Folio.Markup.Policy
import Folio.Markup.Reference
import Folio.Markup.Sanitize
import Folio.Markup.Token
import Folio.Number.Double
import Folio.Number.Numeral
import Folio.Number.Shortest
import Folio.Page
import Folio.Page.Compose
import Folio.Page.Head
import Folio.Page.Layout
import Folio.Page.Settings
import Folio.Proofs.Aliases
import Folio.Proofs.Ascii
import Folio.Proofs.Authored
import Folio.Proofs.Bags
import Folio.Proofs.Calls
import Folio.Proofs.Cascade
import Folio.Proofs.Catalog
import Folio.Proofs.Codec
import Folio.Proofs.Components
import Folio.Proofs.Coupling
import Folio.Proofs.Decoding
import Folio.Proofs.Doubles
import Folio.Proofs.Dropped
import Folio.Proofs.Elements
import Folio.Proofs.Enclosure
import Folio.Proofs.Escape
import Folio.Proofs.Faults
import Folio.Proofs.FlatKeys
import Folio.Proofs.Harmless
import Folio.Proofs.Head
import Folio.Proofs.Headings
import Folio.Proofs.Hosts
import Folio.Proofs.Images
import Folio.Proofs.InlineStyle
import Folio.Proofs.Keys
import Folio.Proofs.Layers
import Folio.Proofs.Lexing
import Folio.Proofs.Listed
import Folio.Proofs.Loading
import Folio.Proofs.Local
import Folio.Proofs.Locations
import Folio.Proofs.Marks
import Folio.Proofs.NewTab
import Folio.Proofs.Numerals
import Folio.Proofs.Octets
import Folio.Proofs.Order
import Folio.Proofs.Outline
import Folio.Proofs.Pages
import Folio.Proofs.Paths
import Folio.Proofs.Pieces
import Folio.Proofs.Places
import Folio.Proofs.Printed
import Folio.Proofs.RawText
import Folio.Proofs.Reachable
import Folio.Proofs.Reader
import Folio.Proofs.Rebuilt
import Folio.Proofs.Registry
import Folio.Proofs.Requests
import Folio.Proofs.Reread
import Folio.Proofs.Resanitize
import Folio.Proofs.Respell
import Folio.Proofs.Sanitized
import Folio.Proofs.Scheme
import Folio.Proofs.Settings
import Folio.Proofs.Sheet
import Folio.Proofs.Shortest
import Folio.Proofs.Shorthand
import Folio.Proofs.Shown
import Folio.Proofs.Spacers
import Folio.Proofs.Stripping
import Folio.Proofs.StyleElement
import Folio.Proofs.StyleText
import Folio.Proofs.Tags
import Folio.Proofs.Targets
import Folio.Proofs.Trusted
import Folio.Proofs.Url
import Folio.Proofs.Verbatim
import Folio.Proofs.Video
import Folio.Proofs.Visible
import Folio.Props
import Folio.Render.Component
import Folio.Render.Video
import Folio.Render.Walk
import Folio.Route
import Folio.Server.Response
import Folio.Server.Row
import Folio.Server.Snapshot
import Folio.Server.Store
import Folio.Site
import Folio.Sitemap
import Folio.Style.Breakpoint
import Folio.Style.Declaration
import Folio.Style.Hygiene
import Folio.Style.Layers
import Folio.Style.Value
import Folio.Template
import Folio.Text.Basic
import Folio.Text.Blank
import Folio.Text.Digit
import Folio.Text.Fold
import Folio.Time
import Folio.Yaml.Basic
import Folio.Yaml.Block
import Folio.Yaml.Mark
import Folio.Yaml.Node
import Folio.Yaml.Place
import Folio.Yaml.Reader
import Folio.Yaml.Scalar
import Folio.Yaml.Scanner
import Folio.Yaml.Token
