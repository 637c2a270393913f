import ApiSurface.Main
import ApiSurface.Proofs.CommandLine.Summary
import ApiSurface.Proofs.Model.Confluence
import ApiSurface.Proofs.Model.Origins
import ApiSurface.Proofs.Json.RoundTrip
import ApiSurface.Proofs.Yaml.RoundTrip
import ApiSurface.Session
import ApiSurface.Proofs.Json.Grammar
import ApiSurface.Proofs.Json.Outcome
import ApiSurface.Proofs.Json.Body
import ApiSurface.Proofs.Json.Magnitude
import ApiSurface.Proofs.Json.Stepping
import ApiSurface.Proofs.Json.Denotation
import ApiSurface.Proofs.Json.Decoding
import ApiSurface.Proofs.Json.Accepted
import ApiSurface.Proofs.Decimal.Shortest
import ApiSurface.Proofs.Json.Written
import ApiSurface.Proofs.Json.Delimited
import ApiSurface.Proofs.Json.Members
import ApiSurface.Proofs.Json.MarkerSlot
import ApiSurface.Proofs.Json.Site
import ApiSurface.Proofs.Json.Edits
import ApiSurface.Proofs.Yaml.Lenient
import ApiSurface.Proofs.Model.MarkerForms
import ApiSurface.Proofs.Model.Version
import ApiSurface.Proofs.Model.Numbers
import ApiSurface.Proofs.Model.Notice
import ApiSurface.Proofs.Model.Passes
import ApiSurface.Proofs.Yaml.Tagged
import ApiSurface.Proofs.Json.Choice
import ApiSurface.Proofs.Model.OriginForms
import ApiSurface.Proofs.Format
