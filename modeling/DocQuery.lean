import DocQuery.Main
import DocQuery.Proofs.Acceptance
import DocQuery.Proofs.Agreement
import DocQuery.Tree.Build
import DocQuery.Proofs.Text.Percent
import DocQuery.Proofs.Path
import DocQuery.Proofs.Query.Printing
import DocQuery.Proofs.Query.RoundTrip
import DocQuery.Proofs.Composition
import DocQuery.Proofs.Walk.Preorder
import DocQuery.Proofs.Walk.Stopping
import DocQuery.Proofs.Walk.Leaves
import DocQuery.Proofs.Location
import DocQuery.Proofs.Reordering
import DocQuery.Proofs.Independence
import DocQuery.Proofs.Text.Decoding
import DocQuery.Proofs.Query.Failure
import DocQuery.Proofs.Walk.Order
import DocQuery.Proofs.Skips
import DocQuery.Proofs.Tree.Children
import DocQuery.Proofs.Json.RoundTrip
import DocQuery.Proofs.Equality
import DocQuery.Proofs.Yaml.Conversion
