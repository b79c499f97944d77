import Lamina.Main
import Lamina.Pass.Rule
import Lamina.Proofs.Fillings.Override
import Lamina.Proofs.Builder.Chains
import Lamina.Proofs.Loader.Listing
import Lamina.Proofs.Builder.Strict
import Lamina.Proofs.Fingerprint
import Lamina.Proofs.Builder.Cycles
import Lamina.Proofs.Engine.Outcome
import Lamina.Proofs.Builder.Locations
import Lamina.Proofs.Builder.Order
import Lamina.Proofs.Context.Lines
import Lamina.Proofs.Builder.Insets
import Lamina.Proofs.Pass.Conserving
import Lamina.Proofs.Builder.Stylesheets
import Lamina.Proofs.Builder.Reads
import Lamina.Proofs.Engine.Naming
import Lamina.Proofs.Registry.History
import Lamina.Proofs.Cache.Recency
import Lamina.Proofs.Cache.Torn
import Lamina.Proofs.SourceMap.Mentions
import Lamina.Proofs.Walk.Order
import Lamina.Proofs.Token.Stack
