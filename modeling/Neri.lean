import Neri.Codegen.Proofs.AllocationRegionsProofs
import Neri.Codegen.Proofs.ClassLayoutProofs
import Neri.Codegen.Proofs.DeclarationOrderProofs
import Neri.Codegen.Proofs.DominanceProofs
import Neri.Codegen.Proofs.NativeAgreementProofs
import Neri.Data.Proofs.DateTimeOffsetProofs
import Neri.Data.Proofs.SqlNormalizationProofs
import Neri.Frontend.Proofs.ArenaStorageProofs
import Neri.Frontend.Proofs.LexerProofs
import Neri.Frontend.Proofs.TokenBufferProofs
import Neri.Ir.Proofs.EffectsProofs
import Neri.Ir.Proofs.LinkReachabilityProofs
import Neri.Ir.Proofs.PartitionProofs
import Neri.Lsp.Proofs.UriProofs
import Neri.Runtime.Proofs.TicketProofs
import Neri.Semantic.Proofs.AbstractProofs
import Neri.Semantic.Proofs.InheritanceProofs
import Neri.Semantic.Proofs.NarrowingProofs
import Neri.Semantic.Proofs.ViewedTypesProofs
import Neri.Stdlib.Json.Proofs.RoundTripProofs
import Neri.Stdlib.Proofs.ChangesProofs
import Neri.Stdlib.Proofs.HttpHeadProofs
import Neri.Stdlib.Proofs.HttpProofs
import Neri.Stdlib.Proofs.ScalarAccessProofs
import Neri.Stdlib.Proofs.Utf8OffsetProofs
import Neri.Frontend.Proofs.IdentifierProofs
import Neri.Semantic.CFunctionTypes
import Neri.Semantic.Proofs.CFunctionTypesProofs
