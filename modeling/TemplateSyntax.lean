import TemplateSyntax.Diagnostic.Listing
import TemplateSyntax.Session
import TemplateSyntax.Template.Json
import TemplateSyntax.Template.Outline
import TemplateSyntax.Proofs.Run
import TemplateSyntax.Proofs.TokenWise
import TemplateSyntax.Proofs.Cursor
import TemplateSyntax.Proofs.Progress
import TemplateSyntax.Proofs.Lookahead
import TemplateSyntax.Proofs.Locality
import TemplateSyntax.Proofs.NoDrift
import TemplateSyntax.Proofs.FirstFault
import TemplateSyntax.Proofs.Grammar
import TemplateSyntax.Proofs.Landing
import TemplateSyntax.Proofs.ExpressionSoundness
import TemplateSyntax.Proofs.ExpressionCompleteness
import TemplateSyntax.Proofs.TagPhrases
import TemplateSyntax.Proofs.DraftLanding
import TemplateSyntax.Proofs.TemplateSoundness
import TemplateSyntax.Proofs.TemplateCompleteness
import TemplateSyntax.Proofs.SpanOrder
import TemplateSyntax.Proofs.RoundTrip
import TemplateSyntax.Proofs.Concatenation
import TemplateSyntax.Proofs.UnfinishedTemplate
import TemplateSyntax.Proofs.OpenBodies
import TemplateSyntax.Proofs.SpelledReading
import TemplateSyntax.Proofs.Conservation
import TemplateSyntax.Proofs.RelaidTemplate
import TemplateSyntax.Proofs.Tokenization
import TemplateSyntax.Proofs.NestingDepth
import TemplateSyntax.Proofs.Salvage
import TemplateSyntax.Proofs.DepthGuard
import TemplateSyntax.Proofs.Resumption
import TemplateSyntax.Proofs.FaultReports
import TemplateSyntax.Proofs.ReadThrough
import TemplateSyntax.Proofs.BlockReferences
import TemplateSyntax.Proofs.WrittenExpressions
import TemplateSyntax.Proofs.WellFormedReading
import TemplateSyntax.Proofs.Scripts
import TemplateSyntax.Proofs.PulledEntries
import TemplateSyntax.Proofs.JsonText
import TemplateSyntax.Proofs.ShortestDecimal
import TemplateSyntax.Proofs.FloatLayout
import TemplateSyntax.Proofs.NodeJson
import TemplateSyntax.Proofs.ClosedDefinitions
import TemplateSyntax.Proofs.DefinitionLog
import TemplateSyntax.Proofs.Registration
import TemplateSyntax.Proofs.NestedFilters
import TemplateSyntax.Proofs.OperatorChains
import TemplateSyntax.Proofs.FilterPlaces
import TemplateSyntax.Proofs.Budget
import TemplateSyntax.Proofs.JoinedTokens
import TemplateSyntax.Proofs.DelimitedReading
import TemplateSyntax.Proofs.Stops
import TemplateSyntax.Proofs.LongestLexeme
import TemplateSyntax.Proofs.NumberLiterals
import TemplateSyntax.Proofs.Pictures
import TemplateSyntax.Proofs.ReportedPlaces
import TemplateSyntax.Proofs.TextBoundaries
