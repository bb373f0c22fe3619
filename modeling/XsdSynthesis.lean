import XsdSynthesis.Text.Blank
import XsdSynthesis.Text.Letters
import XsdSynthesis.Text.Numbers
import XsdSynthesis.Json.Text
import XsdSynthesis.Json.Printer
import XsdSynthesis.Xml.Name
import XsdSynthesis.Classification
import XsdSynthesis.Options
import XsdSynthesis.Xsd.Name
import XsdSynthesis.Xsd.Defaults
import XsdSynthesis.Problem
import XsdSynthesis.Schema.Reader
import XsdSynthesis.Schema.Equality
import XsdSynthesis.Schema.WorkList
import XsdSynthesis.Xsd.Text
import XsdSynthesis.Xsd.Encoding
import XsdSynthesis.Conversion.Converter
import XsdSynthesis.Main
import XsdSynthesis.Proofs.Rules
import XsdSynthesis.Proofs.Pulls
import XsdSynthesis.Proofs.Synthesis
import XsdSynthesis.Proofs.Places
import XsdSynthesis.Proofs.Items
import XsdSynthesis.Proofs.Document
import XsdSynthesis.Proofs.Content
import XsdSynthesis.Proofs.Members
import XsdSynthesis.Proofs.Correspondence
import XsdSynthesis.Proofs.References
import XsdSynthesis.Proofs.Derivation
import XsdSynthesis.Proofs.AttributeTypes
import XsdSynthesis.Proofs.Reading
import XsdSynthesis.Proofs.Kept
import XsdSynthesis.Proofs.Coverage
import XsdSynthesis.Proofs.QualifiedNames
import XsdSynthesis.Proofs.Capture
import XsdSynthesis.Proofs.StartTags
import XsdSynthesis.Proofs.DocumentReader
import XsdSynthesis.Proofs.XmlProcessor
import XsdSynthesis.Proofs.Rendering
import XsdSynthesis.Proofs.Completeness
import XsdSynthesis.Proofs.Dispatching
import XsdSynthesis.Proofs.Decision
import XsdSynthesis.Proofs.Arrangement
import XsdSynthesis.Proofs.Likeness
import XsdSynthesis.Proofs.Transfer
import XsdSynthesis.Proofs.KeyOrder
import XsdSynthesis.Proofs.Failure
import XsdSynthesis.Proofs.Refusals
import XsdSynthesis.Proofs.Whereabouts
import XsdSynthesis.Proofs.Visits
import XsdSynthesis.Proofs.Trace
import XsdSynthesis.Proofs.VisitOrder
import XsdSynthesis.Proofs.ItemShape
import XsdSynthesis.Proofs.Simulation
import XsdSynthesis.Proofs.Budget
import XsdSynthesis.Proofs.Influence
import XsdSynthesis.Proofs.Lifecycle
import XsdSynthesis.Proofs.Grammar
import XsdSynthesis.Proofs.Lossless
import XsdSynthesis.Proofs.Independence
import XsdSynthesis.Proofs.Acceptance
import XsdSynthesis.Proofs.Depiction
import XsdSynthesis.Proofs.Exchange
import XsdSynthesis.Proofs.Interchange
import XsdSynthesis.Proofs.FilePlaces
import XsdSynthesis.Proofs.WholeOrNothing
import XsdSynthesis.Proofs.ArgumentTexts
import XsdSynthesis.Proofs.DerivationSets
import XsdSynthesis.Proofs.NamespaceTable
import XsdSynthesis.Proofs.Resolution
import XsdSynthesis.Proofs.RootShapes
import XsdSynthesis.Proofs.PointerTexts
import XsdSynthesis.Proofs.ShapeTables
import XsdSynthesis.Proofs.XmlNames
import XsdSynthesis.Proofs.BaseWalk
import XsdSynthesis.Proofs.Bookkeeping
