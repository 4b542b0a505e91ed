import FormLowering.Dialect.Calls
import FormLowering.Dialect.Cpp
import FormLowering.Element.Catalog
import FormLowering.Element.Serial
import FormLowering.Form.Rendering
import FormLowering.Form.Serial
import FormLowering.Geometry.Serial
import FormLowering.Integrand
import FormLowering.Json.Reader
import FormLowering.Json.Writer
import FormLowering.Proofs.Number.NaturalLiterals
import FormLowering.Proofs.Reading.CodeTree
import FormLowering.Proofs.Reading.Reader
import FormLowering.Proofs.Reading.Dialects
import FormLowering.Proofs.Semantics.Relations
import FormLowering.Proofs.Semantics.Actions
import FormLowering.Proofs.Semantics.Evaluation
import FormLowering.Proofs.Semantics.TensorArithmetic
import FormLowering.Proofs.Semantics.BasisCode
import FormLowering.Proofs.Semantics.Lowering
import FormLowering.Proofs.Semantics.DialectIndependence
import FormLowering.Proofs.Reading.DecimalInterpretation
import FormLowering.Proofs.Semantics.ValueAt
import FormLowering.Proofs.Semantics.ProductValue
import FormLowering.Proofs.Semantics.Meaning
import FormLowering.Proofs.MeaningPreservation
import FormLowering.Proofs.Calculus.ChainRule
import FormLowering.Proofs.Calculus.DirectionTuples
import FormLowering.Proofs.Semantics.BasisFunctions
import FormLowering.Proofs.PhysicalDerivatives
import FormLowering.Proofs.PiolaDuality
import FormLowering.Proofs.SharedNames
import FormLowering.Proofs.RenderingOnly
import FormLowering.Proofs.SupportOfCode
import FormLowering.Proofs.Declarations
import FormLowering.Proofs.FirstFailure
import FormLowering.Proofs.DerivativeLinearity
import FormLowering.Proofs.VanishingTables
import FormLowering.Proofs.RestrictedRuns
import FormLowering.Proofs.SerialForms
import FormLowering.Proofs.ZeroFactors
import FormLowering.Proofs.Semantics.TokenValues
import FormLowering.Proofs.ProductsOfCodes
import FormLowering.Proofs.Progress
import FormLowering.Proofs.Element.Leaves
import FormLowering.Proofs.LocatedComponents
import FormLowering.Proofs.ZerothPowers
import FormLowering.Proofs.TableTokens
import FormLowering.Proofs.InverseEntries
import FormLowering.Proofs.CollapsedCounts
import FormLowering.Proofs.UnitOperands
import FormLowering.Proofs.CatalogHistories
import FormLowering.Proofs.Traversal.RaisedFaults
import FormLowering.Proofs.UnreachableFaults
import FormLowering.Proofs.EntryChoices
import FormLowering.Proofs.DerivativeCounts
import FormLowering.Proofs.DistinctTerms
import FormLowering.Proofs.IdentifiedQuantities
