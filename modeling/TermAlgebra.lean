import TermAlgebra.Main
import TermAlgebra.Term.Nameless
import TermAlgebra.Term.WellFormed
import TermAlgebra.Proofs.Drawing
import TermAlgebra.Proofs.NamelessSubstitution
import TermAlgebra.Proofs.Reading
import TermAlgebra.Proofs.Building
import TermAlgebra.Proofs.Substitution
import TermAlgebra.Proofs.Occurrence
import TermAlgebra.Proofs.Replacement
import TermAlgebra.Proofs.PositionListing
import TermAlgebra.Proofs.Reinsertion
import TermAlgebra.Proofs.MatcherRuns
import TermAlgebra.Proofs.MatcherFrame
import TermAlgebra.Proofs.MatcherSoundness
import TermAlgebra.Proofs.UnifierSoundness
import TermAlgebra.Proofs.Session
import TermAlgebra.Proofs.Opening
import TermAlgebra.Proofs.MatchDuality
import TermAlgebra.Proofs.Expansion
import TermAlgebra.Proofs.MatchCompleteness
import TermAlgebra.Proofs.Instances
import TermAlgebra.Proofs.Absorption
import TermAlgebra.Proofs.Candidates
import TermAlgebra.Proofs.UnifierSteps
import TermAlgebra.Proofs.MostGeneralUnifier
import TermAlgebra.Proofs.AlphaEquivalence
import TermAlgebra.Proofs.Counterparts
import TermAlgebra.Proofs.ContextFilling
import TermAlgebra.Proofs.ReplacementOrder
import TermAlgebra.Proofs.MatchInvariance
import TermAlgebra.Proofs.ScopeEscape
import TermAlgebra.Proofs.PatternDiscipline
import TermAlgebra.Proofs.SubstitutionLemma
import TermAlgebra.Proofs.RoundTrip
import TermAlgebra.Proofs.Acceptance
import TermAlgebra.Proofs.LazyReading
import TermAlgebra.Proofs.NameResolution
import TermAlgebra.Proofs.ExecutionModes
import TermAlgebra.Proofs.AnswerInvariance
import TermAlgebra.Proofs.Observers
import TermAlgebra.Proofs.SolvedForm
import TermAlgebra.Proofs.Layout
import TermAlgebra.Proofs.PrintedNames
import TermAlgebra.Proofs.FreshBinders
import TermAlgebra.Proofs.CurriedApplication
import TermAlgebra.Proofs.Legibility
import TermAlgebra.Proofs.ErrorPlaces
import TermAlgebra.Proofs.Recovery
import TermAlgebra.Proofs.Tiling
import TermAlgebra.Proofs.PositionText
import TermAlgebra.Proofs.CanonicalSets
import TermAlgebra.Proofs.Declarations
import TermAlgebra.Proofs.Fragments
import TermAlgebra.Proofs.FirstOrderSolutions
