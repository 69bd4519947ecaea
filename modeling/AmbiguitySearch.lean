import AmbiguitySearch.Files.Directory
import AmbiguitySearch.Main
import AmbiguitySearch.Proofs.CommandLine.ExitStatus
import AmbiguitySearch.Proofs.Grammar.Vanishing
import AmbiguitySearch.Proofs.Search.Procedure
import AmbiguitySearch.Proofs.Search.Renaming
import AmbiguitySearch.Proofs.Survey.Decision
import AmbiguitySearch.Proofs.Survey.DepthLimit
import AmbiguitySearch.Proofs.Survey.OrderIndependence
import AmbiguitySearch.Search.Count
import AmbiguitySearch.Search.Descent
import AmbiguitySearch.Proofs.Grammar.Printed
import AmbiguitySearch.Proofs.Source.Layout
import AmbiguitySearch.Proofs.Source.Loading
import AmbiguitySearch.Proofs.Source.RoundTrip
import AmbiguitySearch.Proofs.Odometer
import AmbiguitySearch.Proofs.Survey.Indexed
import AmbiguitySearch.Proofs.Report.Identified
import AmbiguitySearch.Proofs.Survey.MaxLength
import AmbiguitySearch.Proofs.Search.Budget
import AmbiguitySearch.Proofs.Search.Pruning
import AmbiguitySearch.Proofs.Grammar.Extension
import AmbiguitySearch.Proofs.Search.Extension
import AmbiguitySearch.Proofs.Source.Line
import AmbiguitySearch.Proofs.Survey.EmptyVocabulary
import AmbiguitySearch.Proofs.Source.Redundancy
import AmbiguitySearch.Proofs.Report.Rectangle
import AmbiguitySearch.Proofs.Search.Backtracking
