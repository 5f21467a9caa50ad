import DataLineage.Project.Source
import DataLineage.View.Cache
import DataLineage.Proofs.CycleBreaking
import DataLineage.Proofs.LayoutRanks
import DataLineage.Proofs.CacheTransparency
import DataLineage.Proofs.TermGrammar
import DataLineage.Proofs.GraphParts
import DataLineage.Proofs.DistinctElements
import DataLineage.Proofs.RegistryEdges
import DataLineage.Proofs.Neighbours
import DataLineage.Proofs.BreadthFirst
import DataLineage.Proofs.Reachability
import DataLineage.Proofs.TermReadings
import DataLineage.Proofs.SelectorMeaning
import DataLineage.Proofs.NaturalFloats
import DataLineage.Proofs.RankColumns
import DataLineage.Proofs.LayoutOrders
import DataLineage.Proofs.GraphRestriction
import DataLineage.Proofs.SelectedViews
import DataLineage.Proofs.DisplayedTerms
import DataLineage.Proofs.DisplayedSelectors
import DataLineage.Proofs.FingerprintContent
import DataLineage.Proofs.ThinnedSearch
import DataLineage.Proofs.InsertedEdge
import DataLineage.Proofs.EdgesOutside
import DataLineage.Proofs.SelfLoops
import DataLineage.Proofs.NestedParts
import DataLineage.Proofs.StableSelections
import DataLineage.Proofs.RegistryEdits
import DataLineage.Proofs.DeclarationOrder
import DataLineage.Proofs.AlikeGraphs
import DataLineage.Proofs.IdSchemes
import DataLineage.Proofs.GraphAssembly
import DataLineage.Proofs.RemovedRecords
import DataLineage.Proofs.SnapshotNames
import DataLineage.Proofs.SelectableNames
import DataLineage.Proofs.WrittenTrees
import DataLineage.Proofs.SnapshotRoundTrip
import DataLineage.Proofs.BoundedSearches
import DataLineage.Proofs.OrderingSweeps
import DataLineage.Proofs.SurvivingTerms
import DataLineage.Proofs.EdgeIds
import DataLineage.Proofs.CacheLookups
import DataLineage.Proofs.SnapshotFaults
import DataLineage.Proofs.SearchLevels
import DataLineage.Proofs.GraphLookups
import DataLineage.Proofs.TokenSpellings
import DataLineage.Proofs.ValueSpellings
import DataLineage.Proofs.FilledRecords
import DataLineage.Proofs.RearrangedMembers
import DataLineage.Proofs.RearrangedSnapshots
import DataLineage.Proofs.MappedRecords
import DataLineage.Proofs.SettingsDocuments
