import StepGraph.Main
import StepGraph.Request
import StepGraph.Proofs.Catalog
import StepGraph.Proofs.EdgeId.Segments
import StepGraph.Proofs.Name.Ancestry
import StepGraph.Proofs.Name.ParentsFirst
import StepGraph.Proofs.Name.Turns
import StepGraph.Proofs.Roster
import StepGraph.Proofs.Roster.Rules
import StepGraph.Proofs.Step
import StepGraph.Proofs.Journal
import StepGraph.Proofs.Walk.Sites
import StepGraph.Proofs.Walk.Placing
import StepGraph.Proofs.Walk.Shadows
import StepGraph.Proofs.Drawing
import StepGraph.Proofs.Graph.EdgeIds
import StepGraph.Proofs.Graph.Nodes
import StepGraph.Proofs.Graph.Crossings
import StepGraph.Proofs.Graph.Trails
import StepGraph.Proofs.Graph.Summaries
import StepGraph.Proofs.Graph.Agreement
import StepGraph.Proofs.Graph.Coverage
import StepGraph.Proofs.Graph.Shadows
import StepGraph.Proofs.Journal.History
import StepGraph.Proofs.Walk.Entered
import StepGraph.Proofs.Graph.Outline
import StepGraph.Proofs.Walk.Entries
import StepGraph.Proofs.Graph.Entries
import StepGraph.Proofs.Graph.Settling
import StepGraph.Proofs.Graph.Forest
import StepGraph.Proofs.Graph.Order
import StepGraph.Proofs.Graph.Filling
import StepGraph.Proofs.Walk.Search
import StepGraph.Proofs.Walk.Paths
import StepGraph.Proofs.Graph.Positions
import StepGraph.Proofs.Graph.Locality
import StepGraph.Proofs.Graph.Blocks
import StepGraph.Proofs.Graph.Faults
import StepGraph.Proofs.Graph.Growth
import StepGraph.Proofs.Graph.Unresolved
import StepGraph.Proofs.Json.Restoring
import StepGraph.Proofs.Graph.Encoding
import StepGraph.Proofs.Json.Parts
import StepGraph.Proofs.Graph.Ids
import StepGraph.Proofs.Files
import StepGraph.Proofs.Report
import StepGraph.Proofs.Runs
import StepGraph.Proofs.Selection
import StepGraph.Proofs.Selector
import StepGraph.Proofs.EdgeId.Decoding
import StepGraph.Proofs.Step.Lanes
import StepGraph.Proofs.Graph.Styles
import StepGraph.Proofs.Graph.Stages
import StepGraph.Proofs.Walk.Balance
