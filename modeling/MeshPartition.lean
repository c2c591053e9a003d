import MeshPartition.GlobalId
import MeshPartition.Error
import MeshPartition.IndexSet
import MeshPartition.IndexMap
import MeshPartition.Mesh
import MeshPartition.Assignment
import MeshPartition.Incidence
import MeshPartition.DualGraph
import MeshPartition.Partitioner
import MeshPartition.Dependency
import MeshPartition.Classification
import MeshPartition.Closure
import MeshPartition.Closure.InPlace
import MeshPartition.NodeList
import MeshPartition.Summary
import MeshPartition.Config
import MeshPartition.Log
import MeshPartition.Run
import MeshPartition.Text.Blank
import MeshPartition.Text.Lines
import MeshPartition.Text.Numeral
import MeshPartition.Text.Binary64
import MeshPartition.Deck.Token
import MeshPartition.Deck.Record
import MeshPartition.Deck.Lookup
import MeshPartition.Deck.Constraint
import MeshPartition.Deck
import MeshPartition.Json.Quoted
import MeshPartition.Json.Token
import MeshPartition.Json
import MeshPartition.Json.Form
import MeshPartition.Json.Tables
import MeshPartition.Proofs.Incidence
import MeshPartition.Proofs.Dependency
import MeshPartition.Proofs.Dependency.Resolution
import MeshPartition.Proofs.DualGraph
import MeshPartition.Proofs.Partitioner
import MeshPartition.Proofs.Closure.ClosedForm
import MeshPartition.Proofs.Closure.Table
import MeshPartition.Proofs.Closure.Propagate
import MeshPartition.Proofs.Closure.Termination
import MeshPartition.Proofs.Closure.SinglePass
import MeshPartition.Proofs.NodeList.Membership
import MeshPartition.Proofs.NodeList.Renumbering
import MeshPartition.Proofs.Run.NodeLists
import MeshPartition.Proofs.Run.Outcome
import MeshPartition.Proofs.Run.Coverage
import MeshPartition.Proofs.Closure.OpenLinks
import MeshPartition.Proofs.Run.Warnings
import MeshPartition.Proofs.Closure.Masters
import MeshPartition.Proofs.NodeList.Comparison
import MeshPartition.Proofs.Run.Shape
import MeshPartition.Proofs.Relabelling
import MeshPartition.Proofs.Closure.Relabelling
import MeshPartition.Proofs.Run.Relabelling
import MeshPartition.Proofs.Run.Growth
import MeshPartition.Proofs.Counting
import MeshPartition.Proofs.Incidence.Filling
import MeshPartition.Proofs.Classification
import MeshPartition.Proofs.DualGraph.Adjacency
import MeshPartition.Proofs.Run.Agreement
import MeshPartition.Proofs.Run.Cut
import MeshPartition.Proofs.EdgeCut
import MeshPartition.Draft
import MeshPartition.Proofs.Draft.Consistency
import MeshPartition.Proofs.Mesh
import MeshPartition.Proofs.Text.Lines
import MeshPartition.Proofs.Text.Numeral
import MeshPartition.Proofs.Deck.Token
import MeshPartition.Proofs.Deck.Record
import MeshPartition.Proofs.Deck.Sections
import MeshPartition.Proofs.Deck.Truncation
import MeshPartition.Deck.Outline
import MeshPartition.Proofs.Deck.Writing
import MeshPartition.Proofs.Deck.Alike
import MeshPartition.Proofs.Closure.Depth
import MeshPartition.Proofs.Closure.Absorption
import MeshPartition.Proofs.Closure.InPlace
import MeshPartition.Proofs.Closure.Frame
import MeshPartition.Proofs.Deck.Rewriting
import MeshPartition.Proofs.Partitioner.Blocks
import MeshPartition.Proofs.Deck.Layout
import MeshPartition.Proofs.Deck.Keyword
import MeshPartition.Proofs.Deck.Constraint
import MeshPartition.Text.Words
import MeshPartition.Proofs.Summary
import MeshPartition.Proofs.IndexMap
import MeshPartition.Proofs.Json
import MeshPartition.Proofs.Json.Quoted
import MeshPartition.Proofs.Json.Token
import MeshPartition.Proofs.Json.Form
import MeshPartition.Proofs.Json.Tables
import MeshPartition.Proofs.Deck.Lookup
import MeshPartition.Proofs.Text.Numbering
import MeshPartition.Proofs.Deck.Numbering
