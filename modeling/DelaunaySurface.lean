import DelaunaySurface.CommandLine.Arguments
import DelaunaySurface.CommandLine.Report
import DelaunaySurface.Double.Elementary
import DelaunaySurface.Double.Numeral
import DelaunaySurface.Double.Parts
import DelaunaySurface.Double.Shortest
import DelaunaySurface.Failure
import DelaunaySurface.Formula.Basic
import DelaunaySurface.Formula.Evaluation
import DelaunaySurface.Formula.Reader
import DelaunaySurface.Interpolant
import DelaunaySurface.Isoline
import DelaunaySurface.Locator
import DelaunaySurface.Main
import DelaunaySurface.Mesh.Basic
import DelaunaySurface.Mesh.Cavity
import DelaunaySurface.Mesh.Cell
import DelaunaySurface.Mesh.Fan
import DelaunaySurface.Mesh.Verdicts
import DelaunaySurface.Plane.Circle
import DelaunaySurface.Plane.Point
import DelaunaySurface.Plane.Rectangle
import DelaunaySurface.Plane.Segment
import DelaunaySurface.Plane.Turn
import DelaunaySurface.PointFile.Layout
import DelaunaySurface.PointFile.Reader
import DelaunaySurface.Proofs.CommandLine.Outcomes
import DelaunaySurface.Proofs.Double.Equality
import DelaunaySurface.Proofs.Double.Order
import DelaunaySurface.Proofs.Double.Side
import DelaunaySurface.Proofs.Interpolant.FlatSurface
import DelaunaySurface.Proofs.Interpolant.OneSurface
import DelaunaySurface.Proofs.Interpolant.Reproduction
import DelaunaySurface.Proofs.Isoline.Contours
import DelaunaySurface.Proofs.Isoline.Level
import DelaunaySurface.Proofs.Isoline.Segments
import DelaunaySurface.Proofs.Isoline.Steps
import DelaunaySurface.Proofs.Isoline.Thread
import DelaunaySurface.Proofs.Mesh.Boundary
import DelaunaySurface.Proofs.Mesh.Budget
import DelaunaySurface.Proofs.Mesh.Cutoff
import DelaunaySurface.Proofs.Mesh.Delaunay
import DelaunaySurface.Proofs.Mesh.Filling
import DelaunaySurface.Proofs.Mesh.Gluing
import DelaunaySurface.Proofs.Mesh.Growth
import DelaunaySurface.Proofs.Mesh.Insertion
import DelaunaySurface.Proofs.Mesh.Location
import DelaunaySurface.Proofs.Mesh.Patch
import DelaunaySurface.Proofs.Mesh.Population
import DelaunaySurface.Proofs.Mesh.Questions
import DelaunaySurface.Proofs.Mesh.Region
import DelaunaySurface.Proofs.Mesh.Ring
import DelaunaySurface.Proofs.Mesh.Slots
import DelaunaySurface.Proofs.Mesh.Surface
import DelaunaySurface.Proofs.Mesh.Surgery
import DelaunaySurface.Proofs.Mesh.Tally
import DelaunaySurface.Proofs.Mesh.Tiling
import DelaunaySurface.Proofs.Plane.Circumcircle
import DelaunaySurface.Proofs.Plane.Disk
import DelaunaySurface.Proofs.Plane.Exact
import DelaunaySurface.Proofs.Plane.Hinge
import DelaunaySurface.Proofs.Plane.Loop
import DelaunaySurface.Proofs.Plane.Power
import DelaunaySurface.Proofs.Plane.Real
import DelaunaySurface.Proofs.Plane.Rectangle
import DelaunaySurface.Proofs.Plane.Segment
import DelaunaySurface.Proofs.Plane.Similarity
import DelaunaySurface.Proofs.Plane.Turns
import DelaunaySurface.Proofs.Plane.Winding
import DelaunaySurface.Proofs.PointFile.Lines
import DelaunaySurface.Proofs.Raster.Rows
import DelaunaySurface.Proofs.Samples.Firsts
import DelaunaySurface.Proofs.Samples.History
import DelaunaySurface.Proofs.Surface.HistogramFrame
import DelaunaySurface.Proofs.Surface.Ledger
import DelaunaySurface.Proofs.Surface.Plain
import DelaunaySurface.Proofs.Surface.Transparency
import DelaunaySurface.Proofs.Text.Decoding
import DelaunaySurface.Proofs.Triangulation.Area
import DelaunaySurface.Proofs.Triangulation.Canonical
import DelaunaySurface.Proofs.Triangulation.Coherence
import DelaunaySurface.Proofs.Triangulation.Completeness
import DelaunaySurface.Proofs.Triangulation.Convexity
import DelaunaySurface.Proofs.Triangulation.Cutoff
import DelaunaySurface.Proofs.Triangulation.EdgeToEdge
import DelaunaySurface.Proofs.Triangulation.Edges
import DelaunaySurface.Proofs.Triangulation.EmptyCircles
import DelaunaySurface.Proofs.Triangulation.Engines
import DelaunaySurface.Proofs.Triangulation.Exact
import DelaunaySurface.Proofs.Triangulation.Hull
import DelaunaySurface.Proofs.Triangulation.InLine
import DelaunaySurface.Proofs.Triangulation.Justified
import DelaunaySurface.Proofs.Triangulation.Lookups
import DelaunaySurface.Proofs.Triangulation.NearestEdge
import DelaunaySurface.Proofs.Triangulation.Order
import DelaunaySurface.Proofs.Triangulation.Orientation
import DelaunaySurface.Proofs.Triangulation.Paving
import DelaunaySurface.Proofs.Triangulation.Range
import DelaunaySurface.Proofs.Triangulation.Schedule
import DelaunaySurface.Proofs.Triangulation.Similarity
import DelaunaySurface.Proofs.Triangulation.Tables
import DelaunaySurface.Proofs.Triangulation.Tally
import DelaunaySurface.Proofs.Triangulation.Tiling
import DelaunaySurface.Proofs.Triangulation.Twins
import DelaunaySurface.Proofs.Triangulation.VisibilityWalk
import DelaunaySurface.Proofs.Triangulation.Walk
import DelaunaySurface.Raster
import DelaunaySurface.Samples.Axes
import DelaunaySurface.Samples.Basic
import DelaunaySurface.Samples.Edit
import DelaunaySurface.Samples.Transform
import DelaunaySurface.Samples.View
import DelaunaySurface.Scalar
import DelaunaySurface.Surface.Basic
import DelaunaySurface.Surface.Call
import DelaunaySurface.Surface.Memo
import DelaunaySurface.Surface.Settings
import DelaunaySurface.Text.Blank
import DelaunaySurface.Text.Utf8
import DelaunaySurface.Timing
import DelaunaySurface.Triangulation.Basic
import DelaunaySurface.Triangulation.Build
import DelaunaySurface.Triangulation.Schedule
import DelaunaySurface.Triangulation.Tables
import DelaunaySurface.Triangulation.Triangle
import DelaunaySurface.Triple
