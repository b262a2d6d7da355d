import StreamQuantiles.Proofs.Wire.Layout
import StreamQuantiles.Proofs.Store.Chain
import StreamQuantiles.Proofs.Store.Vacancy
import StreamQuantiles.Summary.Payload
import StreamQuantiles.Summary.Query
import StreamQuantiles.Proofs.Store.Links
import StreamQuantiles.Proofs.Store.Represents
import StreamQuantiles.Proofs.Store.Insertion
import StreamQuantiles.Proofs.Store.Removal
import StreamQuantiles.Proofs.Store.Sequence
import StreamQuantiles.Proofs.Summary.Compress
import StreamQuantiles.Proofs.Summary.Record
import StreamQuantiles.Proofs.Summary.Merge
import StreamQuantiles.Proofs.Summary.Answers
import StreamQuantiles.Proofs.Accuracy
import StreamQuantiles.Proofs.Summary.Streams
import StreamQuantiles.Proofs.Summary.Credit
import StreamQuantiles.Proofs.Store.Shape
import StreamQuantiles.Proofs.Wire.Format
import StreamQuantiles.Proofs.Wire.Reading
import StreamQuantiles.Proofs.Summary.Consistent
import StreamQuantiles.Proofs.Summary.Contents
import StreamQuantiles.Proofs.Summary.Payload
import StreamQuantiles.Proofs.Summary.Reachable
import StreamQuantiles.Proofs.Summary.Safety
import StreamQuantiles.Proofs.Summary.Traces
import StreamQuantiles.Proofs.Summary.Lineage
import StreamQuantiles.Proofs.Summary.Extremes
import StreamQuantiles.Proofs.Summary.Alike
import StreamQuantiles.Proofs.Wire.Alike
import StreamQuantiles.Proofs.Summary.Coupling
import StreamQuantiles.Proofs.Summary.Scripts
import StreamQuantiles.Proofs.Store.Reuse
import StreamQuantiles.Proofs.Summary.Joining
import StreamQuantiles.Proofs.Json.Records
import StreamQuantiles.Proofs.Summary.Text
import StreamQuantiles.Proofs.Summary.Monotone
import StreamQuantiles.Proofs.Summary.InPlace
import StreamQuantiles.Proofs.Wire.Truncation
import StreamQuantiles.Proofs.Summary.Histogram
import StreamQuantiles.Proofs.Summary.Multiplicity
import StreamQuantiles.Proofs.Summary.Representatives
