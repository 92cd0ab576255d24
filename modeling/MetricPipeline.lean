import MetricPipeline.Sampling.Xoshiro
import MetricPipeline.Delivery.Loopback
import MetricPipeline.Address.Text
import MetricPipeline.Client.Session
import MetricPipeline.Proofs.Rounds
import MetricPipeline.Proofs.Stream
import MetricPipeline.Proofs.Newlines
import MetricPipeline.Proofs.Plant
import MetricPipeline.Proofs.Payloads
import MetricPipeline.Proofs.Fates
import MetricPipeline.Proofs.Workers
import MetricPipeline.Proofs.Shutdown
import MetricPipeline.Proofs.Accounting
import MetricPipeline.Proofs.Waiting
import MetricPipeline.Proofs.Custody
import MetricPipeline.Proofs.Independence
import MetricPipeline.Proofs.Dispatch
import MetricPipeline.Proofs.Tuning
import MetricPipeline.Proofs.Connections
import MetricPipeline.Proofs.Effort
import MetricPipeline.Proofs.Fitting
import MetricPipeline.Proofs.Admission
import MetricPipeline.Proofs.Books
import MetricPipeline.Proofs.Parcels
import MetricPipeline.Proofs.Packing
import MetricPipeline.Proofs.Stripping
import MetricPipeline.Proofs.Lending
import MetricPipeline.Proofs.Erasure
import MetricPipeline.Proofs.Draws
import MetricPipeline.Proofs.Reconnecting
import MetricPipeline.Proofs.Counting
import MetricPipeline.Proofs.Batches
import MetricPipeline.Proofs.Rendering
import MetricPipeline.Proofs.Points
import MetricPipeline.Proofs.Alignment
import MetricPipeline.Proofs.Mirroring
import MetricPipeline.Proofs.Digits
import MetricPipeline.Proofs.Literals
import MetricPipeline.Proofs.Schemes
import MetricPipeline.Proofs.Nearest
import MetricPipeline.Proofs.Numerals
import MetricPipeline.Proofs.Shortest
import MetricPipeline.Proofs.Layouts
import MetricPipeline.Proofs.Sections
import MetricPipeline.Proofs.Millionths
