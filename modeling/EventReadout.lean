import EventReadout.Main
import EventReadout.Proofs.Assembly.Run
import EventReadout.Queue.Shared
import EventReadout.Proofs.Workers.Batch
import EventReadout.Proofs.Assembly.Conservation
import EventReadout.Proofs.Assembly.InOrder
import EventReadout.Proofs.Assembly.Watermark
import EventReadout.Proofs.Assembly.ByGeneration
import EventReadout.Proofs.Assembly.Residency
import EventReadout.Proofs.Assembly.WriteOrder
import EventReadout.Proofs.Assembly.Delivery
import EventReadout.Proofs.Assembly.Session
import EventReadout.Proofs.Frame.RoundTrip
import EventReadout.Proofs.Assembly.Acceptance
import EventReadout.Proofs.Assembly.Content
import EventReadout.Proofs.Assembly.Alignment
import EventReadout.Proofs.Assembly.Numbering
import EventReadout.Proofs.Assembly.Ledger
import EventReadout.Proofs.Assembly.Discards
import EventReadout.Proofs.Dump.Recovery
import EventReadout.Proofs.Dump.Survey
import EventReadout.Proofs.Job.Stream
import EventReadout.Proofs.Job.Resynchronisation
import EventReadout.Proofs.Channel.Operations
import EventReadout.Proofs.Slice.Arrivals
import EventReadout.Proofs.Job.Lending
import EventReadout.Proofs.Queue.Shared
import EventReadout.Proofs.Word.Readers
import EventReadout.Proofs.Word.Rebuilding
import EventReadout.Proofs.Assembly.Log
import EventReadout.Proofs.Config.Document
import EventReadout.Proofs.Packet.Packing
