import ClpFfiGo.Foundation.Loop
import ClpFfiGo.Foundation.Slice
import ClpFfiGo.Foundation.ItemStream
import ClpFfiGo.Foundation.IoReader
import ClpFfiGo.Foundation.ChunkedReader
import ClpFfiGo.Foundation.FaultySource
import ClpFfiGo.Foundation.Fifo
import ClpFfiGo.Foundation.Pipe
import ClpFfiGo.Foundation.Seek
import ClpFfiGo.Foundation.ByteBuffer
import ClpFfiGo.Foundation.Heap
import ClpFfiGo.Foundation.HandleTable
import ClpFfiGo.Foundation.SignedRange
import ClpFfiGo.Types
import ClpFfiGo.Clp
import ClpFfiGo.Decimal
import ClpFfiGo.ErrorText
import ClpFfiGo.WildcardQuery
import ClpFfiGo.QueryMerging
import ClpFfiGo.NativeDeserializer
import ClpFfiGo.Deserializer
import ClpFfiGo.Reader
import ClpFfiGo.Refill
import ClpFfiGo.ReaderBuffer
import ClpFfiGo.RefillRoom
import ClpFfiGo.RefillLoop
import ClpFfiGo.ItemReading
import ClpFfiGo.Cursor
import ClpFfiGo.CursorSearch
import ClpFfiGo.Construction
import ClpFfiGo.IrStream
import ClpFfiGo.SampleCodec
import ClpFfiGo.PlainSearch
import ClpFfiGo.ReadSequence
import ClpFfiGo.ReadEvents
import ClpFfiGo.Operations
import ClpFfiGo.EntireSearch
import ClpFfiGo.BufferSize
import ClpFfiGo.Termination
import ClpFfiGo.EventCursor
import ClpFfiGo.FailedSearch
import ClpFfiGo.SearchChunking
import ClpFfiGo.Serializer
import ClpFfiGo.Writer
import ClpFfiGo.WriterStream
import ClpFfiGo.WriterClosing
import ClpFfiGo.RoundTrip
import ClpFfiGo.NativeObjects
import ClpFfiGo.SerializerLockstep
import ClpFfiGo.PreambleRoundTrip
import ClpFfiGo.CheckedDeserializer
import ClpFfiGo.DeltaRange
import ClpFfiGo.Encoder
import ClpFfiGo.Decoder
import ClpFfiGo.MessageComponents
import ClpFfiGo.DictVarPacking
import ClpFfiGo.SampleMessages
import ClpFfiGo.MessageRoundTrip
import ClpFfiGo.EncoderHistory
import ClpFfiGo.Pipeline
import ClpFfiGo.PipelineSafety
import ClpFfiGo.PipelineDelivery
import ClpFfiGo.Session
import ClpFfiGo.SessionCalls
import ClpFfiGo.SessionSafety
import ClpFfiGo.SeekingReader
import ClpFfiGo.SearchEnumeration
import ClpFfiGo.RetriedCalls
import ClpFfiGo.BufferGrowth
import ClpFfiGo.WriterReset
import ClpFfiGo.EncodingTransparency
import ClpFfiGo.ClosedReader
import ClpFfiGo.ViewLifetime
