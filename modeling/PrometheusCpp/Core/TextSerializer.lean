/-
# PrometheusCpp.Core.TextSerializer -- the text exposition format, `text_serializer.cc`

A writer is the sequence of insertions (`out << ...`) it makes into the stream. `serialize` renders
them as a stream does that is otherwise in its default state: under the classic locale, at the
precision that `TextSerializer::Serialize` sets.
-/
import PrometheusCpp.Core.ClientMetric
import PrometheusCpp.Lib.Decimal

namespace PrometheusCpp

open ByteString

namespace TextSerializer

/-- One `operator<<` into the stream, of a string, a character, a signed or unsigned integer or a
double; an infinity or NaN is never inserted as a double. -/
inductive Insertion where
  | str (text : Bytes)
  | chr (c : UInt8)
  | int (n : Int)
  | uint (n : Nat)
  | dbl (x : ℚ)

/-- `max_digits10 - 1`. -/
def precision : Nat := 16

def Insertion.text : Insertion → Bytes
  | str text => text
  | chr c => [c]
  | int n => Decimal.intText n
  | uint n => Decimal.intText n
  | dbl x => Decimal.generalText precision x

def openBrace : UInt8 := 123
def closeBrace : UInt8 := 125
def comma : UInt8 := 44
def equals : UInt8 := 61
def letterN : UInt8 := 110

/-! ## Values -/

/-- The overloads of `WriteValue`. -/
class WriteValue (T : Type) where
  writeValue : T → List Insertion

export WriteValue (writeValue)

instance : WriteValue Double where
  writeValue
    | .nan => [.str (ascii "Nan")]
    | .num .negInf => [.str (ascii "-Inf")]
    | .num .posInf => [.str (ascii "+Inf")]
    | .num (.fin x) => [.dbl x]

instance : WriteValue Bytes where
  writeValue value := value.flatMap fun c =>
    if c = newline then [.chr backslash, .chr letterN]
    else if c = backslash then [.chr backslash, .chr c]
    else if c = quote then [.chr backslash, .chr c]
    else [.chr c]

/-! ## Lines -/

/-- The loop of `WriteHead` over the labels; `separator` is empty until one has been written. -/
def writeLabels : (separator : Bytes) → List ClientMetric.Label → List Insertion
  | _, [] => []
  | separator, lp :: rest =>
    [.str separator, .str lp.name, .str [equals, quote]] ++ writeValue lp.value ++
      [.str [quote]] ++ writeLabels [comma] rest

def writeHead {T : Type} [WriteValue T] (family : MetricFamily) (metric : ClientMetric)
    (suffix extraLabelName : Bytes) (extraLabelValue : T) : List Insertion :=
  [.str family.name, .str suffix] ++
    (if metric.label ≠ [] ∨ extraLabelName ≠ [] then
      [.str [openBrace]] ++ writeLabels [] metric.label ++
        (if extraLabelName ≠ [] then
          -- `prefix` is a comma once a label has been written.
          [.str (if metric.label = [] then [] else [comma]), .str extraLabelName,
              .str [equals, quote]] ++ writeValue extraLabelValue ++ [.str [quote]]
        else []) ++
        [.str [closeBrace]]
    else []) ++
    [.str [space]]

/-- A head without an extra label, which the default arguments leave empty. -/
def writePlainHead (family : MetricFamily) (metric : ClientMetric) (suffix : Bytes) :
    List Insertion := writeHead family metric suffix [] ([] : Bytes)

def writeTail (metric : ClientMetric) : List Insertion :=
  (if metric.timestamp_ms ≠ 0 then [.str [space], .int metric.timestamp_ms] else []) ++
    [.str [newline]]

/-! ## The writers of the metric types -/

/-- One line with one value. -/
def serializeValue (suffix : Bytes) (value : Double) (family : MetricFamily)
    (metric : ClientMetric) : List Insertion :=
  writePlainHead family metric suffix ++ writeValue value ++ writeTail metric

def serializeCounter (family : MetricFamily) (metric : ClientMetric) : List Insertion :=
  serializeValue [] metric.counter family metric

def serializeGauge (family : MetricFamily) (metric : ClientMetric) : List Insertion :=
  serializeValue [] metric.gauge family metric

def serializeInfo (family : MetricFamily) (metric : ClientMetric) : List Insertion :=
  serializeValue (ascii "_info") metric.info family metric

def serializeUntyped (family : MetricFamily) (metric : ClientMetric) : List Insertion :=
  serializeValue [] metric.untyped family metric

/-- The lines `_count` and `_sum` that a summary and a histogram begin with. -/
def serializeTotals (sample_count : Nat) (sample_sum : Double) (family : MetricFamily)
    (metric : ClientMetric) : List Insertion :=
  writePlainHead family metric (ascii "_count") ++ [.uint sample_count] ++ writeTail metric ++
    (writePlainHead family metric (ascii "_sum") ++ writeValue sample_sum ++ writeTail metric)

def serializeSummary (family : MetricFamily) (metric : ClientMetric) : List Insertion :=
  let sum := metric.summary
  serializeTotals sum.sample_count sum.sample_sum family metric ++
    sum.quantile.flatMap fun q =>
      writeHead family metric [] (ascii "quantile") q.quantile ++ writeValue q.value ++
        writeTail metric

/-- `last` of the source, behind its loop over the buckets. -/
def lastBound (bucket : List ClientMetric.Bucket) : Double :=
  bucket.foldl (fun _ b => b.upper_bound) .negInf

def serializeHistogram (family : MetricFamily) (metric : ClientMetric) : List Insertion :=
  let hist := metric.histogram
  serializeTotals hist.sample_count hist.sample_sum family metric ++
    (hist.bucket.flatMap fun b =>
      writeHead family metric (ascii "_bucket") (ascii "le") b.upper_bound ++
        [.uint b.cumulative_count] ++ writeTail metric) ++
    -- A bucket for infinity is added when the last one is not for it.
    (if lastBound hist.bucket ≠ .posInf then
      writeHead family metric (ascii "_bucket") (ascii "le") (ascii "+Inf") ++
        [.uint hist.sample_count] ++ writeTail metric
    else [])

/-- The name a type has in a TYPE line; info is not one of the format's types. -/
def typeName : MetricType → Bytes
  | .counter => ascii "counter"
  | .gauge => ascii "gauge"
  | .info => ascii "gauge"
  | .summary => ascii "summary"
  | .untyped => ascii "untyped"
  | .histogram => ascii "histogram"

def serializeMetric : MetricType → MetricFamily → ClientMetric → List Insertion
  | .counter => serializeCounter
  | .gauge => serializeGauge
  | .info => serializeInfo
  | .summary => serializeSummary
  | .untyped => serializeUntyped
  | .histogram => serializeHistogram

def serializeFamily (family : MetricFamily) : List Insertion :=
  (if family.help ≠ [] then
    [.str (ascii "# HELP "), .str family.name, .str [space], .str family.help, .str [newline]]
  else []) ++
    [.str (ascii "# TYPE "), .str family.name, .str (space :: typeName family.type ++ [newline])] ++
    family.metric.flatMap (serializeMetric family.type family)

def serialize (metrics : List MetricFamily) : Bytes :=
  (metrics.flatMap serializeFamily).flatMap Insertion.text

end TextSerializer

end PrometheusCpp
