import Mathlib.Data.List.Basic
import Mathlib.Data.Nat.Basic

/-!
# The KV cache of a request

`KVCache` with its modes. A tensor is the list of its positions: what a token has for the key and
the value in every head of a batch is one row. Devices are left out, so that a copy on the CPU is
the list itself, and so are the data types but for what they do to a row.
-/
namespace DistLLM.Kv

inductive Raised
  | indexError
  | runtimeError
  | valueError
  deriving DecidableEq

/-- The roundings to codes: in segments, to 8-bit floats, and the truncations of `compress`. -/
inductive Quantizer
  | rounded (bits : Nat)
  | fp8
  | truncated (bits : Nat)
  deriving DecidableEq

/-- The arithmetic on rows. A row is quantized to codes, which are a row again, and a scale. -/
structure Codec (Row Scale : Type) where
  zero : Row
  quantize : Quantizer → Row → Row × Scale
  /-- `dequantize_kv_cache`. -/
  dequantize : Row → Scale → Row
  /-- The product in `get`, in the data type it returns. -/
  rescale : Row → Scale → Row
  /-- `torch` has `float8_e4m3fn`. -/
  hasFp8 : Bool

structure KVCache (Row Scale : Type) where
  cache : List (List Row) := []
  maxSeqLen : Nat := 0
  seqLens : List Nat := []
  quantized : Bool := false
  quantBits : Nat := 8
  quantFp8 : Bool := false
  qsegments : List (List (List (Row × Scale))) := []
  /-- `_scale_k` and `_scale_v`. -/
  scales : List (List Scale) := []
  offloaded : Bool := false
  cpuCache : Option (List (List Row)) := none

variable {Row Scale : Type}

/-- Rows as a tensor of this many positions: a single one is broadcast. -/
def broadcast {α : Type} (positions : Nat) (rows : List α) : Except Raised (List α) :=
  match rows with
  | [row] => .ok (List.replicate positions row)
  | rows => if rows.length = positions then .ok rows else .error .runtimeError

/-- `buffer[:, :, start:stop] = rows`; the slice ends where the buffer does. -/
def assignSlice (buffer : List Row) (start stop : Nat) (rows : List Row) :
    Except Raised (List Row) :=
  let start := min start buffer.length
  let stop := min stop buffer.length
  (broadcast (stop - start) rows).map fun rows => buffer.take start ++ rows ++ buffer.drop stop

namespace KVCache

variable (codec : Codec Row Scale) (c : KVCache Row Scale)

def initCache (numLayers : Nat) : KVCache Row Scale :=
  { c with
    cache := List.replicate numLayers (List.replicate (max c.maxSeqLen 1) codec.zero)
    seqLens := List.replicate numLayers 0 }

variable (layer : Nat)

/-- The segments of a layer, of which there are none behind the end of the list. -/
def segments : List (List (Row × Scale)) := (c.qsegments[layer]?).getD []

def dequantizeLayer : List Row :=
  (c.segments layer).flatten.map fun code => codec.dequantize code.1 code.2

/-- `k.float() * scale`: one scale or one row is broadcast. -/
def rescaleAll (rows : List Row) (scales : List Scale) : Except Raised (List Row) :=
  if rows.length = scales.length then .ok (rows.zipWith codec.rescale scales)
  else
    match scales with
    | [scale] => .ok (rows.map fun row => codec.rescale row scale)
    | scales =>
      match rows with
      | [row] => .ok (scales.map fun scale => codec.rescale row scale)
      | _ => .error .runtimeError

def get : Except Raised (Option (List Row)) :=
  match c.cache[layer]? with
  | some buffer =>
    if c.quantized then
      if c.segments layer ≠ [] then .ok (some (c.dequantizeLayer codec layer))
      else
        match c.scales[layer]? with
        | some scales => (rescaleAll codec buffer scales).map some
        | none => .ok (some buffer)
    else .ok (some buffer)
  | none =>
    -- the segments are read without a buffer as well
    if c.quantized ∧ c.segments layer ≠ [] then .ok (some (c.dequantizeLayer codec layer))
    else .ok none

def getAll : List (List Row) :=
  if c.quantized then (List.range c.qsegments.length).map (c.dequantizeLayer codec) else c.cache

def setAll (cache : List (List Row)) : KVCache Row Scale := { c with cache }

def sequenceLength : Nat := c.seqLens.headD 0

def clear : KVCache Row Scale :=
  -- the lengths, the scales and the mode stay
  { c with
    cache := []
    qsegments := []
    quantFp8 := false
    cpuCache := none
    offloaded := false }

def offloadToCpu : KVCache Row Scale :=
  if c.offloaded then c else { c with cpuCache := some c.cache, cache := [], offloaded := true }

def loadToGpu : KVCache Row Scale :=
  if c.offloaded then
    match c.cpuCache with
    | some cache => { c with cache, cpuCache := none, offloaded := false }
    | none => c
  else c

def enableQuantization (bits : Nat) (useFp8 : Bool) : Except Raised (KVCache Row Scale) :=
  if useFp8 ∧ codec.hasFp8 then
    .ok { c with quantized := true, quantFp8 := true, quantBits := 8 }
  else
    let bits := if useFp8 then 8 else bits
    if bits = 4 ∨ bits = 8 then
      .ok { c with quantized := true, quantBits := bits, quantFp8 := false }
    else .error .valueError

inductive Method
  | fp8
  | int8
  | int4
  deriving DecidableEq

/-- The buffers become codes, whatever is in them. -/
def compress (method : Method) : KVCache Row Scale :=
  let method := if method = .fp8 ∧ ¬ codec.hasFp8 then .int8 else method
  let quantizer : Quantizer :=
    match method with
    | .fp8 => .fp8
    | .int8 => .truncated 8
    | .int4 => .truncated 4
  { c with
    cache := c.cache.map fun buffer => buffer.map fun row => (codec.quantize quantizer row).1
    quantized := true
    quantFp8 := decide (method = .fp8)
    quantBits := if method = .int4 then 4 else 8
    scales := c.cache.map fun buffer => buffer.map fun row => (codec.quantize quantizer row).2 }

/-- `compress` with an exception on the way, as for the want of memory: the buffers stay. -/
def compressFailed : KVCache Row Scale := { c with scales := [] }

/-- `_update_quantized` and `_update_fp8_unquantized`, which differ in the rounding. -/
def updateQuantized (quantizer : Quantizer) (layer : Nat) (chunk : List Row) :
    List Row × KVCache Row Scale :=
  let codes := chunk.map (codec.quantize quantizer)
  let padded := c.qsegments ++ List.replicate (layer + 1 - c.qsegments.length) []
  (codes.map fun code => codec.dequantize code.1 code.2,
    { c with qsegments := padded.modify layer (· ++ [codes]) })

def update (chunk : List Row) : Except Raised (List Row × KVCache Row Scale) :=
  match c.cache[layer]? with
  | none => .error .indexError
  | some buffer =>
    if c.quantFp8 then .ok (c.updateQuantized codec .fp8 layer chunk)
    else if c.quantized then .ok (c.updateQuantized codec (.rounded c.quantBits) layer chunk)
    else
      match c.seqLens[layer]? with
      | none => .error .indexError
      | some curLen =>
        let stop := curLen + chunk.length
        let seqLens := c.seqLens.set layer stop
        if c.maxSeqLen ≠ 0 ∧ stop ≤ c.maxSeqLen then
          (assignSlice buffer curLen stop chunk).map fun buffer =>
            (buffer.take stop, { c with cache := c.cache.set layer buffer, seqLens })
        else if c.maxSeqLen = 0 then
          let rows := buffer.take curLen ++ chunk
          .ok (rows, { c with cache := c.cache.set layer rows, seqLens })
        else
          let newMax := max c.maxSeqLen stop * 2
          match assignSlice (List.replicate newMax codec.zero) 0 curLen (buffer.take curLen) with
          | .error raised => .error raised
          | .ok expanded =>
            (assignSlice expanded curLen stop chunk).map fun expanded =>
              -- the other layers keep the buffers they have
              (expanded.take stop, { c with
                cache := c.cache.set layer expanded, maxSeqLen := newMax, seqLens })

end KVCache

end DistLLM.Kv
