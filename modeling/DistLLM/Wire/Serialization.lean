import DistLLM.Library.Dict
import DistLLM.Speculative.Decoders

/-!
# Tensors on the wire

Tensors as protobuf messages, key/value caches with and without compression, and what the receiver
of a forward response stores. The numbers that an element's bytes stand for are a parameter; the
bytes themselves are exact.
-/
namespace DistLLM.Wire

open Library

inductive DType
  | float64 | float32 | float16 | bfloat16 | float8_e4m3fn | float8_e5m2
  | int64 | int32 | int16 | int8 | uint8 | bool
  deriving DecidableEq, Repr

namespace DType

def itemsize : DType → Nat
  | float64 | int64 => 8
  | float32 | int32 => 4
  | float16 | bfloat16 | int16 => 2
  | float8_e4m3fn | float8_e5m2 | int8 | uint8 | bool => 1

def str : DType → String
  | float64 => "torch.float64"
  | float32 => "torch.float32"
  | float16 => "torch.float16"
  | bfloat16 => "torch.bfloat16"
  | float8_e4m3fn => "torch.float8_e4m3fn"
  | float8_e5m2 => "torch.float8_e5m2"
  | int64 => "torch.int64"
  | int32 => "torch.int32"
  | int16 => "torch.int16"
  | int8 => "torch.int8"
  | uint8 => "torch.uint8"
  | bool => "torch.bool"

end DType

/-- `is_cuda`: whether the data lies on a GPU. -/
structure Tensor where
  dtype : DType
  shape : List Nat
  bytes : List UInt8
  sized : bytes.length = shape.prod * dtype.itemsize
  isCuda : Bool
  deriving DecidableEq

def Tensor.numel (t : Tensor) : Nat := t.shape.prod

inductive RaisedError
  | valueError
  | runtimeError
  | indexError
  | unboundLocalError
  | nodeUnreachable (nodeId host : String) (port : Int) (originalError : String)
  deriving DecidableEq, Repr

/-- The numbers that the bytes of one element stand for, and the bytes nearest to a number. -/
structure Numbers where
  value : DType → List UInt8 → ℚ
  store : DType → ℚ → List UInt8
  store_length : ∀ d x, (store d x).length = d.itemsize

structure TensorProto where
  shape : List Nat
  dtype : String
  rawData : List UInt8
  data : List ℚ
  deriving DecidableEq

/-- `to_proto_tensor`. The sizes are `int32` on the wire. For a tensor on a GPU it asks for a copy
stream, and `get_tensor_copy_stream` reads its table before it has assigned it: the name is local to
the function, for want of a `global`. -/
def toProtoTensor : Option Tensor → Except RaisedError TensorProto
  | none => .ok ⟨[], "none", [], []⟩
  | some t =>
    if t.isCuda then .error .unboundLocalError
    else if ∀ size ∈ t.shape, size < 2 ^ 31 then .ok ⟨t.shape, t.dtype.str, t.bytes, []⟩
    else .error .valueError

def dtypeMap : List (String × DType) :=
  [("torch.float32", .float32), ("torch.float16", .float16), ("torch.bfloat16", .bfloat16),
    ("torch.float8_e4m3fn", .float8_e4m3fn), ("torch.int64", .int64), ("torch.int32", .int32),
    ("torch.uint8", .uint8), ("torch.bool", .bool), ("float32", .float32), ("float16", .float16),
    ("bfloat16", .bfloat16), ("float8_e4m3fn", .float8_e4m3fn), ("int64", .int64),
    ("int32", .int32), ("bool", .bool)]

/-- `.view(dtype).reshape(shape)` raises unless the bytes are those of such a tensor. -/
def viewAs (dtype : DType) (shape : List Nat) (bytes : List UInt8) : Except RaisedError Tensor :=
  if sized : bytes.length = shape.prod * dtype.itemsize then .ok ⟨dtype, shape, bytes, sized, false⟩
  else .error .runtimeError

def emptyTensor (dtype : DType) : Tensor := ⟨dtype, [0], [], by simp, false⟩

variable (num : Numbers)

def fromProtoTensor (pb : TensorProto) : Except RaisedError Tensor :=
  let tdtype := (dtypeMap.lookup pb.dtype).getD .float32
  if pb.rawData ≠ [] then viewAs tdtype pb.shape pb.rawData
  else if pb.data ≠ [] then viewAs tdtype pb.shape (pb.data.flatMap (num.store tdtype))
  else .ok (emptyTensor tdtype)

def element (t : Tensor) (i : Nat) : ℚ :=
  num.value t.dtype ((t.bytes.drop (i * t.dtype.itemsize)).take t.dtype.itemsize)

/-- The size of the last dimension; a scalar is a row of its own. -/
def Tensor.lastDim (t : Tensor) : Nat := t.shape.getLast?.getD 1

theorem Numbers.length_flatMap_store {α : Type} (d : DType) (f : α → ℚ) (items : List α) :
    (items.flatMap fun a => num.store d (f a)).length = items.length * d.itemsize := by
  induction items with
  | nil => simp
  | cons a items ih =>
    simp only [List.flatMap_cons, List.length_append, ih, num.store_length, List.length_cons]
    ring

/-- The type of a scale; the absolute value of the others is not implemented. -/
def scaleDType : DType → Option DType
  | .float64 => some .float64
  | .float32 => some .float32
  | .float16 => some .float16
  | .bfloat16 => some .bfloat16
  | .int64 | .int32 | .int16 | .int8 | .uint8 => some .float32
  | .float8_e4m3fn | .float8_e5m2 | .bool => none

def absMax (t : Tensor) (row : Nat) : ℚ :=
  (List.range t.lastDim).foldl (fun most i => max most |element num t (row * t.lastDim + i)|) 0

/-- `k.abs().amax(dim=-1, keepdim=True).clamp(min=1e-12) / levels`, with one element a row. -/
def rowScale (levels : ℚ) (t : Tensor) : Except RaisedError Tensor :=
  if t.lastDim = 0 then .error .indexError
  else
    match scaleDType t.dtype with
    | none => .error .runtimeError
    | some d =>
      .ok {
        dtype := d
        shape := t.shape.dropLast
        bytes := (List.range t.shape.dropLast.prod).flatMap fun row =>
          num.store d (max (absMax num t row) (1 / 10 ^ 12) / levels)
        sized := by rw [num.length_flatMap_store, List.length_range]
        isCuda := t.isCuda }

/-- `(k / k_scale).round().clamp(low, high).to(torch.int8)`. -/
def quantize (low high : Int) (t scale : Tensor) : Tensor where
  dtype := .int8
  shape := t.shape
  bytes := (List.range t.numel).flatMap fun i =>
    let quotient := num.value scale.dtype
      (num.store scale.dtype (element num t i / element num scale (i / t.lastDim)))
    num.store .int8 (max low (min high (Speculative.roundHalfEven quotient)) : Int)
  sized := by rw [num.length_flatMap_store, List.length_range, Tensor.numel]
  isCuda := t.isCuda

structure LayerCache where
  keyStates : TensorProto
  valueStates : TensorProto
  keyScale : Option TensorProto
  valueScale : Option TensorProto

def compressedLayer (levels : ℚ) (low high : Int) (pair : Tensor × Tensor) :
    Except RaisedError LayerCache := do
  let kScale ← rowScale num levels pair.1
  let vScale ← rowScale num levels pair.2
  let keyStates ← toProtoTensor (some (quantize num low high pair.1 kScale))
  let valueStates ← toProtoTensor (some (quantize num low high pair.2 vScale))
  let keyScale ← toProtoTensor (some kScale)
  let valueScale ← toProtoTensor (some vScale)
  return ⟨keyStates, valueStates, some keyScale, some valueScale⟩

def plainLayer (pair : Tensor × Tensor) : Except RaisedError LayerCache := do
  let keyStates ← toProtoTensor (some pair.1)
  let valueStates ← toProtoTensor (some pair.2)
  return ⟨keyStates, valueStates, none, none⟩

/-- The body of the loop of `set_kv_cache_proto`. -/
def layerProto (compress : Bool) (compressBits : Int) (pair : Tensor × Tensor) :
    Except RaisedError LayerCache :=
  if compress ∧ compressBits = 8 then compressedLayer num 127 (-128) 127 pair
  else if compress ∧ compressBits = 4 then compressedLayer num 7 (-7) 7 pair
  else plainLayer pair

def setKvCacheProto (layers : List LayerCache) (deltaKv : List (Tensor × Tensor)) (compress : Bool)
    (compressBits : Int) : Except RaisedError (List LayerCache) := do
  let added ← deltaKv.mapM (layerProto num compress compressBits)
  return layers ++ added

structure ForwardPassResponse where
  success : Bool
  errorMessage : String
  output : TensorProto
  kvCache : Option (List LayerCache)

structure NodeInfo where
  host : String
  port : Int
  healthy : Bool

/-- What handling a response can change; the outcomes are those told to the resource manager. -/
structure Receiver where
  node : NodeInfo
  outcomes : List (String × Bool)
  nodeKvCaches : Dict String (Option (List (Tensor × Tensor)))

def readLayer (layer : LayerCache) : Except RaisedError (Tensor × Tensor) := do
  let k ← fromProtoTensor num layer.keyStates
  let v ← fromProtoTensor num layer.valueStates
  return (k, v)

/-- `process_forward_response_pb`: the receiver after it, and what it returns or raises. -/
def processForwardResponse (response : ForwardPassResponse) (nodeId : String) (r : Receiver) :
    Receiver × Except RaisedError Tensor :=
  if response.success then
    let r := { r with outcomes := r.outcomes ++ [(nodeId, true)] }
    match fromProtoTensor num response.output with
    | .error e => (r, .error e)
    | .ok currentHidden =>
      match response.kvCache with
      | none | some [] => (r, .ok currentHidden)
      | some layers =>
        match layers.mapM (readLayer num) with
        | .error e => (r, .error e)
        | .ok cache =>
          ({ r with nodeKvCaches := r.nodeKvCaches.set nodeId (some cache) }, .ok currentHidden)
  else
    ({ r with
      outcomes := r.outcomes ++ [(nodeId, false)]
      node := { r.node with healthy := false } },
      .error (.nodeUnreachable nodeId r.node.host r.node.port response.errorMessage))

end DistLLM.Wire
