import DistLLM.Library.Folds
import DistLLM.Wire.Serialization

/-!
# What the receiver restores

The decoder's table has the types it was written for and takes every other one for float32, an
empty payload has lost its shape, and the scales of a compressed cache are not read. The encoder
fails for every tensor on a GPU. What travels is exactly a non-empty tensor of a listed type on the
CPU, or an empty one of shape `[0]`.
-/
namespace DistLLM.Wire

open Library

/-- Encoding and decoding gives back the type, the shape and the bytes, in a tensor on the CPU. -/
def RoundTrips (num : Numbers) (t : Tensor) : Prop :=
  ∃ pb, toProtoTensor (some t) = .ok pb ∧ fromProtoTensor num pb = .ok { t with isCuda := false }

def sentScale (num : Numbers) (compress : Bool) (compressBits : Int) (t : Tensor) : Option Tensor :=
  if compress ∧ compressBits = 8 then (rowScale num 127 t).toOption
  else if compress ∧ compressBits = 4 then (rowScale num 7 t).toOption
  else none

/-- Half a quantisation step at an element; without a scale the values are exact. -/
def halfStep (num : Numbers) (scale : Option Tensor) (t : Tensor) (i : Nat) : ℚ :=
  match scale with
  | none => 0
  | some scale => element num scale (i / t.lastDim) / 2

/-- The shape, and the values to within half a quantisation step. -/
def Close (num : Numbers) (compress : Bool) (compressBits : Int) (t stored : Tensor) : Prop :=
  stored.shape = t.shape ∧ ∀ i < t.numel, |element num stored i - element num t i| ≤
    halfStep num (sentScale num compress compressBits t) t i

def ClosePair (num : Numbers) (compress : Bool) (compressBits : Int)
    (pair stored : Tensor × Tensor) : Prop :=
  Close num compress compressBits pair.1 stored.1 ∧ Close num compress compressBits pair.2 stored.2

/-- Whatever else a successful response holds, its cache is stored as it was. -/
def Restores (num : Numbers) (deltaKv : List (Tensor × Tensor)) (compress : Bool)
    (compressBits : Int) : Prop :=
  ∃ layers, setKvCacheProto num [] deltaKv compress compressBits = .ok layers ∧
    ∀ response nodeId receiver hidden, response.success = true →
      fromProtoTensor num response.output = .ok hidden → response.kvCache = some layers →
      ∃ cache, (processForwardResponse num response nodeId receiver).1.nodeKvCaches.get? nodeId =
          some (some cache) ∧
        List.Forall₂ (ClosePair num compress compressBits) deltaKv cache

def decodable : DType → Bool
  | .float32 | .float16 | .bfloat16 | .float8_e4m3fn | .int64 | .int32 | .uint8 | .bool => true
  | .float64 | .float8_e5m2 | .int16 | .int8 => false

def sizesFit (t : Tensor) : Bool := t.shape.all fun size => decide (size < 2 ^ 31)

/-- A tensor of the CPU whose shape and payload survive: an empty one has shape `[0]`, another a
listed type. -/
def shapeTravels (t : Tensor) : Bool :=
  sizesFit t && !t.isCuda && if t.numel = 0 then decide (t.shape = [0]) else decodable t.dtype

def travels (t : Tensor) : Bool := shapeTravels t && decodable t.dtype

/-- Some layers, none of them compressed, and every tensor travels. -/
def cacheTravels (deltaKv : List (Tensor × Tensor)) (compress : Bool) (compressBits : Int) : Bool :=
  !deltaKv.isEmpty && !(compress && (decide (compressBits = 8) || decide (compressBits = 4))) &&
    deltaKv.all fun pair => shapeTravels pair.1 && shapeTravels pair.2

variable (num : Numbers)

theorem lookup_str (d : DType) :
    dtypeMap.lookup d.str = if decodable d = true then some d else none := by
  cases d <;> decide

theorem itemsize_of_unlisted {d : DType} (unlisted : decodable d = false) :
    d.itemsize ≠ DType.float32.itemsize := by
  cases d <;> simp_all [decodable, DType.itemsize]

theorem itemsize_pos (d : DType) : 0 < d.itemsize := by
  cases d <;> decide

theorem bytes_eq_nil_iff (t : Tensor) : t.bytes = [] ↔ t.numel = 0 := by
  rw [← List.length_eq_zero_iff, t.sized, Nat.mul_eq_zero]
  exact or_iff_left (ne_of_gt (itemsize_pos t.dtype))

theorem toProtoTensor_of_fit {t : Tensor} (fit : sizesFit t = true ∧ t.isCuda = false) :
    toProtoTensor (some t) = .ok ⟨t.shape, t.dtype.str, t.bytes, []⟩ := by
  obtain ⟨fit, cpu⟩ := fit
  simp only [sizesFit, List.all_eq_true, decide_eq_true_eq] at fit
  exact (if_neg (by simp [cpu])).trans (if_pos fit)

theorem fit_of_toProtoTensor {t : Tensor} {pb : TensorProto}
    (sent : toProtoTensor (some t) = .ok pb) :
    (sizesFit t = true ∧ t.isCuda = false) ∧ pb = ⟨t.shape, t.dtype.str, t.bytes, []⟩ := by
  rw [toProtoTensor] at sent
  split at sent
  next => cases sent
  next cpu =>
    split at sent
    next fit =>
      exact ⟨⟨by simpa [sizesFit] using fit, by simpa using cpu⟩, (Except.ok.inj sent).symm⟩
    next => cases sent

theorem fromProtoTensor_sent (t : Tensor) :
    fromProtoTensor num ⟨t.shape, t.dtype.str, t.bytes, []⟩ =
      if t.numel = 0 then
        .ok (emptyTensor (if decodable t.dtype = true then t.dtype else .float32))
      else if decodable t.dtype = true then .ok { t with isCuda := false }
      else .error .runtimeError := by
  have type : (dtypeMap.lookup t.dtype.str).getD .float32 =
      if decodable t.dtype = true then t.dtype else .float32 := by
    rw [lookup_str]
    split <;> rfl
  simp only [fromProtoTensor, type, ne_eq, bytes_eq_nil_iff]
  by_cases empty : t.numel = 0
  · simp [empty]
  · rw [if_pos empty, if_neg empty]
    by_cases listed : decodable t.dtype = true
    · simp only [if_pos listed]
      exact dif_pos t.sized
    · rw [if_neg listed, if_neg listed]
      -- the payload would have to be that of a float32 tensor of the same shape
      have other : ¬ t.bytes.length = t.shape.prod * DType.float32.itemsize := by
        rw [t.sized]
        intro same
        have positive : 0 < t.shape.prod := Nat.pos_of_ne_zero empty
        exact itemsize_of_unlisted (Bool.eq_false_iff.mpr listed)
          (Nat.eq_of_mul_eq_mul_left positive same)
      exact dif_neg other

theorem roundTrips_iff (t : Tensor) : RoundTrips num t ↔ travels t = true := by
  simp only [travels, shapeTravels, Bool.and_eq_true, Bool.not_eq_true']
  constructor
  · rintro ⟨pb, sent, received⟩
    obtain ⟨fit, rfl⟩ := fit_of_toProtoTensor sent
    rw [fromProtoTensor_sent] at received
    by_cases empty : t.numel = 0
    · rw [if_pos empty] at received
      have same := Except.ok.inj received
      by_cases listed : decodable t.dtype = true
      · rw [if_pos listed] at same
        have shape : [0] = t.shape := congrArg Tensor.shape same
        exact ⟨⟨fit, by simpa [empty] using shape.symm⟩, listed⟩
      · rw [if_neg listed] at same
        have type : DType.float32 = t.dtype := congrArg Tensor.dtype same
        exact absurd (by rw [← type]; rfl) listed
    · rw [if_neg empty] at received
      split at received
      next listed => exact ⟨⟨fit, by rwa [if_neg empty]⟩, listed⟩
      next => cases received
  · rintro ⟨⟨fit, shape⟩, listed⟩
    refine ⟨_, toProtoTensor_of_fit fit, ?_⟩
    rw [fromProtoTensor_sent]
    by_cases empty : t.numel = 0
    · rw [if_pos empty, if_pos listed]
      rw [if_pos empty, decide_eq_true_eq] at shape
      obtain ⟨dtype, _, bytes, sized, _⟩ := t
      subst shape
      obtain rfl : bytes = [] := by simpa using sized
      rfl
    · rw [if_neg empty, if_pos listed]

/-! ### Caches -/

variable (deltaKv : List (Tensor × Tensor)) (compress : Bool) (compressBits : Int)

/-- One pair is encoded, decoded, and close to what it was. -/
def Delivers (pair : Tensor × Tensor) : Prop :=
  ∃ layer stored, layerProto num compress compressBits pair = .ok layer ∧
    readLayer num layer = .ok stored ∧ ClosePair num compress compressBits pair stored

/-- A response with these layers and an output that can be decoded. -/
def responseOf (layers : List LayerCache) : ForwardPassResponse :=
  ⟨true, "", ⟨[], "none", [], []⟩, some layers⟩

theorem restores_iff : Restores num deltaKv compress compressBits ↔
      deltaKv ≠ [] ∧ ∀ pair ∈ deltaKv, Delivers num compress compressBits pair := by
  have each := @mapM_mapM_iff _ _ _ _ (layerProto num compress compressBits) deltaKv (readLayer num)
    (ClosePair num compress compressBits)
  have added : ∀ layers, setKvCacheProto num [] deltaKv compress compressBits = .ok layers ↔
      deltaKv.mapM (layerProto num compress compressBits) = .ok layers := by
    intro layers
    rw [setKvCacheProto]
    cases deltaKv.mapM (layerProto num compress compressBits) <;> rfl
  unfold Delivers
  rw [← each]
  constructor
  · rintro ⟨layers, filled, stores⟩
    -- a receiver that holds nothing yet
    obtain ⟨cache, stored, close⟩ := stores (responseOf layers) "" ⟨⟨"", 0, true⟩, [], ∅⟩
      (emptyTensor .float32) rfl rfl rfl
    rw [added] at filled
    cases layers with
    | nil => cases stored
    | cons layer rest =>
      cases read : (layer :: rest).mapM (readLayer num) with
      | error e =>
        simp [processForwardResponse, responseOf, fromProtoTensor, read] at stored
      | ok cache' =>
        have same : cache' = cache := by
          simpa [processForwardResponse, responseOf, fromProtoTensor, read] using stored
        subst same
        refine ⟨?_, layer :: rest, cache', filled, read, close⟩
        rintro rfl
        cases filled
  · rintro ⟨nonempty, layers, cache, filled, read, close⟩
    refine ⟨layers, (added layers).mpr filled, ?_⟩
    intro response nodeId receiver hidden success output layered
    refine ⟨cache, ?_, close⟩
    cases layers with
    | nil =>
      obtain rfl : [] = cache := Except.ok.inj read
      exact absurd (List.forall₂_nil_right_iff.mp close) nonempty
    | cons layer rest =>
      simp [processForwardResponse, success, output, layered, read]

/-- A tensor that is sent as it is comes back with its shape and its values. -/
theorem close_iff (t : Tensor) {compress : Bool} {compressBits : Int}
    (plain : sentScale num compress compressBits t = none) :
    (∃ pb stored, toProtoTensor (some t) = .ok pb ∧ fromProtoTensor num pb = .ok stored ∧
      Close num compress compressBits t stored) ↔ shapeTravels t = true := by
  simp only [shapeTravels, Bool.and_eq_true, Bool.not_eq_true']
  constructor
  · rintro ⟨pb, stored, sent, received, shape, -⟩
    obtain ⟨fit, rfl⟩ := fit_of_toProtoTensor sent
    rw [fromProtoTensor_sent] at received
    refine ⟨fit, ?_⟩
    split at received
    next empty =>
      rw [if_pos empty, decide_eq_true_eq, ← shape, ← Except.ok.inj received]
      rfl
    next filled =>
      split at received
      next listed => rwa [if_neg filled]
      next => cases received
  · rintro ⟨fit, shape⟩
    have received := fromProtoTensor_sent num t
    by_cases empty : t.numel = 0
    · rw [if_pos empty] at received
      rw [if_pos empty, decide_eq_true_eq] at shape
      refine ⟨_, _, toProtoTensor_of_fit fit, received, shape.symm, ?_⟩
      intro i inside
      omega
    · rw [if_neg empty] at received shape
      rw [if_pos shape] at received
      refine ⟨_, _, toProtoTensor_of_fit fit, received, rfl, ?_⟩
      intro i inside
      simp [halfStep, plain, element]

/-- Codes of eight or four bits do not come back: their type is not listed, and an empty tensor
whose shape would survive has no scale. -/
theorem quantize_lost {levels : ℚ} {low high : Int} {compress : Bool} {compressBits : Int}
    {t scale stored : Tensor} {pb : TensorProto} (scaled : rowScale num levels t = .ok scale)
    (sent : toProtoTensor (some (quantize num low high t scale)) = .ok pb)
    (received : fromProtoTensor num pb = .ok stored) :
    ¬ Close num compress compressBits t stored := by
  rintro ⟨shape, -⟩
  obtain ⟨-, rfl⟩ := fit_of_toProtoTensor sent
  rw [fromProtoTensor_sent] at received
  split at received
  next empty =>
    obtain rfl := Except.ok.inj received
    have last : t.lastDim = 0 := by
      rw [Tensor.lastDim, ← shape]
      rfl
    rw [rowScale, if_pos last] at scaled
    cases scaled
  next filled => cases received

theorem delivers_iff (pair : Tensor × Tensor) : Delivers num compress compressBits pair ↔
      ¬ (compress = true ∧ (compressBits = 8 ∨ compressBits = 4)) ∧
        shapeTravels pair.1 = true ∧ shapeTravels pair.2 = true := by
  have lost : ∀ levels low high, ∀ layer stored,
      compressedLayer num levels low high pair = .ok layer → readLayer num layer = .ok stored →
        ¬ Close num compress compressBits pair.1 stored.1 := by
    intro levels low high layer stored filled read
    -- the scales of both halves, then the two payloads and what is sent of the scales
    obtain ⟨kScale, scaled, filled⟩ := bind_eq_ok_iff.mp filled
    obtain ⟨_, _, filled⟩ := bind_eq_ok_iff.mp filled
    obtain ⟨keyStates, sent, filled⟩ := bind_eq_ok_iff.mp filled
    obtain ⟨_, _, filled⟩ := bind_eq_ok_iff.mp filled
    obtain ⟨_, _, filled⟩ := bind_eq_ok_iff.mp filled
    obtain ⟨_, _, filled⟩ := bind_eq_ok_iff.mp filled
    obtain rfl := Except.ok.inj filled
    obtain ⟨k, received, read⟩ := bind_eq_ok_iff.mp read
    obtain ⟨_, _, read⟩ := bind_eq_ok_iff.mp read
    obtain rfl := Except.ok.inj read
    exact quantize_lost num scaled sent received
  -- at both widths a layer is filled with codes, whatever their bounds
  have refused : ∀ levels low high, compress = true ∧ (compressBits = 8 ∨ compressBits = 4) →
      layerProto num compress compressBits pair = compressedLayer num levels low high pair →
        (Delivers num compress compressBits pair ↔
          ¬ (compress = true ∧ (compressBits = 8 ∨ compressBits = 4)) ∧
            shapeTravels pair.1 = true ∧ shapeTravels pair.2 = true) := by
    intro levels low high compressed codes
    constructor
    · rintro ⟨layer, stored, filled, read, close, -⟩
      rw [codes] at filled
      exact absurd close (lost levels low high layer stored filled read)
    · rintro ⟨plain, -⟩
      exact absurd compressed plain
  by_cases eight : compress = true ∧ compressBits = 8
  · exact refused _ _ _ ⟨eight.1, .inl eight.2⟩ (if_pos eight)
  · by_cases four : compress = true ∧ compressBits = 4
    · exact refused _ _ _ ⟨four.1, .inr four.2⟩ ((if_neg eight).trans (if_pos four))
    · have plain : ¬ (compress = true ∧ (compressBits = 8 ∨ compressBits = 4)) := by tauto
      have unscaled : ∀ t, sentScale num compress compressBits t = none := by
        intro t
        rw [sentScale, if_neg eight, if_neg four]
      simp only [plain, not_false_eq_true, true_and, ← close_iff num _ (unscaled _)]
      rw [Delivers, layerProto, if_neg eight, if_neg four]
      constructor
      · rintro ⟨layer, stored, filled, read, closeK, closeV⟩
        obtain ⟨keyStates, sentK, filled⟩ := bind_eq_ok_iff.mp filled
        obtain ⟨valueStates, sentV, filled⟩ := bind_eq_ok_iff.mp filled
        obtain rfl := Except.ok.inj filled
        obtain ⟨k, receivedK, read⟩ := bind_eq_ok_iff.mp read
        obtain ⟨v, receivedV, read⟩ := bind_eq_ok_iff.mp read
        obtain rfl := Except.ok.inj read
        exact ⟨⟨keyStates, k, sentK, receivedK, closeK⟩,
          ⟨valueStates, v, sentV, receivedV, closeV⟩⟩
      · rintro ⟨⟨keyStates, k, sentK, receivedK, closeK⟩,
          ⟨valueStates, v, sentV, receivedV, closeV⟩⟩
        refine ⟨⟨keyStates, valueStates, none, none⟩, (k, v), ?_, ?_, closeK, closeV⟩
        · rw [plainLayer, sentK, sentV]
          rfl
        · rw [readLayer, receivedK, receivedV]
          rfl

/-- A tensor round-trips exactly if it lies on the CPU, its type is listed and it is not empty or has
shape `[0]`; a cache is restored exactly if it has layers, is not compressed and its tensors travel. -/
theorem wireFormat_exact : (∀ t, RoundTrips num t ↔ travels t = true) ∧
      ∀ deltaKv compress compressBits, Restores num deltaKv compress compressBits ↔
        cacheTravels deltaKv compress compressBits = true := by
  refine ⟨roundTrips_iff num, ?_⟩
  intro deltaKv compress compressBits
  simp only [restores_iff, delivers_iff, cacheTravels, Bool.and_eq_true, Bool.not_eq_true',
    List.all_eq_true, Bool.and_eq_false_iff, Bool.or_eq_false_iff, decide_eq_false_iff_not,
    List.isEmpty_eq_false_iff]
  cases deltaKv with
  | nil => simp
  | cons pair rest =>
    cases compress <;> simp [forall_and, not_or]
    tauto

/-- Every number is zero; what follows is decided by the sizes. -/
def noNumbers : Numbers := ⟨fun _ _ => 0, fun d _ => List.replicate d.itemsize 0, by simp⟩

def int8One : Tensor := ⟨.int8, [1], [5], rfl, false⟩

def emptyRows : Tensor := ⟨.float32, [2, 0], [], rfl, false⟩

def float32One : Tensor := ⟨.float32, [1, 1], [0, 0, 128, 63], rfl, false⟩

theorem wireFormat_loses : ¬ RoundTrips noNumbers int8One ∧ ¬ RoundTrips noNumbers emptyRows ∧
      ¬ RoundTrips noNumbers { float32One with isCuda := true } ∧
      ¬ Restores noNumbers [(float32One, float32One)] true 8 := by
  refine ⟨?_, ?_, ?_, ?_⟩
  · rw [roundTrips_iff]
    decide
  · rw [roundTrips_iff]
    decide
  · rw [roundTrips_iff]
    decide
  · rw [restores_iff]
    simp [delivers_iff]

end DistLLM.Wire
