import DistLLM.Kv.Cache

/-!
# Appending to a KV cache

Every layer has a buffer of its own, while one number, `_max_seq_len`, stands for the length of all
of them. Once a layer has grown, the number is larger than the buffers of the others, and a chunk
for one of those is written behind its end: a single position is lost without an exception.
-/
namespace DistLLM.Kv

variable {Row Scale : Type}

theorem broadcast_self (rows : List Row) : broadcast rows.length rows = .ok rows := by
  unfold broadcast
  split
  next row => rfl
  next rows _ => rw [if_pos rfl]

theorem broadcast_length {positions : Nat} {rows out : List Row}
    (h : broadcast positions rows = .ok out) : out.length = positions := by
  unfold broadcast at h
  split at h
  next row => cases h; exact List.length_replicate ..
  next rows _ =>
    split at h
    next same => cases h; exact same
    next => cases h

theorem assignSlice_inside {buffer rows : List Row} {start : Nat}
    (inside : start + rows.length ≤ buffer.length) :
    assignSlice buffer start (start + rows.length) rows
      = .ok (buffer.take start ++ rows ++ buffer.drop (start + rows.length)) := by
  have first : min start buffer.length = start := by omega
  have last : min (start + rows.length) buffer.length = start + rows.length := by omega
  have count : start + rows.length - start = rows.length := by omega
  simp only [assignSlice, first, last, count, broadcast_self, Except.map]

theorem assignSlice_length {buffer rows after : List Row} {start stop : Nat}
    (ordered : start ≤ stop) (h : assignSlice buffer start stop rows = .ok after) :
    after.length = buffer.length := by
  unfold assignSlice at h
  dsimp only at h
  cases written : broadcast (min stop buffer.length - min start buffer.length) rows with
  | error raised => rw [written] at h; cases h
  | ok rows =>
    rw [written] at h
    cases h
    have := broadcast_length written
    simp only [List.length_append, List.length_take, List.length_drop]
    omega

variable (tokens : Nat → List Row) (c : KVCache Row Scale)

namespace KVCache

variable (codec : Codec Row Scale) {c c' : KVCache Row Scale} {layer : Nat}
  {chunk tokens buffer : List Row}

def stop (layer : Nat) (chunk : List Row) : Nat :=
  c.seqLens.getD layer 0 + chunk.length

/-- The chunk is concatenated, or makes the layer grow, or ends inside the layer's own buffer. -/
def Fits (layer : Nat) (chunk : List Row) : Prop :=
  ∃ buffer, c.cache[layer]? = some buffer ∧
    (c.maxSeqLen = 0 ∨ c.maxSeqLen < c.stop layer chunk ∨ c.stop layer chunk ≤ buffer.length)

def Holds (layer : Nat) (tokens : List Row) : Prop :=
  ∃ buffer, c.cache[layer]? = some buffer ∧ c.seqLens[layer]? = some tokens.length ∧
    tokens <+: buffer

theorem take_prefix {tokens buffer : List Row} (h : tokens <+: buffer) :
    buffer.take tokens.length = tokens := (List.prefix_iff_eq_take.mp h).symm

theorem stop_eq (length : c.seqLens[layer]? = some tokens.length) :
    c.stop layer chunk = tokens.length + chunk.length := by
  simp [stop, List.getD_eq_getElem?_getD, length]

section

variable (plain : c.quantized = false) (noFp8 : c.quantFp8 = false) (holds : c.Holds layer tokens)

include plain noFp8 holds

theorem update_fitting (fits : c.Fits layer chunk) :
    ∃ after maxSeqLen, tokens ++ chunk <+: after ∧
      c.update codec layer chunk = .ok (tokens ++ chunk, { c with
        cache := c.cache.set layer after
        maxSeqLen
        seqLens := c.seqLens.set layer (tokens.length + chunk.length) }) := by
  obtain ⟨buffer, present, length, begins⟩ := holds
  obtain ⟨buffer', present', fits⟩ := fits
  obtain rfl : buffer = buffer' := by simpa [present] using present'
  rw [stop_eq length] at fits
  have held := take_prefix begins
  have returned : ∀ rest, (tokens ++ chunk ++ rest).take (tokens.length + chunk.length)
      = tokens ++ chunk := fun rest => by
    rw [← List.length_append, List.take_left]
  simp only [update, present, noFp8, plain, length, Bool.false_eq_true, if_false]
  by_cases fast : c.maxSeqLen ≠ 0 ∧ tokens.length + chunk.length ≤ c.maxSeqLen
  · have inside : tokens.length + chunk.length ≤ buffer.length := by omega
    refine ⟨tokens ++ chunk ++ buffer.drop (tokens.length + chunk.length), c.maxSeqLen,
      List.prefix_append .., ?_⟩
    rw [if_pos fast, assignSlice_inside inside, held]
    simp only [Except.map, returned]
  · rw [if_neg fast]
    by_cases unbounded : c.maxSeqLen = 0
    · refine ⟨tokens ++ chunk, c.maxSeqLen, List.prefix_rfl, ?_⟩
      rw [if_pos unbounded, held]
    · rw [if_neg unbounded]
      -- the new buffer is at least twice as long as the tokens with the chunk
      generalize newMax_eq : max c.maxSeqLen (tokens.length + chunk.length) * 2 = newMax
      have copied : assignSlice (List.replicate newMax codec.zero) 0 tokens.length tokens
          = .ok (tokens ++ List.replicate (newMax - tokens.length) codec.zero) := by
        have inside : 0 + tokens.length ≤ (List.replicate newMax codec.zero).length := by
          rw [List.length_replicate]
          omega
        simpa using assignSlice_inside inside
      have inside : tokens.length + chunk.length
          ≤ (tokens ++ List.replicate (newMax - tokens.length) codec.zero).length := by
        rw [List.length_append, List.length_replicate]
        omega
      refine ⟨tokens ++ chunk ++ (tokens ++ List.replicate (newMax - tokens.length) codec.zero).drop
        (tokens.length + chunk.length), newMax, List.prefix_append .., ?_⟩
      rw [held, copied]
      dsimp only
      rw [assignSlice_inside inside, List.take_left]
      simp only [Except.map, returned]

theorem update_clipped (clipped : ¬ c.Fits layer chunk) {rows : List Row}
    (h : c.update codec layer chunk = .ok (rows, c')) : rows.length < (tokens ++ chunk).length := by
  obtain ⟨buffer, present, length, begins⟩ := holds
  have ends : c.stop layer chunk = tokens.length + chunk.length := stop_eq length
  have bounds : c.maxSeqLen ≠ 0 ∧ tokens.length + chunk.length ≤ c.maxSeqLen ∧
      buffer.length < tokens.length + chunk.length := by
    rw [← ends]
    refine ⟨fun zero => clipped ⟨buffer, present, .inl zero⟩, ?_, ?_⟩
    · exact Nat.not_lt.mp fun grows => clipped ⟨buffer, present, .inr (.inl grows)⟩
    · exact Nat.not_le.mp fun inside => clipped ⟨buffer, present, .inr (.inr inside)⟩
  simp only [update, present, noFp8, plain, length, Bool.false_eq_true, if_false] at h
  rw [if_pos ⟨bounds.1, bounds.2.1⟩] at h
  cases written : assignSlice buffer tokens.length (tokens.length + chunk.length) chunk with
  | error raised => rw [written] at h; cases h
  | ok after =>
    rw [written] at h
    cases h
    have := assignSlice_length (Nat.le_add_right ..) written
    rw [List.length_take, List.length_append]
    omega

end

/-! ### A run of calls -/

def start (maxSeqLen layers : Nat) : KVCache Row Scale :=
  ({ maxSeqLen } : KVCache Row Scale).initCache codec layers

/-- Calls of `update` one after the other, with the rows each of them returns. -/
def updates : KVCache Row Scale → List (Nat × List Row) →
    Except Raised (List (List Row) × KVCache Row Scale)
  | c, [] => .ok ([], c)
  | c, (layer, chunk) :: calls =>
    match c.update codec layer chunk with
    | .error raised => .error raised
    | .ok (rows, c) => (c.updates calls).map fun (returned, c) => (rows :: returned, c)

def AllFit : KVCache Row Scale → List (Nat × List Row) → Prop
  | _, [] => True
  | c, (layer, chunk) :: calls =>
    c.Fits layer chunk ∧
      ∀ rows c', c.update codec layer chunk = .ok (rows, c') → AllFit c' calls

end KVCache

def appending (layer : Nat) (chunk : List Row) : Nat → List Row :=
  Function.update tokens layer (tokens layer ++ chunk)

theorem appending_self (layer : Nat) (chunk : List Row) :
    appending tokens layer chunk layer = tokens layer ++ chunk :=
  Function.update_self ..

theorem appending_of_ne {layer other : Nat} (chunk : List Row)
    (apart : other ≠ layer) : appending tokens layer chunk other = tokens other :=
  Function.update_of_ne apart ..

/-- The tokens of a layer with the chunks that calls append to it. -/
def appended (calls : List (Nat × List Row)) (layer : Nat) : List Row :=
  tokens layer ++ ((calls.filter fun call => call.1 = layer).flatMap fun call => call.2)

/-- For every call all that was appended to its layer, this call included. -/
def concatenations (tokens : Nat → List Row) : List (Nat × List Row) → List (List Row)
  | [] => []
  | (layer, chunk) :: calls =>
    (tokens layer ++ chunk) :: concatenations (appending tokens layer chunk) calls

theorem appended_nil : appended tokens [] = tokens := by
  funext layer
  exact List.append_nil _

theorem appended_cons (layer : Nat) (chunk : List Row) (calls : List (Nat × List Row)) :
    appended tokens ((layer, chunk) :: calls) = appended (appending tokens layer chunk) calls := by
  funext other
  by_cases same : layer = other
  · subst same
    simp [appended, appending_self]
  · have apart : other ≠ layer := fun h => same h.symm
    simp [appended, appending_of_ne _ _ apart, same]

namespace KVCache

variable (codec : Codec Row Scale) {c c' : KVCache Row Scale} {tokens : Nat → List Row}
  {layer layers : Nat} {chunk : List Row}

/-- A cache without quantization whose layers hold these tokens. -/
structure Keeps (c : KVCache Row Scale) (layers : Nat) (tokens : Nat → List Row) : Prop where
  plain : c.quantized = false
  noFp8 : c.quantFp8 = false
  count : c.cache.length = layers
  holds : ∀ layer < layers, c.Holds layer (tokens layer)

theorem start_keeps (maxSeqLen layers : Nat) :
    (start codec maxSeqLen layers).Keeps layers fun _ => [] where
  plain := rfl
  noFp8 := rfl
  count := List.length_replicate ..
  holds layer inside :=
    ⟨List.replicate (max maxSeqLen 1) codec.zero, by simp [start, initCache, inside],
      by simp [start, initCache, inside], List.nil_prefix⟩

section

variable (keeps : c.Keeps layers tokens)

include keeps

theorem Fits.inside (fits : c.Fits layer chunk) :
    layer < layers := by
  obtain ⟨buffer, present, -⟩ := fits
  rw [← keeps.count]
  exact (List.getElem?_eq_some_iff.mp present).1

theorem Keeps.update (fits : c.Fits layer chunk) :
    ∃ c', c.update codec layer chunk = .ok (tokens layer ++ chunk, c') ∧
      c'.Keeps layers (appending tokens layer chunk) := by
  have inside := fits.inside keeps
  obtain ⟨after, maxSeqLen, begins, result⟩ :=
    update_fitting codec keeps.plain keeps.noFp8 (keeps.holds layer inside) fits
  refine ⟨_, result, keeps.plain, keeps.noFp8, ?_, ?_⟩
  · exact (List.length_set ..).trans keeps.count
  · intro other within
    obtain ⟨buffer, present, length, held⟩ := keeps.holds other within
    by_cases same : other = layer
    · -- the layer of the call, whose buffer is the new one
      subst same
      have first := (List.getElem?_eq_some_iff.mp present).1
      have second := (List.getElem?_eq_some_iff.mp length).1
      refine ⟨after, ?_, ?_, ?_⟩
      · simp [first]
      · simp [second, appending_self]
      · rwa [appending_self]
    · have apart : layer ≠ other := fun h => same h.symm
      rw [appending_of_ne _ _ same]
      refine ⟨buffer, ?_, ?_, held⟩
      · simpa [apart] using present
      · simpa [apart] using length

theorem Keeps.updates :
    ∀ calls, c.AllFit codec calls → ∃ c', c.updates codec calls
      = .ok (concatenations tokens calls, c') ∧ c'.Keeps layers (appended tokens calls) := by
  intro calls fit
  induction calls generalizing c tokens with
  | nil => exact ⟨c, rfl, by rwa [appended_nil]⟩
  | cons call calls ih =>
    obtain ⟨c', result, kept⟩ := keeps.update codec fit.1
    obtain ⟨c'', rest, end'⟩ := ih kept (fit.2 _ _ result)
    refine ⟨c'', ?_, ?_⟩
    · simp only [KVCache.updates, result, rest, Except.map, concatenations]
    · rw [appended_cons]
      exact end'

theorem Keeps.allFit :
    ∀ calls, c.updates codec calls = .ok (concatenations tokens calls, c') →
      c.AllFit codec calls := by
  intro calls result
  induction calls generalizing c tokens with
  | nil => trivial
  | cons call calls ih =>
    obtain ⟨layer, chunk⟩ := call
    unfold KVCache.updates at result
    cases one : c.update codec layer chunk with
    | error raised => rw [one] at result; cases result
    | ok returned =>
      obtain ⟨rows, between⟩ := returned
      rw [one] at result
      dsimp only at result
      cases rest : between.updates codec calls with
      | error raised => rw [rest] at result; cases result
      | ok returned =>
        rw [rest] at result
        simp only [Except.map, concatenations, Except.ok.injEq, Prod.mk.injEq,
          List.cons.injEq] at result
        obtain ⟨⟨rows_eq, rest_eq⟩, end_eq⟩ := result
        have inside : layer < layers := by
          rw [← keeps.count]
          by_contra outside
          have absent : c.cache[layer]? = none := List.getElem?_eq_none (Nat.not_lt.mp outside)
          simp [KVCache.update, absent] at one
        -- a chunk that does not fit would have returned less
        have fits : c.Fits layer chunk := by
          by_contra clipped
          have short := update_clipped codec keeps.plain keeps.noFp8 (keeps.holds layer inside)
            clipped one
          rw [rows_eq] at short
          exact Nat.lt_irrefl _ short
        -- so the call was that of the step, and the rest is a run from where it led
        obtain ⟨same, again, kept⟩ := keeps.update codec fits
        rw [one] at again
        cases again
        refine ⟨fits, fun rows' c'' again => ?_⟩
        rw [one] at again
        cases again
        apply ih kept
        rw [rest, ← rest_eq, ← end_eq]

end

theorem get_plain (plain : c.quantized = false) {buffer : List Row}
    (present : c.cache[layer]? = some buffer) : c.get codec layer = .ok (some buffer) := by
  simp [get, present, plain]

/-- No token is lost: every call returns what was appended to its layer so far, and every layer
is read with its tokens first. -/
def LosesNothing (maxSeqLen layers : Nat) (calls : List (Nat × List Row)) : Prop :=
  ∃ c, (start codec maxSeqLen layers).updates codec calls
      = .ok (concatenations (fun _ => []) calls, c) ∧
    ∀ layer < layers, ∃ buffer, c.get codec layer = .ok (some buffer) ∧
      appended (fun _ => []) calls layer <+: buffer

/-- The layer's buffer has no position behind the layer's tokens. -/
def Full (layer : Nat) : Prop :=
  (c.cache[layer]?).map List.length = c.seqLens[layer]?

theorem Keeps.get_iff (keeps : c.Keeps layers tokens) (inside : layer < layers) :
    c.get codec layer = .ok (some (tokens layer)) ↔ c.Full layer := by
  obtain ⟨buffer, present, length, begins⟩ := keeps.holds layer inside
  rw [get_plain codec keeps.plain present, Full, present, length]
  constructor
  · intro same
    cases same
    rfl
  · intro full
    have same : buffer.length = (tokens layer).length := by simpa using full
    rw [begins.eq_of_length same.symm]

/-- The calls lose nothing exactly if each of them fits the cache it finds, and then a layer is
read as its tokens and nothing else exactly if its buffer is full. -/
theorem updates_loseNothing_iff (maxSeqLen layers : Nat) (calls : List (Nat × List Row)) :
    (LosesNothing codec maxSeqLen layers calls ↔
      (start codec maxSeqLen layers).AllFit codec calls) ∧
    ((start codec maxSeqLen layers).AllFit codec calls →
      ∃ c, (start codec maxSeqLen layers).updates codec calls
          = .ok (concatenations (fun _ => []) calls, c) ∧ ∀ layer < layers,
          c.get codec layer = .ok (some (appended (fun _ => []) calls layer)) ↔ c.Full layer) := by
  have keeps := start_keeps codec maxSeqLen layers
  refine ⟨⟨?_, ?_⟩, ?_⟩
  · rintro ⟨c, result, -⟩
    exact keeps.allFit codec calls result
  · intro fit
    obtain ⟨c, result, kept⟩ := keeps.updates codec calls fit
    refine ⟨c, result, fun layer inside => ?_⟩
    obtain ⟨buffer, present, -, begins⟩ := kept.holds layer inside
    exact ⟨buffer, get_plain codec kept.plain present, begins⟩
  · intro fit
    obtain ⟨c, result, kept⟩ := keeps.updates codec calls fit
    exact ⟨c, result, fun layer inside => kept.get_iff codec inside⟩

def plainCodec : Codec Nat Unit where
  zero := 0
  quantize _ row := (row, ())
  dequantize row _ := row
  rescale row _ := row
  hasFp8 := true

/-- One layer alone grows without a loss. -/
theorem single_layer_loses_nothing : LosesNothing plainCodec 1 1 [(0, [7]), (0, [8])] :=
  (updates_loseNothing_iff plainCodec 1 1 [(0, [7]), (0, [8])]).1.mpr
    ⟨⟨_, rfl, by decide⟩, by
      intro rows c first
      cases first
      exact ⟨⟨_, rfl, by decide⟩, fun _ _ _ => trivial⟩⟩

/-- Two layers are written in turn with a token at a time. The first one grows, and the second
token of the other is lost. -/
theorem second_layer_loses :
    ¬ LosesNothing plainCodec 1 2 [(0, [7]), (1, [7]), (0, [8]), (1, [8])] ∧
      ((start plainCodec 1 2).updates plainCodec [(0, [7]), (1, [7]), (0, [8]), (1, [8])]).map
        (fun result => result.1) = .ok [[7], [7], [7, 8], [7]] := by
  refine ⟨?_, by rfl⟩
  rintro ⟨c, result, -⟩
  cases result

end KVCache

end DistLLM.Kv
