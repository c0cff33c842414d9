import DistLLM.Kv.Appending

/-!
# A KV cache on the wire

`serialize_kv_cache` and `deserialize_kv_cache`. What is sent are the two tensors of each layer, so
that the copy has neither lengths nor scales, segments or flags.
-/
namespace DistLLM.Kv

variable {Row Scale : Type}

def serializeKvCache (c : KVCache Row Scale) : List (List Row) := c.cache

def deserializeKvCache (layers : List (List Row)) : KVCache Row Scale :=
  ({} : KVCache Row Scale).setAll layers

variable (codec : Codec Row Scale)

/-- The caches that there can be after `init_cache`, `update` and `compress`. -/
inductive Reached : KVCache Row Scale → Prop
  | new (maxSeqLen : Nat) : Reached { maxSeqLen }
  | initCache {c} (numLayers : Nat) : Reached c → Reached (c.initCache codec numLayers)
  | update {c c'} {layer : Nat} {chunk rows : List Row} : Reached c →
      c.update codec layer chunk = .ok (rows, c') → Reached c'
  | compress {c} (method : KVCache.Method) : Reached c → Reached (c.compress codec method)
  | compressFailed {c} : Reached c → Reached c.compressFailed

namespace KVCache

def reply (c : KVCache Row Scale) (layer : Nat) (chunk : List Row) : Except Raised (List Row) :=
  (c.update codec layer chunk).map fun result => result.1

/-- The cache after a call of `update`, whether it raises or not. -/
def attempt (c : KVCache Row Scale) (call : Nat × List Row) : KVCache Row Scale :=
  match c.update codec call.1 call.2 with
  | .ok (_, c') => c'
  | .error _ => c

/-- After any calls of `update` the two are read the same, and answer the next call the same. -/
def SameToCallers (c d : KVCache Row Scale) : Prop :=
  ∀ calls : List (Nat × List Row),
    let c := calls.foldl (attempt codec) c
    let d := calls.foldl (attempt codec) d
    (∀ layer, c.get codec layer = d.get codec layer) ∧ c.sequenceLength = d.sequenceLength ∧
      ∀ layer chunk, c.reply codec layer chunk = d.reply codec layer chunk

end KVCache

variable {codec} {c c' : KVCache Row Scale} {layer : Nat} {chunk rows : List Row}

/-- A length for every buffer, and no segments without quantization. -/
structure Paired (c : KVCache Row Scale) : Prop where
  lengths : c.seqLens.length = c.cache.length
  unsegmented : c.quantized = false → c.quantFp8 = false ∧ c.qsegments = []

theorem assignSlice_ne_indexError {buffer : List Row} {start stop : Nat} :
    assignSlice buffer start stop rows ≠ .error .indexError := by
  unfold assignSlice broadcast
  dsimp only
  split
  · intro h
    cases h
  · split
    · intro h
      cases h
    · intro h
      cases h

theorem Paired.update (paired : Paired c) (h : c.update codec layer chunk = .ok (rows, c')) :
    Paired c' := by
  unfold KVCache.update at h
  split at h
  · cases h
  next buffer present =>
    split at h
    next fp8 =>
      cases h
      refine ⟨paired.lengths, fun plain => ?_⟩
      have := (paired.unsegmented plain).1
      rw [fp8] at this
      cases this
    · split at h
      next quantized =>
        cases h
        refine ⟨paired.lengths, fun plain => ?_⟩
        cases quantized.symm.trans plain
      · split at h
        · cases h
        next length =>
          dsimp only at h
          -- into the buffer, behind it, or into a larger one
          split at h
          · cases written : assignSlice buffer _ _ chunk with
            | error raised => rw [written] at h; cases h
            | ok after =>
              rw [written] at h
              cases h
              exact ⟨by simp [paired.lengths], paired.unsegmented⟩
          · split at h
            · cases h
              exact ⟨by simp [paired.lengths], paired.unsegmented⟩
            · split at h
              · cases h
              next expanded _ =>
                cases written : assignSlice expanded _ _ chunk with
                | error raised => rw [written] at h; cases h
                | ok after =>
                  rw [written] at h
                  cases h
                  exact ⟨by simp [paired.lengths], paired.unsegmented⟩

theorem Reached.paired (reached : Reached codec c) : Paired c := by
  induction reached with
  | new maxSeqLen => exact ⟨rfl, fun _ => ⟨rfl, rfl⟩⟩
  | initCache numLayers _ ih =>
    exact ⟨by simp [KVCache.initCache], ih.unsegmented⟩
  | update _ result ih => exact ih.update result
  | compress method _ ih =>
    exact ⟨by simpa [KVCache.compress] using ih.lengths, fun plain => by cases plain⟩
  | compressFailed _ ih => exact ⟨ih.lengths, ih.unsegmented⟩

theorem Paired.reply_ne (paired : Paired c) (inside : layer < c.cache.length) :
    c.reply codec layer chunk ≠ .error .indexError := by
  have length := List.getElem?_eq_getElem (l := c.seqLens) (paired.lengths.symm ▸ inside)
  have present := List.getElem?_eq_getElem inside
  unfold KVCache.reply KVCache.update
  rw [present, length]
  dsimp only
  split
  · intro h
    cases h
  · split
    · intro h
      cases h
    · split
      · intro h
        cases written : assignSlice c.cache[layer] _ _ chunk with
        | error raised => rw [written] at h; cases h; exact assignSlice_ne_indexError written
        | ok after => rw [written] at h; cases h
      · split
        · intro h
          cases h
        · split
          next raised copied =>
            intro h
            cases h
            exact assignSlice_ne_indexError copied
          next expanded _ =>
            intro h
            cases written : assignSlice expanded _ _ chunk with
            | error raised => rw [written] at h; cases h; exact assignSlice_ne_indexError written
            | ok after => rw [written] at h; cases h

theorem copy_reply (layers : List (List Row)) :
    (deserializeKvCache layers : KVCache Row Scale).reply codec layer chunk
      = .error .indexError := by
  unfold KVCache.reply KVCache.update
  cases present : (deserializeKvCache layers : KVCache Row Scale).cache[layer]? with
  | none => rfl
  | some buffer => rfl

theorem attempt_empty (empty : c.cache = []) (calls : List (Nat × List Row)) :
    calls.foldl (KVCache.attempt codec) c = c := by
  induction calls with
  | nil => rfl
  | cons call calls ih =>
    have same : c.attempt codec call = c := by simp [KVCache.attempt, KVCache.update, empty]
    rw [List.foldl_cons, same, ih]

/-- The copy stands for the cache exactly if there is nothing in it: neither a layer nor a
segment. -/
theorem transfer_same_iff (reached : Reached codec c) :
    c.SameToCallers codec (deserializeKvCache (serializeKvCache c)) ↔
      c.cache = [] ∧ ∀ layer, c.segments layer = [] := by
  have paired := reached.paired
  constructor
  · intro same
    obtain ⟨read, -, replies⟩ := same []
    have empty : c.cache = [] := by
      by_contra layers
      have inside : 0 < c.cache.length := List.length_pos_iff.mpr layers
      exact paired.reply_ne inside ((replies 0 []).trans (copy_reply _))
    refine ⟨empty, fun layer => ?_⟩
    by_contra segments
    have quantized : c.quantized = true := by
      by_contra plain
      have none := (paired.unsegmented (by simpa using plain)).2
      simp [KVCache.segments, none] at segments
    have same := read layer
    simp [KVCache.get, deserializeKvCache, serializeKvCache, KVCache.setAll, empty, segments,
      quantized] at same
  · rintro ⟨empty, segments⟩ calls
    have copied : (deserializeKvCache (serializeKvCache c) : KVCache Row Scale).cache = [] := empty
    rw [attempt_empty empty, attempt_empty copied]
    refine ⟨fun layer => ?_, ?_, fun layer chunk => ?_⟩
    · have plain : (deserializeKvCache (serializeKvCache c) : KVCache Row Scale).quantized
          = false := rfl
      simp [KVCache.get, empty, copied, segments, plain]
    · have none : c.seqLens = [] := List.length_eq_zero_iff.mp (by rw [paired.lengths, empty]; rfl)
      simp [KVCache.sequenceLength, none, deserializeKvCache, KVCache.setAll]
    · simp [KVCache.reply, KVCache.update, empty, copied]

/-- A cache that was never given layers. -/
theorem transfer_new :
    ({ maxSeqLen := 4 } : KVCache Nat Unit).SameToCallers KVCache.plainCodec
      (deserializeKvCache (serializeKvCache ({ maxSeqLen := 4 } : KVCache Nat Unit))) :=
  (transfer_same_iff (Reached.new 4)).mpr ⟨rfl, fun _ => rfl⟩

/-- A layer with one token: the copy has the length 0, and its next update raises. -/
theorem transfer_loses_length :
    let codec : Codec Nat Unit := KVCache.plainCodec
    ∃ c, Reached codec c ∧ ¬ c.SameToCallers codec (deserializeKvCache (serializeKvCache c)) ∧
      c.get codec 0 = .ok (some [7]) ∧ c.sequenceLength = 1 ∧
      c.reply codec 0 [8] = .ok [7, 8] ∧
      (deserializeKvCache (serializeKvCache c) : KVCache Nat Unit).sequenceLength = 0 ∧
      (deserializeKvCache (serializeKvCache c) : KVCache Nat Unit).reply codec 0 [8]
        = .error .indexError := by
  intro codec
  have created : Reached codec (({ maxSeqLen := 0 } : KVCache Nat Unit).initCache codec 1) :=
    .initCache 1 (.new 0)
  have appended := created.update (show KVCache.update codec _ 0 [7] = .ok ([7], _) from rfl)
  refine ⟨_, appended, ?_, rfl, rfl, rfl, rfl, rfl⟩
  intro same
  obtain ⟨-, length, -⟩ := same []
  cases length

end DistLLM.Kv
