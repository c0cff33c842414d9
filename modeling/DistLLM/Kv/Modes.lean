import DistLLM.Kv.Appending
import Mathlib.Data.List.Forall2

/-!
# The modes of a KV cache

The tokens of a layer are in its buffer, as rows or since `compress` as codes, in its segments, or
in the copy on the CPU, and the readers choose one of these places by the flags. Which operations
leave the tokens in one place only, and in which states the readers look there.
-/
namespace DistLLM.Kv

variable {Row Scale : Type}

inductive Op (Row : Type)
  | initCache (numLayers : Nat)
  | update (layer : Nat) (chunk : List Row)
  | enableQuantization (bits : Nat) (useFp8 : Bool)
  | compress (method : KVCache.Method)
  | compressFailed
  | offloadToCpu
  | loadToGpu
  | clear

/-- A cache, with the tokens appended to each layer since the last `init_cache` or `clear`. -/
structure Session (Row Scale : Type) where
  cache : KVCache Row Scale
  tokens : Nat → List Row

namespace Session

variable (codec : Codec Row Scale)

def opened (maxSeqLen : Nat) : Session Row Scale := ⟨{ maxSeqLen }, fun _ => []⟩

/-- One operation. One that raises changes nothing. -/
def perform (s : Session Row Scale) : Op Row → Session Row Scale
  | .initCache numLayers => ⟨s.cache.initCache codec numLayers, fun _ => []⟩
  | .update layer chunk =>
    match s.cache.update codec layer chunk with
    | .ok (_, cache) => ⟨cache, appending s.tokens layer chunk⟩
    | .error _ => s
  | .enableQuantization bits useFp8 =>
    match s.cache.enableQuantization codec bits useFp8 with
    | .ok cache => ⟨cache, s.tokens⟩
    | .error _ => s
  | .compress method => ⟨s.cache.compress codec method, s.tokens⟩
  | .compressFailed => ⟨s.cache.compressFailed, s.tokens⟩
  | .offloadToCpu => ⟨s.cache.offloadToCpu, s.tokens⟩
  | .loadToGpu => ⟨s.cache.loadToGpu, s.tokens⟩
  | .clear => ⟨s.cache.clear, fun _ => []⟩

def run (s : Session Row Scale) (ops : List (Op Row)) : Session Row Scale :=
  ops.foldl (perform codec) s

end Session

variable (c : KVCache Row Scale) (layer : Nat) {chunk : List Row}

namespace KVCache

def held : Option (List Row) :=
  if c.offloaded then (c.cpuCache.getD [])[layer]? else c.cache[layer]?

def Keeping : Op Row → Prop
  -- neither segments nor a copy may outlive the buffers
  | .initCache _ => c.offloaded = false ∧ ∀ layer, c.segments layer = []
  | .update layer chunk =>
    c.cache[layer]? = none ∨
      -- segments hide what is in the buffer
      if c.quantized then c.seqLens[layer]? = some 0 else c.Fits layer chunk
  -- codes lose their scales when they are coded again
  | .compress _ | .compressFailed =>
    c.scales = [] ∨ (∀ length ∈ c.seqLens, length = 0) ∨ ∀ layer, c.held layer = none
  | _ => True

/-- `get` finds the tokens of the layer and nothing else. -/
def Readable : Prop :=
  c.segments layer ≠ [] ∨ (c.cache[layer]? ≠ none ∧ c.Full layer)

def Listed : Prop :=
  c.quantized = false ∨ c.segments layer ≠ [] ∨
    (c.cache.length ≤ layer ∧ c.qsegments.length ≤ layer)

end KVCache

/-- The code, with its scale, is the row's under one of the roundings. -/
def Coded (codec : Codec Row Scale) (row : Row) (code : Row × Scale) : Prop :=
  ∃ quantizer, code = codec.quantize quantizer row

/-- What is read of a token: its row up to the quantization. -/
def Faithful (codec : Codec Row Scale) (row read : Row) : Prop :=
  read = row ∨ ∃ code, Coded codec row code ∧
    (read = codec.dequantize code.1 code.2 ∨ read = codec.rescale code.1 code.2)

/-- The layer is read as these tokens, all of them in their order. -/
def Reads (codec : Codec Row Scale) (c : KVCache Row Scale) (layer : Nat) (tokens : List Row) :
    Prop :=
  ∃ rows, c.get codec layer = .ok (some rows) ∧ List.Forall₂ (Faithful codec) tokens rows

def Agrees (codec : Codec Row Scale) (c : KVCache Row Scale) (layer : Nat) : Prop :=
  c.get codec layer = .ok (c.getAll codec)[layer]?

/-- How a buffer has the tokens, given the scales of its layer. -/
inductive Stored (codec : Codec Row Scale) (tokens buffer : List Row) :
    Option (List Scale) → Prop
  | rows : tokens <+: buffer → Stored codec tokens buffer none
  | codes {scales codes} : scales.length = buffer.length → codes <+: buffer.zip scales →
      List.Forall₂ (Coded codec) tokens codes → Stored codec tokens buffer (some scales)
  /-- The scales are of buffers that are gone. -/
  | unused {scales} : buffer ≠ [] → tokens = [] → Stored codec tokens buffer scales

/-- A layer with a buffer has its tokens either there or in its segments. -/
structure LayerKept (codec : Codec Row Scale) (c : KVCache Row Scale) (layer : Nat)
    (tokens buffer : List Row) : Prop where
  inBuffer : c.segments layer = [] →
    c.seqLens[layer]? = some tokens.length ∧ Stored codec tokens buffer c.scales[layer]?
  inSegments : c.segments layer ≠ [] →
    c.seqLens[layer]? = some 0 ∧ List.Forall₂ (Coded codec) tokens (c.segments layer).flatten

structure Kept (codec : Codec Row Scale) (s : Session Row Scale) : Prop where
  plain : s.cache.quantized = false →
    s.cache.quantFp8 = false ∧ s.cache.scales = [] ∧ ∀ layer, s.cache.segments layer = []
  away : s.cache.offloaded = true → s.cache.cache = [] ∧ ∃ copy, s.cache.cpuCache = some copy
  absent : ∀ layer, s.cache.held layer = none →
    s.tokens layer = [] ∧ s.cache.segments layer = []
  layers : ∀ layer buffer, s.cache.held layer = some buffer →
    LayerKept codec s.cache layer (s.tokens layer) buffer

/-! ### One operation -/

section Step

variable {codec : Codec Row Scale} {s : Session Row Scale} {c c' : KVCache Row Scale}
  {layer : Nat} {tokens buffer : List Row}

theorem LayerKept.congr (kept : LayerKept codec c layer tokens buffer)
    (segments : c'.segments layer = c.segments layer)
    (lengths : c'.seqLens[layer]? = c.seqLens[layer]?)
    (scales : c'.scales[layer]? = c.scales[layer]?) : LayerKept codec c' layer tokens buffer where
  inBuffer h := by
    rw [segments] at h
    rw [lengths, scales]
    exact kept.inBuffer h
  inSegments h := by
    rw [segments] at h ⊢
    rw [lengths]
    exact kept.inSegments h

theorem held_home (home : c.offloaded = false) : c.held layer = c.cache[layer]? := by
  simp [KVCache.held, home]

theorem Kept.home (kept : Kept codec s) (present : s.cache.cache[layer]? = some buffer) :
    s.cache.offloaded = false := by
  by_contra away
  have empty := (kept.away (by simpa using away)).1
  simp [empty] at present

theorem opened_kept (maxSeqLen : Nat) : Kept codec (Session.opened maxSeqLen) where
  plain _ := ⟨rfl, rfl, fun _ => rfl⟩
  away h := by cases h
  absent _ _ := ⟨rfl, rfl⟩
  layers layer buffer h := by simp [Session.opened, KVCache.held] at h

theorem Kept.initCache (kept : Kept codec s) (numLayers : Nat)
    (keeping : s.cache.Keeping (.initCache numLayers)) :
    Kept codec (s.perform codec (.initCache numLayers)) where
  plain := kept.plain
  away h := by
    have away : s.cache.offloaded = true := h
    rw [keeping.1] at away
    cases away
  absent layer _ := ⟨rfl, keeping.2 layer⟩
  layers layer buffer present := by
    have created : (List.replicate numLayers
        (List.replicate (max s.cache.maxSeqLen 1) codec.zero))[layer]? = some buffer := by
      rw [← present]
      exact (held_home (c := s.cache.initCache codec numLayers) keeping.1).symm
    obtain ⟨inside, rfl⟩ := List.getElem?_eq_some_iff.mp created
    rw [List.length_replicate] at inside
    refine ⟨fun _ => ⟨?_, ?_⟩, fun segments => absurd (keeping.2 layer) segments⟩
    · simp [Session.perform, KVCache.initCache, inside]
    · refine .unused ?_ rfl
      rw [List.getElem_replicate, ← List.length_pos_iff, List.length_replicate]
      omega

theorem Kept.clear (kept : Kept codec s) : Kept codec (s.perform codec .clear) where
  plain h := ⟨rfl, (kept.plain h).2.1, fun _ => rfl⟩
  away h := by cases h
  absent _ _ := ⟨rfl, rfl⟩
  layers layer buffer present := by simp [Session.perform, KVCache.clear, KVCache.held] at present

theorem Kept.enableQuantization (kept : Kept codec s) (bits : Nat) (useFp8 : Bool) :
    Kept codec (s.perform codec (.enableQuantization bits useFp8)) := by
  -- only the flags change
  have flags : ∀ cache, s.cache.enableQuantization codec bits useFp8 = .ok cache →
      ∃ quantBits quantFp8, cache = { s.cache with quantized := true, quantBits, quantFp8 } := by
    intro cache h
    unfold KVCache.enableQuantization at h
    by_cases fp8 : useFp8 = true ∧ codec.hasFp8 = true
    · rw [if_pos fp8] at h
      cases h
      exact ⟨_, _, rfl⟩
    · rw [if_neg fp8] at h
      generalize (if useFp8 = true then 8 else bits) = bits at h
      by_cases known : bits = 4 ∨ bits = 8
      · rw [if_pos known] at h
        cases h
        exact ⟨_, _, rfl⟩
      · rw [if_neg known] at h
        cases h
  simp only [Session.perform]
  cases result : s.cache.enableQuantization codec bits useFp8 with
  | error raised => exact kept
  | ok cache =>
    obtain ⟨quantBits, quantFp8, rfl⟩ := flags cache result
    exact {
      plain := fun h => by cases h
      away := kept.away
      absent := kept.absent
      layers := fun layer buffer present => (kept.layers layer buffer present).congr rfl rfl rfl }

theorem held_offloadToCpu : c.offloadToCpu.held layer = c.held layer := by
  unfold KVCache.offloadToCpu KVCache.held
  by_cases offloaded : c.offloaded = true
  · simp [offloaded]
  · simp [offloaded]

theorem held_loadToGpu : c.loadToGpu.held layer = c.held layer := by
  unfold KVCache.loadToGpu KVCache.held
  by_cases offloaded : c.offloaded = true
  · cases copy : c.cpuCache with
    | none => simp [offloaded, copy]
    | some cache => simp [offloaded]
  · simp [offloaded]

section

variable (kept : Kept codec s)

include kept

theorem Kept.moved (held : ∀ layer, c'.held layer = s.cache.held layer)
    (quantized : c'.quantized = s.cache.quantized) (fp8 : c'.quantFp8 = s.cache.quantFp8)
    (scales : c'.scales = s.cache.scales) (lengths : c'.seqLens = s.cache.seqLens)
    (segments : c'.qsegments = s.cache.qsegments)
    (away : c'.offloaded = true → c'.cache = [] ∧ ∃ copy, c'.cpuCache = some copy) :
    Kept codec ⟨c', s.tokens⟩ where
  plain h := by
    have plain := kept.plain (quantized.symm.trans h)
    simp only [KVCache.segments, fp8, scales, segments]
    exact plain
  away := away
  absent layer h := by
    have absent := kept.absent layer ((held layer).symm.trans h)
    simp only [KVCache.segments, segments]
    exact absent
  layers layer buffer present := by
    refine (kept.layers layer buffer ((held layer).symm.trans present)).congr ?_ ?_ ?_
    · simp only [KVCache.segments, segments]
    · rw [lengths]
    · rw [scales]

theorem Kept.offloadToCpu : Kept codec (s.perform codec .offloadToCpu) := by
  by_cases offloaded : s.cache.offloaded = true
  · have same : s.cache.offloadToCpu = s.cache := by simp [KVCache.offloadToCpu, offloaded]
    simp only [Session.perform, same]
    exact kept
  · refine kept.moved (fun layer => held_offloadToCpu) ?_ ?_ ?_ ?_ ?_ ?_
    all_goals simp [KVCache.offloadToCpu, offloaded]

theorem Kept.loadToGpu : Kept codec (s.perform codec .loadToGpu) := by
  by_cases offloaded : s.cache.offloaded = true
  · obtain ⟨empty, copy, stored⟩ := kept.away offloaded
    refine kept.moved (fun layer => held_loadToGpu) ?_ ?_ ?_ ?_ ?_ ?_
    all_goals simp [KVCache.loadToGpu, offloaded, stored]
  · have same : s.cache.loadToGpu = s.cache := by simp [KVCache.loadToGpu, offloaded]
    simp only [Session.perform, same]
    exact kept

theorem Kept.rows_of_keeping
    (keeping : s.cache.scales = [] ∨ (∀ length ∈ s.cache.seqLens, length = 0) ∨
      ∀ layer, s.cache.held layer = none) (present : s.cache.held layer = some buffer)
    (unsegmented : s.cache.segments layer = []) :
    s.tokens layer <+: buffer := by
  obtain ⟨length, stored⟩ := (kept.layers layer buffer present).inBuffer unsegmented
  rcases keeping with unscaled | zero | gone
  · rw [unscaled, List.getElem?_nil] at stored
    cases stored with
    | rows begins => exact begins
    | unused _ empty => rw [empty]; exact List.nil_prefix
  · have empty := zero _ (List.mem_of_getElem? length)
    rw [List.length_eq_zero_iff.mp empty]
    exact List.nil_prefix
  · rw [gone layer] at present
    cases present

theorem Kept.compressFailed (keeping : s.cache.Keeping .compressFailed) :
    Kept codec (s.perform codec .compressFailed) where
  plain h := ⟨(kept.plain h).1, rfl, (kept.plain h).2.2⟩
  away := kept.away
  absent := kept.absent
  layers layer buffer present := by
    have before := kept.layers layer buffer present
    refine ⟨fun unsegmented => ⟨(before.inBuffer unsegmented).1, ?_⟩, before.inSegments⟩
    exact .rows (kept.rows_of_keeping keeping present unsegmented)

end

theorem compress_eq (codec : Codec Row Scale) (c : KVCache Row Scale) (method : KVCache.Method) :
    ∃ quantizer quantFp8 quantBits, c.compress codec method = { c with
      cache := c.cache.map fun rows => rows.map fun row => (codec.quantize quantizer row).1
      quantized := true
      quantFp8
      quantBits
      scales := c.cache.map fun rows => rows.map fun row => (codec.quantize quantizer row).2 } :=
  ⟨_, _, _, rfl⟩

theorem Kept.compress (kept : Kept codec s) (method : KVCache.Method)
    (keeping : s.cache.Keeping (.compress method)) :
    Kept codec (s.perform codec (.compress method)) := by
  obtain ⟨quantizer, quantFp8, quantBits, result⟩ := compress_eq codec s.cache method
  simp only [Session.perform, result]
  by_cases offloaded : s.cache.offloaded = true
  · -- nothing is at its place, and the scales are those of nothing
    obtain ⟨empty, copy, stored⟩ := kept.away offloaded
    refine ⟨(fun h => by cases h), fun _ => ⟨by simp [empty], copy, stored⟩, fun layer h => ?_,
      fun layer buffer present => ?_⟩
    · apply kept.absent layer
      simpa [KVCache.held, offloaded, stored] using h
    · have present : s.cache.held layer = some buffer := by
        simpa [KVCache.held, offloaded, stored] using present
      have before := kept.layers layer buffer present
      refine ⟨fun unsegmented => ⟨(before.inBuffer unsegmented).1, ?_⟩, before.inSegments⟩
      simp only [empty, List.map_nil, List.getElem?_nil]
      exact .rows (kept.rows_of_keeping keeping present unsegmented)
  · have home : s.cache.offloaded = false := by simpa using offloaded
    refine ⟨(fun h => by cases h), fun h => absurd h offloaded, fun layer h => ?_,
      fun layer buffer present => ?_⟩
    · apply kept.absent layer
      simpa [KVCache.held, home] using h
    · rw [held_home (by exact home), List.getElem?_map, Option.map_eq_some_iff] at present
      obtain ⟨rows, at_layer, rfl⟩ := present
      have present : s.cache.held layer = some rows := by rw [held_home home]; exact at_layer
      have before := kept.layers layer rows present
      refine ⟨fun unsegmented => ⟨(before.inBuffer unsegmented).1, ?_⟩, before.inSegments⟩
      -- the tokens were rows of the buffer, and each row became its code
      have begins := kept.rows_of_keeping keeping present unsegmented
      rw [List.getElem?_map, at_layer]
      have coded : List.Forall₂ (Coded codec) (s.tokens layer)
          ((s.tokens layer).map (codec.quantize quantizer)) := by
        rw [List.forall₂_map_right_iff]
        exact List.forall₂_same.mpr fun row _ => ⟨quantizer, rfl⟩
      refine .codes (by simp) ?_ coded
      rw [List.zip_map']
      exact begins.map _

/-! #### Appending -/

theorem segments_updateQuantized (quantizer : Quantizer) (chunk : List Row) (other : Nat) :
    (c.updateQuantized codec quantizer layer chunk).2.segments other
      = if other = layer then c.segments layer ++ [chunk.map (codec.quantize quantizer)]
        else c.segments other := by
  unfold KVCache.updateQuantized KVCache.segments
  rw [List.getElem?_modify]
  have padded : ∀ index : Nat, ((c.qsegments ++
      List.replicate (layer + 1 - c.qsegments.length) [])[index]?).getD []
        = (c.qsegments[index]?).getD [] := by
    intro index
    by_cases inside : index < c.qsegments.length
    · rw [List.getElem?_append_left inside]
    · rw [List.getElem?_append_right (Nat.not_lt.mp inside),
        List.getElem?_eq_none (Nat.not_lt.mp inside), List.getElem?_replicate]
      split <;> rfl
  by_cases same : other = layer
  · subst same
    have inside : other < (c.qsegments ++
        List.replicate (other + 1 - c.qsegments.length) []).length := by
      simp
      omega
    rw [if_pos rfl, ← padded other, List.getElem?_eq_getElem inside]
    simp
  · rw [if_neg same, ← padded other]
    simp [Ne.symm same]

theorem Kept.updateQuantized (kept : Kept codec s) (quantizer : Quantizer) {chunk : List Row}
    (quantized : s.cache.quantized = true) (present : s.cache.cache[layer]? = some buffer)
    (unbuffered : s.cache.seqLens[layer]? = some 0) :
    Kept codec ⟨(s.cache.updateQuantized codec quantizer layer chunk).2,
      appending s.tokens layer chunk⟩ where
  plain h := by cases quantized.symm.trans h
  away := kept.away
  absent other h := by
    have apart : other ≠ layer := by
      rintro rfl
      rw [held_home (by exact kept.home present)] at h
      cases present.symm.trans h
    have absent := kept.absent other h
    rw [segments_updateQuantized, if_neg apart]
    exact ⟨(appending_of_ne _ _ apart).trans absent.1, absent.2⟩
  layers other rows held := by
    have before := kept.layers other rows held
    by_cases same : other = layer
    · subst same
      -- what was appended so far is in the segments, or there is nothing
      have coded : List.Forall₂ (Coded codec) (s.tokens other)
          (s.cache.segments other).flatten := by
        by_cases segments : s.cache.segments other = []
        · have length := (before.inBuffer segments).1
          rw [unbuffered, Option.some.injEq] at length
          rw [segments, List.length_eq_zero_iff.mp length.symm]
          exact .nil
        · exact (before.inSegments segments).2
      refine ⟨fun h => ?_, fun _ => ⟨unbuffered, ?_⟩⟩
      · rw [segments_updateQuantized, if_pos rfl] at h
        simp at h
      · rw [segments_updateQuantized, if_pos rfl, List.flatten_append, List.flatten_singleton]
        dsimp only
        rw [appending_self]
        refine List.rel_append coded ?_
        rw [List.forall₂_map_right_iff]
        exact List.forall₂_same.mpr fun row _ => ⟨quantizer, rfl⟩
    · dsimp only
      rw [appending_of_ne _ _ same]
      exact before.congr ((segments_updateQuantized ..).trans (if_neg same)) rfl rfl

theorem Kept.updatePlain (kept : Kept codec s) (plain : s.cache.quantized = false)
    (fits : s.cache.Fits layer chunk) :
    ∃ c', s.cache.update codec layer chunk = .ok (s.tokens layer ++ chunk, c') ∧
      Kept codec ⟨c', appending s.tokens layer chunk⟩ := by
  obtain ⟨noFp8, unscaled, unsegmented⟩ := kept.plain plain
  obtain ⟨buffer, present, -⟩ := id fits
  have home := kept.home present
  -- without quantization every buffer begins with the tokens of its layer
  have prefixes : ∀ {layer rows}, s.cache.cache[layer]? = some rows →
      s.cache.seqLens[layer]? = some (s.tokens layer).length ∧ s.tokens layer <+: rows :=
    fun {layer rows} present => by
      have held : s.cache.held layer = some rows := by rw [held_home home]; exact present
      exact ⟨((kept.layers layer rows held).inBuffer (unsegmented layer)).1,
        kept.rows_of_keeping (.inl unscaled) held (unsegmented layer)⟩
  have holds : s.cache.Holds layer (s.tokens layer) :=
    ⟨buffer, present, (prefixes present).1, (prefixes present).2⟩
  obtain ⟨after, maxSeqLen, begins, result⟩ :=
    KVCache.update_fitting codec plain noFp8 holds fits
  have inside := (List.getElem?_eq_some_iff.mp present).1
  have counted := (List.getElem?_eq_some_iff.mp (prefixes present).1).1
  refine ⟨_, result, ⟨fun _ => ⟨noFp8, unscaled, unsegmented⟩, fun h => ?_, fun other h => ?_,
    fun other rows h => ?_⟩⟩
  · rw [home] at h
    cases h
  all_goals
    rw [held_home (by exact home)] at h
  · -- the layer of the call has a buffer
    have apart : layer ≠ other := by
      rintro rfl
      simp [inside] at h
    rw [List.getElem?_set_ne apart] at h
    have absent := kept.absent other (by rw [held_home home]; exact h)
    exact ⟨(appending_of_ne _ _ (Ne.symm apart)).trans absent.1, absent.2⟩
  · by_cases same : layer = other
    · subst same
      simp only [List.getElem?_set_self inside, Option.some.injEq] at h
      subst h
      refine ⟨fun _ => ⟨?_, ?_⟩, fun segments => absurd (unsegmented layer) segments⟩
      · simp [counted, appending_self]
      · simp only [unscaled, List.getElem?_nil, appending_self]
        exact .rows begins
    · rw [List.getElem?_set_ne same] at h
      have held : s.cache.held other = some rows := by rw [held_home home]; exact h
      dsimp only
      rw [appending_of_ne _ _ (Ne.symm same)]
      refine (kept.layers other rows held).congr rfl ?_ rfl
      exact List.getElem?_set_ne same

theorem Kept.update (kept : Kept codec s) {chunk : List Row}
    (keeping : s.cache.Keeping (.update layer chunk)) :
    Kept codec (s.perform codec (.update layer chunk)) := by
  simp only [Session.perform]
  cases present : s.cache.cache[layer]? with
  | none =>
    have raised : s.cache.update codec layer chunk = .error .indexError := by
      simp [KVCache.update, present]
    rw [raised]
    exact kept
  | some buffer =>
    have keeping := keeping.resolve_left (by simp [present])
    by_cases quantized : s.cache.quantized = true
    · rw [if_pos quantized] at keeping
      have result : ∃ quantizer, s.cache.update codec layer chunk
          = .ok (s.cache.updateQuantized codec quantizer layer chunk) := by
        by_cases fp8 : s.cache.quantFp8 = true
        · exact ⟨.fp8, by simp [KVCache.update, present, fp8]⟩
        · exact ⟨.rounded s.cache.quantBits, by simp [KVCache.update, present, fp8, quantized]⟩
      obtain ⟨quantizer, result⟩ := result
      rw [result]
      exact kept.updateQuantized quantizer quantized present keeping
    · rw [if_neg quantized] at keeping
      obtain ⟨c', result, after⟩ := kept.updatePlain (by simpa using quantized) keeping
      rw [result]
      exact after

theorem Kept.perform (kept : Kept codec s) : ∀ op, s.cache.Keeping op →
    Kept codec (s.perform codec op)
  | .initCache numLayers, keeping => kept.initCache numLayers keeping
  | .update _ _, keeping => kept.update keeping
  | .enableQuantization bits useFp8, _ => kept.enableQuantization bits useFp8
  | .compress method, keeping => kept.compress method keeping
  | .compressFailed, keeping => kept.compressFailed keeping
  | .offloadToCpu, _ => kept.offloadToCpu
  | .loadToGpu, _ => kept.loadToGpu
  | .clear, _ => kept.clear

/-! ### Reading -/

theorem Coded.faithful_dequantize {row : Row} {code : Row × Scale} (h : Coded codec row code) :
    Faithful codec row (codec.dequantize code.1 code.2) := .inr ⟨code, h, .inl rfl⟩

theorem Coded.faithful_rescale {row : Row} {code : Row × Scale} (h : Coded codec row code) :
    Faithful codec row (codec.rescale code.1 code.2) := .inr ⟨code, h, .inr rfl⟩

theorem faithful_self (rows : List Row) : List.Forall₂ (Faithful codec) rows rows :=
  List.forall₂_same.mpr fun _ _ => .inl rfl

theorem Kept.segments_nil (kept : Kept codec s) (plain : s.cache.quantized = false) :
    s.cache.segments layer = [] := (kept.plain plain).2.2 layer

theorem get_segments (quantized : c.quantized = true) (segments : c.segments layer ≠ []) :
    c.get codec layer = .ok (some (c.dequantizeLayer codec layer)) := by
  unfold KVCache.get
  cases c.cache[layer]? with
  | none => simp [quantized, segments]
  | some buffer => simp [quantized, segments]

theorem get_buffer (segments : c.segments layer = []) (present : c.cache[layer]? = some buffer) :
    c.get codec layer = if c.quantized then
      match c.scales[layer]? with
      | some scales => (KVCache.rescaleAll codec buffer scales).map some
      | none => .ok (some buffer)
      else .ok (some buffer) := by
  cases scales : c.scales[layer]? with
  | none => simp [KVCache.get, present, segments, scales]
  | some scales' => simp [KVCache.get, present, segments, scales]

theorem rescaleAll_codes {scales : List Scale} (same : scales.length = buffer.length) :
    KVCache.rescaleAll codec buffer scales
      = .ok ((buffer.zip scales).map fun code => codec.rescale code.1 code.2) := by
  unfold KVCache.rescaleAll
  rw [if_pos same.symm, List.map_zip_eq_zipWith]
  rfl

section

variable (kept : Kept codec s)

include kept

theorem Kept.get_stored (segments : s.cache.segments layer = [])
    (present : s.cache.cache[layer]? = some buffer)
    (used : s.tokens layer ≠ [] ∨ buffer.length = (s.tokens layer).length) :
    ∃ rows, s.cache.get codec layer = .ok (some rows) ∧ rows.length = buffer.length ∧
      ∃ first, first <+: rows ∧ List.Forall₂ (Faithful codec) (s.tokens layer) first := by
  have held : s.cache.held layer = some buffer := by
    rw [held_home (kept.home present)]
    exact present
  obtain ⟨length, stored⟩ := (kept.layers layer buffer held).inBuffer segments
  rw [get_buffer segments present]
  by_cases quantized : s.cache.quantized = true
  · rw [if_pos quantized]
    generalize s.cache.scales[layer]? = scales at stored
    cases stored with
    | rows begins => exact ⟨buffer, rfl, rfl, _, begins, faithful_self _⟩
    | codes same begins coded =>
      dsimp only
      rw [rescaleAll_codes same]
      refine ⟨_, rfl, by simp [same], _, begins.map _, ?_⟩
      rw [List.forall₂_map_right_iff]
      exact coded.imp fun _ _ h => h.faithful_rescale
    | unused some_room empty =>
      -- no token, and a buffer of more than none
      exfalso
      rcases used with used | used
      · exact used empty
      · rw [empty] at used
        exact some_room (List.length_eq_zero_iff.mp used)
  · rw [if_neg quantized]
    have unscaled := (kept.plain (by simpa using quantized)).2.1
    have begins := kept.rows_of_keeping (.inl unscaled) held segments
    exact ⟨buffer, rfl, rfl, _, begins, faithful_self _⟩

theorem Kept.reads_segments (segments : s.cache.segments layer ≠ []) :
    Reads codec s.cache layer (s.tokens layer) := by
  have quantized : s.cache.quantized = true := by
    by_contra plain
    exact segments (kept.segments_nil (by simpa using plain))
  refine ⟨_, get_segments quantized segments, ?_⟩
  cases held : s.cache.held layer with
  | none => exact absurd (kept.absent layer held).2 segments
  | some buffer =>
    rw [KVCache.dequantizeLayer, List.forall₂_map_right_iff]
    exact ((kept.layers layer buffer held).inSegments segments).2.imp
      fun _ _ h => h.faithful_dequantize

theorem Kept.full_iff (segments : s.cache.segments layer = [])
    (present : s.cache.cache[layer]? = some buffer) :
    s.cache.Full layer ↔ buffer.length = (s.tokens layer).length := by
  have held : s.cache.held layer = some buffer := by
    rw [held_home (kept.home present)]
    exact present
  have length := ((kept.layers layer buffer held).inBuffer segments).1
  simp [KVCache.Full, present, length]

theorem Kept.reads (readable : s.cache.Readable layer) :
    Reads codec s.cache layer (s.tokens layer) := by
  by_cases segments : s.cache.segments layer = []
  · obtain ⟨present, full⟩ := readable.resolve_left fun h => h segments
    obtain ⟨buffer, present⟩ := Option.ne_none_iff_exists'.mp present
    rw [kept.full_iff segments present] at full
    obtain ⟨rows, result, length, first, begins, faithful⟩ :=
      kept.get_stored segments present (.inr full)
    refine ⟨rows, result, ?_⟩
    rw [← begins.eq_of_length (by rw [length, full, faithful.length_eq])]
    exact faithful
  · exact kept.reads_segments segments

theorem Kept.readable (used : s.tokens layer ≠ [])
    (reads : Reads codec s.cache layer (s.tokens layer)) : s.cache.Readable layer := by
  obtain ⟨rows, result, faithful⟩ := reads
  by_cases segments : s.cache.segments layer = []
  · right
    cases present : s.cache.cache[layer]? with
    | none => simp [KVCache.get, present, segments] at result
    | some buffer =>
      refine ⟨by simp, (kept.full_iff segments present).mpr ?_⟩
      obtain ⟨rows', result', length, -⟩ := kept.get_stored segments present (.inl used)
      rw [result] at result'
      cases result'
      rw [← length, faithful.length_eq]
  · exact .inl segments

end

theorem getAll_getElem? (quantized : c.quantized = true) :
    (c.getAll codec)[layer]? = if layer < c.qsegments.length
      then some (c.dequantizeLayer codec layer) else none := by
  simp only [KVCache.getAll, quantized, if_true, List.getElem?_map]
  split
  next inside => rw [List.getElem?_range inside]; rfl
  next outside => rw [List.getElem?_eq_none (by simpa using outside)]; rfl

theorem agrees_of_listed (listed : c.Listed layer) : Agrees codec c layer := by
  unfold Agrees
  by_cases quantized : c.quantized = true
  · rw [getAll_getElem? quantized]
    by_cases segments : c.segments layer = []
    · -- no buffer and no entry of the list
      rcases listed with plain | h | ⟨noBuffer, noEntry⟩
      · rw [quantized] at plain
        cases plain
      · exact absurd segments h
      · rw [if_neg (Nat.not_lt.mpr noEntry)]
        simp [KVCache.get, List.getElem?_eq_none noBuffer, segments]
    · have inside : layer < c.qsegments.length := by
        by_contra outside
        exact segments (by simp [KVCache.segments, List.getElem?_eq_none (Nat.not_lt.mp outside)])
      rw [if_pos inside, get_segments quantized segments]
  · have plain : c.quantized = false := by simpa using quantized
    simp only [KVCache.getAll, plain, Bool.false_eq_true, if_false]
    cases present : c.cache[layer]? with
    | none => simp [KVCache.get, present, plain]
    | some buffer => simp [KVCache.get, present, plain]

theorem Kept.listed (kept : Kept codec s) (used : s.tokens layer ≠ [])
    (agrees : Agrees codec s.cache layer) : s.cache.Listed layer := by
  unfold Agrees at agrees
  by_cases quantized : s.cache.quantized = true
  · rw [getAll_getElem? quantized] at agrees
    by_cases segments : s.cache.segments layer = []
    · have nothing : s.cache.dequantizeLayer codec layer = [] := by
        simp [KVCache.dequantizeLayer, segments]
      right
      right
      cases present : s.cache.cache[layer]? with
      | none =>
        refine ⟨List.getElem?_eq_none_iff.mp present, ?_⟩
        by_contra inside
        rw [if_pos (Nat.not_le.mp inside)] at agrees
        simp [KVCache.get, present, segments] at agrees
      | some buffer =>
        -- the buffer has tokens, and the list has none
        obtain ⟨rows, result, -, first, begins, faithful⟩ :=
          kept.get_stored segments present (.inl used)
        have some_rows : rows ≠ [] := by
          rintro rfl
          rw [List.prefix_nil.mp begins] at faithful
          cases tokens : s.tokens layer with
          | nil => exact used tokens
          | cons row rest => rw [tokens] at faithful; cases faithful
        rw [result, nothing] at agrees
        split at agrees
        · cases agrees
          exact absurd rfl some_rows
        · cases agrees
    · exact .inr (.inl segments)
  · exact .inl (by simpa using quantized)

end Step

namespace Session

variable (codec : Codec Row Scale)

/-- Each operation leaves the tokens in one place, in the state it finds. -/
def AllKeeping : Session Row Scale → List (Op Row) → Prop
  | _, [] => True
  | s, op :: ops => s.cache.Keeping op ∧ AllKeeping (s.perform codec op) ops

theorem run_kept {s : Session Row Scale} (kept : Kept codec s) (ops : List (Op Row))
    (keeping : s.AllKeeping codec ops) : Kept codec (s.run codec ops) := by
  induction ops generalizing s with
  | nil => exact kept
  | cons op ops ih => exact ih (kept.perform op keeping.1) keeping.2

end Session

end DistLLM.Kv
