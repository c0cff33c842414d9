import Mathlib.Algebra.BigOperators.Group.Finset.Piecewise
import Mathlib.Tactic.Ring

/-!
# Where the rows of a layer lie

One block table and one token counter serve all layers of a sequence, and each slice of a chunk is
written from the beginning of its block. The layout says what the cells of a layer hold after a
history of appends, counting through the blocks of the table, and for which block sizes, numbers
of layers and chunk lengths this is the concatenation of the chunks of the layer.
-/
namespace DistLLM.Pool

variable {lengths : List Nat} {α : Type}

/-- A chunk is appended to a layer after `start` tokens. The slice in the block of cell `i` begins
where the block or the chunk begins, and is written from the first cell of the block. -/
def writeChunk (size start : Nat) (chunk : List α) (cell : Nat → Option α) (i : Nat) : Option α :=
  let first := max (i / size * size) start
  if first + i % size < min (i / size * size + size) (start + chunk.length) then
    chunk[first - start + i % size]?
  else cell i

/-- The tokens counted for a sequence, and the cells of each layer that have been written. -/
structure Shelf (α : Type) where
  count : Nat := 0
  cell : Nat → Nat → Option α := fun _ _ => none

def Shelf.append (size : Nat) (shelf : Shelf α) (call : Nat × List α) : Shelf α where
  count := shelf.count + call.2.length
  cell := Function.update shelf.cell call.1
    (writeChunk size shelf.count call.2 (shelf.cell call.1))

def shelve (size : Nat) (history : List (Nat × List α)) : Shelf α :=
  history.foldl (Shelf.append size) {}

def chunksOf (history : List (Nat × List α)) (layer : Nat) : List (List α) :=
  (history.filter fun call => decide (call.1 = layer)).map Prod.snd

/-- Every nonempty chunk begins with a block. -/
def Aligned (size : Nat) : (start : Nat) → (lengths : List Nat) → Prop
  | _, [] => True
  | start, length :: rest => (length = 0 ∨ size ∣ start) ∧ Aligned size (start + length) rest

instance Aligned.decidable (size : Nat) : ∀ start lengths, Decidable (Aligned size start lengths)
  | _, [] => .isTrue trivial
  | start, length :: rest =>
    have := Aligned.decidable size (start + length) rest
    inferInstanceAs (Decidable (_ ∧ _))

/-- No layers, one layer with aligned chunks, or at most one chunk that is not empty, for which a
block has room once for every layer. -/
def Fits (size layers : Nat) (lengths : List Nat) : Prop :=
  layers = 0 ∨ layers = 1 ∧ Aligned size 0 lengths ∨
    (lengths.filter (0 < ·)).length ≤ 1 ∧ layers * lengths.sum ≤ size

instance (size layers : Nat) (lengths : List Nat) : Decidable (Fits size layers lengths) :=
  inferInstanceAs (Decidable (_ ∨ _))

variable {size start layer : Nat} {chunk : List α} {history : List (Nat × List α)}
  {cell : Nat → Option α}

@[simp] theorem writeChunk_nil : writeChunk size start [] cell = cell := by
  funext i
  have none : ¬ max (i / size * size) start + i % size <
      min (i / size * size + size) (start + ([] : List α).length) := by
    simp only [List.length_nil]
    omega
  simp only [writeChunk, if_neg none]

variable {i : Nat} (layers : Nat) (call : Nat × List α) (value filler : α)

theorem shelve_concat :
    shelve size (history ++ [call]) = (shelve size history).append size call := by
  simp [shelve]

theorem count_shelve (size : Nat) :
    (shelve size history).count = (history.map fun call => call.2.length).sum := by
  induction history using List.reverseRecOn with
  | nil => rfl
  | append_singleton history call ih => simp [shelve_concat, Shelf.append, ih]

theorem chunksOf_concat : chunksOf (history ++ [call]) layer =
    chunksOf history layer ++ if call.1 = layer then [call.2] else [] := by
  by_cases here : call.1 = layer <;> simp [chunksOf, here]

theorem aligned_concat (lengths : List Nat) (length : Nat) :
    Aligned size start (lengths ++ [length]) ↔
      Aligned size start lengths ∧ (length = 0 ∨ size ∣ start + lengths.sum) := by
  induction lengths generalizing start with
  | nil => simp [Aligned]
  | cons first rest ih => simp [Aligned, ih, Nat.add_assoc, and_assoc]

theorem writeChunk_before (before : i / size * size + size ≤ start) :
    writeChunk size start chunk cell i = cell i := by
  have none : ¬ max (i / size * size) start + i % size <
      min (i / size * size + size) (start + chunk.length) := by omega
  simp only [writeChunk, if_neg none]

theorem writeChunk_aligned (positive : 0 < size) (aligned : size ∣ start) :
    writeChunk size start chunk cell i =
      if i < start then cell i
      else if i < start + chunk.length then chunk[i - start]? else cell i := by
  obtain ⟨full, rfl⟩ := aligned
  have split := Nat.div_add_mod i size
  have small := Nat.mod_lt i positive
  rw [Nat.mul_comm] at split
  split
  next before =>
    -- the block of the cell ends where the chunk begins, or before
    have whole : (i / size + 1) * size ≤ full * size := by
      apply Nat.mul_le_mul_right
      exact Nat.div_lt_of_lt_mul before
    apply writeChunk_before
    rwa [Nat.add_mul, Nat.one_mul, Nat.mul_comm full] at whole
  next after =>
    -- the chunk begins where the block of the cell does, or before
    have whole : full * size ≤ i / size * size := by
      apply Nat.mul_le_mul_right
      rw [Nat.le_div_iff_mul_le positive, Nat.mul_comm]
      omega
    rw [Nat.mul_comm] at whole
    simp only [writeChunk, Nat.max_eq_left whole, split]
    have inside : i < min (i / size * size + size) (size * full + chunk.length) ↔
        i < size * full + chunk.length := by omega
    simp only [inside]
    split
    · congr 1
      omega
    · rfl

theorem writeChunk_first (fits : start + chunk.length ≤ size) (inside : i < size) :
    writeChunk size start chunk cell i = if i < chunk.length then chunk[i]? else cell i := by
  have block : i / size = 0 := Nat.div_eq_of_lt inside
  have here : i % size = i := Nat.mod_eq_of_lt inside
  simp only [writeChunk, block, here, Nat.zero_mul, Nat.zero_max, Nat.zero_add, Nat.sub_self]
  have same : start + i < min size (start + chunk.length) ↔ i < chunk.length := by omega
  simp only [same]

theorem writeChunk_block {j offset : Nat} (inside : offset < size) :
    writeChunk size start chunk cell (j * size + offset) =
      if max (j * size) start + offset < min (j * size + size) (start + chunk.length) then
        chunk[max (j * size) start - start + offset]?
      else cell (j * size + offset) := by
  have block : (j * size + offset) / size = j := by
    rw [Nat.mul_comm, Nat.mul_add_div (by omega), Nat.div_eq_of_lt inside, Nat.add_zero]
  have place : (j * size + offset) % size = offset := by
    rw [Nat.mul_comm, Nat.mul_add_mod, Nat.mod_eq_of_lt inside]
  simp only [writeChunk, block, place]

theorem cell_of_aligned (positive : 0 < size) (only : ∀ call ∈ history, call.1 = 0)
    (aligned : Aligned size 0 (history.map fun call => call.2.length))
    (inside : i < (shelve size history).count) :
    (shelve size history).cell 0 i = (chunksOf history 0).flatten[i]? := by
  induction history using List.reverseRecOn generalizing i with
  | nil => simp [shelve] at inside
  | append_singleton history call ih =>
    have here : call.1 = 0 := only call (by simp)
    have before : ∀ call ∈ history, call.1 = 0 := fun call member => only call (by simp [member])
    rw [List.map_append, List.map_singleton, aligned_concat, ← count_shelve size] at aligned
    -- the chunks before have filled all cells that are counted
    have length : (chunksOf history 0).flatten.length = (shelve size history).count := by
      have all : chunksOf history 0 = history.map Prod.snd := by
        rw [chunksOf, List.filter_eq_self.mpr (by simpa using before)]
      rw [count_shelve, all, List.length_flatten, List.map_map]
      rfl
    rw [chunksOf_concat, if_pos here, List.flatten_concat]
    simp only [shelve_concat, Shelf.append, here, Function.update_self] at inside ⊢
    rcases aligned.2 with none | begins
    · have empty : call.2 = [] := List.eq_nil_of_length_eq_zero none
      rw [empty, writeChunk_nil, List.append_nil]
      exact ih before aligned.1 (by simpa [none] using inside)
    · rw [writeChunk_aligned positive (by simpa using begins), if_pos inside]
      split
      next old => rw [ih before aligned.1 old, List.getElem?_append_left (by omega)]
      next new => rw [List.getElem?_append_right (by omega), length]

/-- All tokens in one block and one nonempty chunk for the layer: the chunk is in its first
cells. -/
theorem cell_of_single (fits : (shelve size history).count ≤ size)
    (single : ((chunksOf history layer).filter (0 < ·.length)).length ≤ 1)
    (inside : i < (chunksOf history layer).flatten.length) :
    (shelve size history).cell layer i = (chunksOf history layer).flatten[i]? := by
  induction history using List.reverseRecOn with
  | nil => simp [chunksOf] at inside
  | append_singleton history call ih =>
    simp only [shelve_concat, Shelf.append] at fits ⊢
    have less : (shelve size history).count ≤ size := by omega
    by_cases here : call.1 = layer
    · subst here
      rw [chunksOf_concat, if_pos rfl] at single inside ⊢
      rw [Function.update_self]
      by_cases empty : call.2 = []
      · simp only [empty, writeChunk_nil, List.flatten_concat, List.append_nil] at inside ⊢
        exact ih less (by simpa [empty] using single) inside
      · -- the chunks before it are empty
        have nonempty : 0 < call.2.length := List.length_pos_iff.mpr empty
        have none : (chunksOf history call.1).filter (0 < ·.length) = [] := by
          have last : [call.2].filter (0 < ·.length) = [call.2] := by
            simp [nonempty]
          rw [List.filter_append, last, List.length_append, List.length_singleton] at single
          exact List.eq_nil_of_length_eq_zero (by omega)
        have before : (chunksOf history call.1).flatten = [] := by
          rw [List.flatten_eq_nil_iff]
          intro chunk member
          simpa using List.filter_eq_nil_iff.mp none chunk member
        simp only [List.flatten_concat, before, List.nil_append] at inside ⊢
        rw [writeChunk_first fits (by omega), if_pos inside]
    · rw [chunksOf_concat, if_neg here, List.append_nil] at single inside ⊢
      rw [Function.update_of_ne (Ne.symm here)]
      exact ih less single inside

/-- Each chunk is appended once to each of the layers. -/
def EachLayer (layers : Nat) (history : List (Nat × List α)) (chunks : List (List α)) : Prop :=
  (∀ call ∈ history, call.1 < layers) ∧ ∀ layer < layers, chunksOf history layer = chunks

theorem count_of_each (size : Nat) {layers : Nat} {chunks : List (List α)}
    (each : EachLayer layers history chunks) :
    (shelve size history).count = layers * (chunks.map List.length).sum := by
  have layered : ∀ history : List (Nat × List α), (∀ call ∈ history, call.1 < layers) →
      (history.map fun call => call.2.length).sum =
        ∑ layer ∈ Finset.range layers, ((chunksOf history layer).map List.length).sum := by
    intro history inside
    induction history with
    | nil => simp [chunksOf]
    | cons call rest ih =>
      have split : ∀ layer, ((chunksOf (call :: rest) layer).map List.length).sum =
          (if call.1 = layer then call.2.length else 0) +
            ((chunksOf rest layer).map List.length).sum := by
        intro layer
        by_cases here : call.1 = layer <;> simp [chunksOf, here]
      rw [List.map_cons, List.sum_cons, ih fun c member => inside c (by simp [member]),
        Finset.sum_congr rfl fun layer _ => split layer, Finset.sum_add_distrib,
        Finset.sum_ite_eq, if_pos (Finset.mem_range.mpr (inside call (by simp)))]
  rw [count_shelve, layered history each.1, Finset.sum_const_nat, Finset.card_range]
  exact fun layer inside => by rw [each.2 layer (Finset.mem_range.mp inside)]

theorem cell_of_fits {layers : Nat} {chunks : List (List α)} (positive : 0 < size)
    (each : EachLayer layers history chunks) (fits : Fits size layers (chunks.map List.length))
    (known : layer < layers) (inside : i < chunks.flatten.length) :
    (shelve size history).cell layer i = chunks.flatten[i]? := by
  have count := count_of_each size each
  rw [← each.2 layer known] at inside ⊢
  rcases fits with none | ⟨one, aligned⟩ | ⟨single, small⟩
  · omega
  · obtain rfl : layer = 0 := by omega
    have only : ∀ call ∈ history, call.1 = 0 := fun call member => by
      have := each.1 call member
      omega
    have all : chunksOf history 0 = history.map Prod.snd := by
      rw [chunksOf, List.filter_eq_self.mpr (by simpa using only)]
    rw [← each.2 0 known, all, List.map_map] at aligned
    apply cell_of_aligned positive only aligned
    rw [count_shelve]
    simpa [all, Function.comp_def] using inside
  · rw [← count] at small
    refine cell_of_single small ?_ inside
    rw [each.2 layer known]
    simpa [List.filter_map, Function.comp_def] using single

/-! ### Histories that do not fit -/

def layerMajor (layers : Nat) (chunks : List (List α)) : List (Nat × List α) :=
  (List.range layers).flatMap fun layer => chunks.map fun chunk => (layer, chunk)

def writeChunks (size : Nat) : (start : Nat) → List (List α) → (Nat → Option α) → Nat → Option α
  | _, [], cell => cell
  | start, chunk :: rest, cell =>
    writeChunks size (start + chunk.length) rest (writeChunk size start chunk cell)

variable (chunks : List (List α))

theorem layerMajor_succ : layerMajor (layers + 1) chunks =
      layerMajor layers chunks ++ chunks.map fun chunk => (layers, chunk) := by
  simp [layerMajor, List.range_succ]

theorem lt_of_mem_layerMajor {layers : Nat} {chunks : List (List α)} {call : Nat × List α}
    (member : call ∈ layerMajor layers chunks) : call.1 < layers := by
  simp only [layerMajor, List.mem_flatMap, List.mem_range, List.mem_map] at member
  obtain ⟨layer, inside, chunk, _, rfl⟩ := member
  exact inside

theorem each_layerMajor : EachLayer layers (layerMajor layers chunks) chunks := by
  refine ⟨fun call => lt_of_mem_layerMajor, fun layer known => ?_⟩
  induction layers with
  | zero => omega
  | succ layers ih =>
    rw [layerMajor_succ, chunksOf, List.filter_append, List.map_append]
    by_cases last : layer = layers
    · have none : (layerMajor layers chunks).filter (fun call => decide (call.1 = layer)) = [] := by
        rw [List.filter_eq_nil_iff]
        intro call member
        have := lt_of_mem_layerMajor member
        simp
        omega
      rw [none]
      simp [last, List.filter_map, Function.comp_def]
    · have other : ¬ layers = layer := fun here => last here.symm
      have earlier := ih (by omega)
      rw [chunksOf] at earlier
      simp [earlier, List.filter_map, Function.comp_def, other]

theorem cell_of_absent (absent : ∀ call ∈ history, call.1 ≠ layer) :
    (shelve size history).cell layer = fun _ => none := by
  induction history using List.reverseRecOn with
  | nil => rfl
  | append_singleton history call ih =>
    simp only [shelve_concat, Shelf.append]
    rw [Function.update_of_ne (absent call (by simp)).symm]
    exact ih fun call member => absent call (by simp [member])

theorem cell_foldl (shelf : Shelf α) (chunks : List (List α)) :
    ((chunks.map fun chunk => (layer, chunk)).foldl (Shelf.append size) shelf).cell layer =
      writeChunks size shelf.count chunks (shelf.cell layer) := by
  induction chunks generalizing shelf with
  | nil => rfl
  | cons chunk rest ih => simp [ih, Shelf.append, writeChunks]

theorem cell_layerMajor : (shelve size (layerMajor (layers + 1) chunks)).cell layers =
      writeChunks size (layers * (chunks.map List.length).sum) chunks fun _ => none := by
  have absent : (shelve size (layerMajor layers chunks)).cell layers = fun _ => none :=
    cell_of_absent fun call member => (lt_of_mem_layerMajor member).ne
  have counted := count_of_each size (each_layerMajor layers chunks)
  rw [layerMajor_succ, shelve, List.foldl_append, cell_foldl]
  rw [shelve] at absent counted
  rw [absent, counted]

theorem writeChunks_append (chunks more : List (List α)) :
    writeChunks size start (chunks ++ more) cell =
      writeChunks size (start + (chunks.map List.length).sum) more
        (writeChunks size start chunks cell) := by
  induction chunks generalizing start cell with
  | nil => rfl
  | cons chunk rest ih => simp [writeChunks, ih, Nat.add_assoc]

theorem writeChunks_before {chunks : List (List α)}
    (before : i / size * size + size ≤ start) : writeChunks size start chunks cell i = cell i := by
  induction chunks generalizing start cell with
  | nil => rfl
  | cons chunk rest ih => rw [writeChunks, ih (by omega), writeChunk_before before]

def copies (value : α) (lengths : List Nat) : List (List α) :=
  lengths.map fun length => List.replicate length value

@[simp] theorem map_length_copies (value : α) (lengths : List Nat) :
    (copies value lengths).map List.length = lengths := by
  simp [copies, Function.comp_def]

theorem flatten_copies (value : α) (lengths : List Nat) :
    (copies value lengths).flatten = List.replicate lengths.sum value := by
  induction lengths with
  | nil => rfl
  | cons length rest ih =>
    rw [copies] at ih
    simp [copies, ih, List.replicate_append_replicate]

theorem writeChunks_copies {value : α} (held : cell i = some value) :
    writeChunks size start (copies value lengths) cell i = some value := by
  induction lengths generalizing start cell with
  | nil => exact held
  | cons length rest ih =>
    apply ih
    simp only [writeChunk]
    split
    next inside =>
      rw [List.length_replicate] at inside
      rw [List.getElem?_replicate, if_pos (by omega)]
    · exact held

/-- The first token overwrites the first cell of the block in which it is counted. -/
theorem writeChunks_overwrites {value : α} (positive : 0 < size) (some_token : 0 < lengths.sum) :
    writeChunks size start (copies value lengths) cell (start / size * size) = some value := by
  induction lengths generalizing start cell with
  | nil => simp at some_token
  | cons length rest ih =>
    rcases Nat.eq_zero_or_pos length with rfl | nonempty
    · have empty : copies value (0 :: rest) = [] :: copies value rest := rfl
      rw [empty, writeChunks, writeChunk_nil]
      exact ih (by simpa using some_token)
    · simp only [copies, List.map_cons, writeChunks]
      apply writeChunks_copies
      have below : start / size * size ≤ start := Nat.div_mul_le_self start size
      have above : start < start / size * size + size := by
        have := Nat.lt_mul_div_succ start positive
        rwa [Nat.mul_succ, Nat.mul_comm] at this
      simp only [writeChunk, Nat.mul_div_cancel _ positive, Nat.mul_mod_left, Nat.add_zero,
        Nat.max_eq_right below, Nat.sub_self, List.length_replicate, List.getElem?_replicate]
      rw [if_pos (by omega), if_pos nonempty]

theorem writeChunks_empty {value : α} (none : lengths.sum = 0) :
    writeChunks size start (copies value lengths) cell = cell := by
  induction lengths with
  | nil => rfl
  | cons length rest ih =>
    obtain ⟨rfl, empty⟩ : length = 0 ∧ rest.sum = 0 := by simpa using none
    simpa [copies, writeChunks] using ih empty

theorem exists_misaligned (misaligned : ¬ Aligned size start lengths) :
    ∃ front length rest, lengths = front ++ length :: rest ∧ 0 < length ∧
      ¬ size ∣ start + front.sum := by
  induction lengths generalizing start with
  | nil => exact absurd trivial misaligned
  | cons length rest ih =>
    by_cases here : length = 0 ∨ size ∣ start
    · obtain ⟨front, length', rest', rfl, nonempty, inside⟩ :=
        ih fun after => misaligned ⟨here, after⟩
      exact ⟨length :: front, length', rest', rfl, nonempty, by simpa [Nat.add_assoc] using inside⟩
    · rw [not_or] at here
      exact ⟨[], length, rest, rfl, Nat.pos_of_ne_zero here.1, by simpa using here.2⟩

theorem exists_first (some_token : 0 < lengths.sum) :
    ∃ front length rest, lengths = front ++ length :: rest ∧ 0 < length ∧ front.sum = 0 := by
  induction lengths with
  | nil => simp at some_token
  | cons length rest ih =>
    rcases Nat.eq_zero_or_pos length with rfl | nonempty
    · obtain ⟨front, length', rest', rfl, more, none⟩ := ih (by simpa using some_token)
      exact ⟨0 :: front, length', rest', rfl, more, by simpa using none⟩
    · exact ⟨[], length, rest, rfl, nonempty, rfl⟩

/-- With one layer, a chunk that begins inside a block overwrites the beginning of this block. -/
theorem lost_of_misaligned (positive : 0 < size) (value filler : α)
    (misaligned : ¬ Aligned size 0 lengths) :
    ∃ chunks : List (List α), chunks.map List.length = lengths ∧ ∃ i < chunks.flatten.length,
        writeChunks size 0 chunks (fun _ => none) i = some filler ∧
          chunks.flatten[i]? = some value := by
  obtain ⟨front, length, rest, rfl, nonempty, inside⟩ := exists_misaligned misaligned
  rw [Nat.zero_add] at inside
  have below : front.sum / size * size < front.sum := by
    apply lt_of_le_of_ne (Nat.div_mul_le_self _ _)
    exact fun exact_ => inside ⟨front.sum / size, by rw [Nat.mul_comm]; exact exact_.symm⟩
  refine ⟨copies value front ++ copies filler (length :: rest), by simp,
    front.sum / size * size, ?_, ?_, ?_⟩
  · simp only [List.flatten_append, flatten_copies, List.length_append, List.length_replicate]
    omega
  · rw [writeChunks_append, map_length_copies, Nat.zero_add]
    exact writeChunks_overwrites positive (by simp; omega)
  · rw [List.flatten_append, flatten_copies, List.getElem?_append_left (by simpa using below),
      List.getElem?_replicate, if_pos below]

theorem filter_of_sum_eq_zero (none : lengths.sum = 0) : lengths.filter (0 < ·) = [] := by
  rw [List.filter_eq_nil_iff]
  intro length member
  simpa using List.sum_eq_zero_iff_forall_eq_nat.mp none length member

/-- With more layers, the tokens of a second chunk or those of a second block are lost. -/
theorem lost_of_layers (positive : 0 < size) (before : 0 < start) (some_token : 0 < lengths.sum)
    (misfit : ¬ ((lengths.filter (0 < ·)).length ≤ 1 ∧ start + lengths.sum ≤ size)) :
    ∃ chunks : List (List α), chunks.map List.length = lengths ∧ ∃ i < chunks.flatten.length,
        (writeChunks size start chunks (fun _ => none) i = none ∨
          writeChunks size start chunks (fun _ => none) i = some filler) ∧
          chunks.flatten[i]? = some value := by
  obtain ⟨front, length, rest, rfl, nonempty, none⟩ := exists_first some_token
  have sum : (front ++ length :: rest).sum = length + rest.sum := by simp [none]
  have single : rest.sum = 0 → ((front ++ length :: rest).filter (0 < ·)).length ≤ 1 := by
    intro after
    simp [filter_of_sum_eq_zero none, filter_of_sum_eq_zero after, nonempty]
  rw [sum] at misfit
  by_cases crosses : size ≤ start + length
  · -- the tokens of the first chunk that no longer go into the first block
    have inside : size - start < length + rest.sum := by
      by_contra all
      exact misfit ⟨single (by omega), by omega⟩
    have first : (size - start) / size = 0 := Nat.div_eq_of_lt (by omega)
    have place : (size - start) % size = size - start := Nat.mod_eq_of_lt (by omega)
    refine ⟨copies value (front ++ length :: rest), map_length_copies _ _, size - start, ?_,
      .inl ?_, ?_⟩
    · rwa [flatten_copies, List.length_replicate, sum]
    · have split : copies value (front ++ length :: rest) =
          copies value front ++ List.replicate length value :: copies value rest := by
        simp [copies]
      rw [split, writeChunks_append, writeChunks_empty none, map_length_copies, none, writeChunks,
        writeChunks_before (by simpa [first] using crosses)]
      simp only [writeChunk, first, place]
      rw [if_neg (by omega)]
    · rw [flatten_copies, List.getElem?_replicate, if_pos (by omega)]
  · -- the next chunk overwrites the first one
    have more : 0 < rest.sum := by
      by_contra nothing
      exact misfit ⟨single (by omega), by omega⟩
    have first : (start + length) / size * size = 0 := by
      rw [Nat.div_eq_of_lt (by omega), Nat.zero_mul]
    refine ⟨copies value (front ++ [length]) ++ copies filler rest, by simp, 0, ?_, .inr ?_, ?_⟩
    · simp only [List.flatten_append, flatten_copies, List.length_append, List.length_replicate]
      omega
    · rw [writeChunks_append, map_length_copies, List.sum_append, none]
      simp only [List.sum_singleton, Nat.zero_add]
      rw [← first]
      exact writeChunks_overwrites positive more
    · rw [List.flatten_append, flatten_copies, List.getElem?_append_left (by simp; omega),
        List.getElem?_replicate, if_pos (by simp; omega)]

/-- What does not fit cannot be read back from the last layer, for some values: a cell holds the
filler or nothing. -/
theorem exists_lost (positive : 0 < size) (value filler : α) {layers : Nat}
    (misfit : ¬ Fits size layers lengths) :
    ∃ last, layers = last + 1 ∧ ∃ chunks : List (List α), chunks.map List.length = lengths ∧
      ∃ i < chunks.flatten.length, ((shelve size (layerMajor layers chunks)).cell last i = none ∨
          (shelve size (layerMajor layers chunks)).cell last i = some filler) ∧
          chunks.flatten[i]? = some value := by
  simp only [Fits, not_or] at misfit
  obtain ⟨some_layer, misaligned, misfit⟩ := misfit
  obtain ⟨last, rfl⟩ := Nat.exists_eq_succ_of_ne_zero some_layer
  refine ⟨last, rfl, ?_⟩
  have some_token : 0 < lengths.sum := by
    by_contra nothing
    have none : lengths.sum = 0 := by omega
    exact misfit (by simp [filter_of_sum_eq_zero none, none])
  simp only [cell_layerMajor]
  rcases Nat.eq_zero_or_pos last with rfl | more
  · obtain ⟨chunks, shape, i, inside, cell, row⟩ := lost_of_misaligned positive value filler
      fun aligned => misaligned ⟨rfl, aligned⟩
    exact ⟨chunks, shape, i, inside, .inr (by rwa [Nat.zero_mul]), row⟩
  · obtain ⟨chunks, shape, found⟩ := lost_of_layers value filler positive
      (Nat.mul_pos more some_token) some_token (by rwa [Nat.succ_mul] at misfit)
    exact ⟨chunks, shape, by rwa [shape]⟩

end DistLLM.Pool
