import DistLLM.Speculative.PromptLookup

/-!
# The n-gram index against the backward scan

The index and its high-water mark outlive the text they were built from. As long as all texts that a
strategy is asked about continue one another and all n-grams have one size, the index holds the
n-grams of the longest text, and its answers are those of a scan backward over the text asked about.
-/
namespace DistLLM.Speculative.PromptLookupStrategy

open Library

/-- The n-gram of a text that ends before a position. -/
def gram (seq : List Token) (minMatch stop : Nat) : List Token :=
  (seq.take stop).drop (stop - minMatch)

/-- The text ends with the n-gram that ends before `stop`, at an earlier place. -/
def Repeats (seq : List Token) (minMatch stop : Nat) : Prop :=
  minMatch ≤ stop ∧ stop < seq.length ∧ gram seq minMatch stop = gram seq minMatch seq.length

/-- What the backward scan finds: the last repeat, with the length of the draft. -/
def IsNearest (seq : List Token) (minMatch : Nat) : Option (Nat × Nat) → Prop
  | none => ∀ stop, ¬ Repeats seq minMatch stop
  | some (matchEnd, numDraft) => Repeats seq minMatch matchEnd ∧
      (∀ stop, matchEnd < stop → ¬ Repeats seq minMatch stop) ∧
      numDraft = min (seq.length - matchEnd) maxDraft

/-- The answers to calls one after the other, each with a text and a size of the n-grams. -/
def answers : List (List Token × Nat) → PromptLookupStrategy → List (Option (Nat × Nat))
  | [], _ => []
  | (seq, minMatch) :: rest, p =>
    (p.findMatch seq minMatch).1 :: answers rest (p.findMatch seq minMatch).2

/-- A call on a text with more tokens than an n-gram; other calls return at once. -/
def Looks (call : List Token × Nat) : Prop := call.2 < call.1.length

instance (call : List Token × Nat) : Decidable (Looks call) :=
  inferInstanceAs (Decidable (call.2 < call.1.length))

/-- All calls that look use n-grams of one size, of at least one token, and their texts are
beginnings of one another. -/
structure Steady (minMatch : Nat) (calls : List (List Token × Nat)) : Prop where
  positive : 0 < minMatch
  size : ∀ call ∈ calls, Looks call → call.2 = minMatch
  grows : calls.Pairwise fun call other => Looks call → Looks other →
    call.1 <+: other.1 ∨ other.1 <+: call.1

structure Indexes (p : PromptLookupStrategy) (minMatch : Nat) (text : List Token) : Prop where
  upTo : p.indexedUpTo.getD (minMatch - 1) = max (minMatch - 1) text.length
  positions : ∀ key, p.ngramIndex.getD key [] =
    (List.range' minMatch (text.length + 1 - minMatch)).filter fun stop =>
      decide (gram text minMatch stop = key)

variable {p : PromptLookupStrategy} {minMatch : Nat} {seq text : List Token}

theorem indexes_create (positive : 0 < minMatch) : create.Indexes minMatch [] := by
  constructor
  · simp [create]
  · intro key
    have none_fit : 0 + 1 - minMatch = 0 := by omega
    simp [create, Dict.getD, none_fit]

theorem gram_of_isPrefix (shorter : seq <+: text) {stop : Nat} (inside : stop ≤ seq.length) :
    gram text minMatch stop = gram seq minMatch stop := by
  obtain ⟨rest, rfl⟩ := shorter
  rw [gram, gram, List.take_append_of_le_length inside]

theorem suffixKey_eq_gram (positive : 0 < minMatch) :
    suffixKey seq minMatch = gram seq minMatch seq.length := by
  rw [suffixKey, if_neg (Nat.pos_iff_ne_zero.mp positive), gram, List.take_length]

theorem foldl_record (key : List Token) (stops : List Nat) (index : Dict (List Token) (List Nat)) :
    (stops.foldl (fun index stop => record index (gram seq minMatch stop) stop) index).getD key [] =
      index.getD key [] ++ stops.filter fun stop => decide (gram seq minMatch stop = key) := by
  induction stops generalizing index with
  | nil => simp
  | cons stop rest ih =>
    rw [List.foldl_cons, ih, record, Dict.getD_set]
    by_cases here : gram seq minMatch stop = key
    · simp [here]
    · simp [here]

theorem Indexes.update (indexes : p.Indexes minMatch text) (positive : 0 < minMatch)
    (looks : minMatch < seq.length) (continues : text <+: seq ∨ seq <+: text)
    (known : text = [] ∨ minMatch < text.length) :
    ∃ text', (p.indexUpdate seq minMatch).Indexes minMatch text' ∧ seq <+: text' ∧
      minMatch < text'.length ∧ (text' = seq ∨ text' = text) := by
  simp only [indexUpdate, indexes.upTo]
  by_cases within : seq.length ≤ text.length
  · have covered : seq <+: text := by
      rcases continues with longer | shorter
      · obtain rfl := longer.eq_of_length_le within
        exact List.prefix_refl _
      · exact shorter
    rw [if_pos (within.trans (Nat.le_max_right _ _))]
    exact ⟨text, indexes, covered, looks.trans_le within, .inr rfl⟩
  · have shorter : text <+: seq := by
      rcases continues with longer | longer
      · exact longer
      · exact absurd longer.length_le within
    rw [if_neg (by omega)]
    refine ⟨seq, ⟨?_, ?_⟩, List.prefix_refl _, looks, .inl rfl⟩
    · simp only [Option.getD_some]
      omega
    · intro key
      have start : max minMatch (max (minMatch - 1) text.length + 1) =
          minMatch + (text.length + 1 - minMatch) := by
        rcases known with rfl | longer
        · simp only [List.length_nil]
          omega
        · omega
      -- the positions indexed before, and those beyond them
      have split : List.range' minMatch (seq.length + 1 - minMatch) =
          List.range' minMatch (text.length + 1 - minMatch) ++
            List.range' (minMatch + (text.length + 1 - minMatch))
              (seq.length + 1 - (minMatch + (text.length + 1 - minMatch))) := by
        rw [List.range'_append_1]
        congr 1
        omega
      have old : (List.range' minMatch (text.length + 1 - minMatch)).filter
            (fun stop => decide (gram text minMatch stop = key)) =
          (List.range' minMatch (text.length + 1 - minMatch)).filter
            fun stop => decide (gram seq minMatch stop = key) := by
        refine List.filter_congr fun stop member => ?_
        have inside := List.mem_range'_1.mp member
        rw [gram_of_isPrefix shorter (by omega)]
      rw [start, split, List.filter_append, ← old, ← indexes.positions key]
      exact foldl_record key _ p.ngramIndex

theorem find?_greatest {positions : List Nat} (descending : positions.Pairwise (· > ·))
    {q : Nat → Bool} {stop : Nat} (found : positions.find? q = some stop) :
    ∀ later ∈ positions, stop < later → q later = false := by
  induction positions with
  | nil => cases found
  | cons first rest ih =>
    obtain ⟨below, descending⟩ := List.pairwise_cons.mp descending
    rw [List.find?_cons] at found
    intro later member after
    split at found
    · cases found
      rcases List.mem_cons.mp member with rfl | behind
      · exact absurd after (lt_irrefl _)
      · exact absurd (below later behind) (by omega)
    next misses =>
      rcases List.mem_cons.mp member with rfl | behind
      · simpa using misses
      · exact ih descending found later behind after

theorem find?_candidates (positions : List Nat) (n : Nat) :
    (candidates positions n).find? (· < n) = positions.reverse.find? (· < n) := by
  rw [candidates]
  split
  next last =>
    have whole := (List.dropLast_append_getLast? n last).symm
    conv_rhs => rw [whole, List.reverse_append]
    simp
  · rfl

theorem Indexes.nearest (indexes : p.Indexes minMatch text) (positive : 0 < minMatch)
    (shorter : seq <+: text) :
    IsNearest seq minMatch (((candidates (p.ngramIndex.getD (suffixKey seq minMatch) [])
      seq.length).find? (· < seq.length)).map
        fun matchEnd => (matchEnd, min (seq.length - matchEnd) maxDraft)) := by
  rw [find?_candidates, indexes.positions, suffixKey_eq_gram positive]
  generalize listed : (List.range' minMatch (text.length + 1 - minMatch)).filter
    (fun stop => decide (gram text minMatch stop = gram seq minMatch seq.length)) = positions
  have repeats : ∀ stop, stop ∈ positions ∧ stop < seq.length ↔ Repeats seq minMatch stop := by
    intro stop
    simp only [← listed, List.mem_filter, List.mem_range'_1, decide_eq_true_eq, Repeats]
    have length := shorter.length_le
    constructor
    · rintro ⟨⟨inside, same⟩, before⟩
      exact ⟨inside.1, before, by rw [← same, gram_of_isPrefix shorter before.le]⟩
    · rintro ⟨inside, before, same⟩
      exact ⟨⟨⟨inside, by omega⟩, by rw [← same, gram_of_isPrefix shorter before.le]⟩, before⟩
  have descending : positions.reverse.Pairwise (· > ·) := by
    rw [List.pairwise_reverse, ← listed]
    exact (List.pairwise_lt_range' 1).filter _
  cases found : positions.reverse.find? (· < seq.length) with
  | none =>
    intro stop again
    obtain ⟨member, before⟩ := (repeats stop).mpr again
    have misses := List.find?_eq_none.mp found stop (List.mem_reverse.mpr member)
    exact misses (decide_eq_true before)
  | some matchEnd =>
    have member := List.mem_reverse.mp (List.mem_of_find?_eq_some found)
    have before : matchEnd < seq.length := by simpa using List.find?_some found
    refine ⟨(repeats matchEnd).mp ⟨member, before⟩, fun stop later again => ?_, rfl⟩
    obtain ⟨member', before'⟩ := (repeats stop).mpr again
    have passed := find?_greatest descending found stop (List.mem_reverse.mpr member') later
    simp [before'] at passed

theorem Indexes.findMatch (indexes : p.Indexes minMatch text) (positive : 0 < minMatch)
    (looks : minMatch < seq.length) (continues : text <+: seq ∨ seq <+: text)
    (known : text = [] ∨ minMatch < text.length) :
    IsNearest seq minMatch (p.findMatch seq minMatch).1 ∧
      ∃ text', (p.findMatch seq minMatch).2.Indexes minMatch text' ∧
        minMatch < text'.length ∧ (text' = seq ∨ text' = text) := by
  obtain ⟨text', indexes', shorter, longer, source⟩ :=
    indexes.update positive looks continues known
  simp only [PromptLookupStrategy.findMatch]
  rw [if_neg (by omega)]
  exact ⟨indexes'.nearest positive shorter, text', indexes', longer, source⟩

theorem findMatch_short (p : PromptLookupStrategy) (short : seq.length ≤ minMatch) :
    p.findMatch seq minMatch = (none, p) ∧ IsNearest seq minMatch none := by
  constructor
  · rw [PromptLookupStrategy.findMatch, if_pos (by omega)]
  · rintro stop ⟨inside, before, _⟩
    omega

theorem answers_nearest (calls : List (List Token × Nat)) (steady : Steady minMatch calls)
    (indexes : p.Indexes minMatch text) (known : text = [] ∨ minMatch < text.length)
    (continues : ∀ call ∈ calls, Looks call → text <+: call.1 ∨ call.1 <+: text) :
    List.Forall₂ (fun call answer => IsNearest call.1 call.2 answer) calls (answers calls p) := by
  induction calls generalizing p text with
  | nil => exact .nil
  | cons call rest ih =>
    obtain ⟨seq, size⟩ := call
    obtain ⟨related, grows⟩ := List.pairwise_cons.mp steady.grows
    have steady' : Steady minMatch rest :=
      ⟨steady.positive, fun call member => steady.size call (.tail _ member), grows⟩
    by_cases looks : Looks (seq, size)
    · obtain rfl : size = minMatch := steady.size _ (.head _) looks
      obtain ⟨nearest, text', indexes', longer, source⟩ :=
        indexes.findMatch steady.positive looks (continues _ (.head _) looks) known
      refine .cons nearest (ih steady' indexes' (.inr longer) fun call member looks' => ?_)
      -- the text indexed is the one asked about, or the one before
      rcases source with rfl | rfl
      · exact related call member looks looks'
      · exact continues call (.tail _ member) looks'
    · obtain ⟨returns, nearest⟩ := findMatch_short p (not_lt.mp looks)
      refine .cons ?_ ?_
      · rw [returns]
        exact nearest
      · rw [returns]
        exact ih steady' indexes known fun call member => continues call (.tail _ member)

/-- **The index is the backward scan.** In a run in which all texts are beginnings of one another and
all n-grams have one size, each call returns the nearest repeat in its text, or nothing if there is
none. -/
theorem findMatch_nearest (calls : List (List Token × Nat)) (steady : Steady minMatch calls) :
    List.Forall₂ (fun call answer => IsNearest call.1 call.2 answer) calls (answers calls create) :=
  answers_nearest calls steady (indexes_create steady.positive) (.inl rfl)
    fun _ _ _ => .inl List.nil_prefix

/-- A text that grows by two tokens, and is looked up after each of them. -/
theorem findMatch_nearest_growing : answers [([7, 8, 7], 1), ([7, 8, 7, 8], 1)] create =
      [some (1, 2), some (2, 2)] ∧ List.Forall₂ (fun call answer => IsNearest call.1 call.2 answer)
      [([7, 8, 7], 1), ([7, 8, 7, 8], 1)] [some (1, 2), some (2, 2)] := by
  have run := findMatch_nearest [([7, 8, 7], 1), ([7, 8, 7, 8], 1)]
    ⟨Nat.one_pos, by decide, by decide⟩
  exact ⟨by decide, run⟩

/-- After a request with six equal tokens, one that ends with four of them: the position returned is
one of the first text. -/
theorem findMatch_other_request :
    answers [([9, 9, 9, 9, 9, 9], 4), ([1, 2, 9, 9, 9, 9], 4)] create = [some (5, 1), some (5, 1)] ∧
      ¬ IsNearest [1, 2, 9, 9, 9, 9] 4 (some (5, 1)) := by
  constructor
  · decide
  · rintro ⟨⟨_, _, same⟩, _⟩
    revert same
    decide

end DistLLM.Speculative.PromptLookupStrategy
