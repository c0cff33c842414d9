import Mathlib.Data.Nat.Bitwise
import Mathlib.Data.Nat.Log
import Mathlib.Data.Set.Function

/-!
# Merkle trees

The tree over a list of texts, the proofs that it hands out, and the comparison of two trees.
Texts are ASCII: on others `encode` raises `UnicodeEncodeError`. Of the hash only the length of what
it returns is used; where no two texts may collide, these are the texts hashed in the calls at hand.
-/
namespace DistLLM.Merkle

abbrev Text := List Char

structure Hash where
  hexLen : Nat
  hexdigest : Text → Text
  length_hexdigest : ∀ text, (hexdigest text).length = hexLen

namespace Hash

variable (h : Hash)

def emptyHash : Text := List.replicate h.hexLen '0'

def hashPair (left right : Text) : Text := h.hexdigest (left ++ right)

/-- A leaf that has not the length of a digest is hashed. -/
def normalize (leaf : Text) : Text :=
  if leaf.length = h.hexLen then leaf else h.hashPair leaf []

end Hash

structure MerkleTree where
  leaves : List Text
  levels : List (List Text)

/-- `while n < len: n <<= 1`, at most `fuel` times. -/
def doubled (len : Nat) : Nat → Nat → Nat
  | 0, n => n
  | fuel + 1, n => if n < len then doubled len fuel (n <<< 1) else n

variable (h : Hash)

/-- The digests of the level above, two by two. -/
def pairUp : List Text → List Text
  | left :: right :: rest => h.hashPair left right :: pairUp rest
  | _ => []

/-- A level and those above it, up to one with a single digest. -/
def levelsFrom : Nat → List Text → List (List Text)
  | 0, level => [level]
  | fuel + 1, level =>
    level :: if 1 < level.length then levelsFrom fuel (pairUp h level) else []

namespace MerkleTree

/-- `_rebuild`. The loops need no more passes than there are leaves. -/
def rebuild (leaves : List Text) : List (List Text) :=
  if leaves.isEmpty then []
  else
    let n := doubled leaves.length leaves.length 1
    levelsFrom h leaves.length
      (leaves.map h.normalize ++ List.replicate (n - leaves.length) h.emptyHash)

def create (leaves : List Text) : MerkleTree := ⟨leaves, rebuild h leaves⟩

variable (t : MerkleTree)

def root : Text :=
  match t.levels.getLast? with
  | some (top :: _) => top
  | _ => h.emptyHash

def proofFrom : List (List Text) → Nat → List Text
  | [], _ => []
  | level :: rest, index => level[index ^^^ 1]?.toList ++ proofFrom rest (index / 2)

def getProof (index : Nat) : List Text := proofFrom t.levels.dropLast index

def nodeHash (level offset : Nat) : Option Text := t.levels[level]?.bind fun row => row[offset]?

/-- `_diff_range`: the loop over the stack, whose first item is its top. An item is a level, a
place there and the number of leaves below it. -/
def diffLoop (t other : MerkleTree) : Nat → List (Nat × Nat × Nat) → List Nat → List Nat
  | 0, _, results => results
  | _, [], results => results
  | fuel + 1, (lv, off, sp) :: stack, results =>
    let mine := t.nodeHash lv off
    let others := other.nodeHash lv off
    if mine = others then diffLoop t other fuel stack results
    else if mine.isNone || others.isNone then
      let leafOffset := off * 2 ^ (t.levels.length - 1 - lv)
      let found := ((List.range sp).map (leafOffset + ·)).filter fun idx =>
        decide (idx < t.leaves.length) || decide (idx < other.leaves.length)
      diffLoop t other fuel stack (results ++ found)
    else
      match lv with
      | 0 =>
        diffLoop t other fuel stack (if off < t.leaves.length then results ++ [off] else results)
      | lv + 1 =>
        let half := sp / 2
        diffLoop t other fuel ((lv, off * 2, half) :: (lv, off * 2 + 1, half) :: stack) results

/-- A subtree has less than twice as many nodes as leaves, and so many passes it takes at most. -/
def diff (other : MerkleTree) : List Nat :=
  if t.root h = other.root h then []
  else
    match t.levels with
    | [] => List.range (max t.leaves.length other.leaves.length)
    | bottom :: _ =>
      if other.levels.isEmpty then List.range (max t.leaves.length other.leaves.length)
      else diffLoop t other (2 * bottom.length) [(t.levels.length - 1, 0, bottom.length)] []

end MerkleTree

open MerkleTree

/-- The loop of `verify_proof`, from a digest up to the root. -/
def climb (current : Text) (idx : Nat) : List Text → Text
  | [] => current
  | sibling :: proof =>
    climb (if idx % 2 = 0 then h.hashPair current sibling else h.hashPair sibling current)
      (idx / 2) proof

def verifyProof (leafHash : Text) (proof : List Text) (root : Text) (leafIndex : Nat) : Bool :=
  decide (climb h (h.normalize leafHash) leafIndex proof = root)

/-! ### The nodes by level and place -/

variable {h : Hash} {leaves : List Text}

/-- The digest at a place of a level: a leaf's or the empty one, or that of the two below. -/
def node (h : Hash) (leaves : List Text) : Nat → Nat → Text
  | 0, i => ((leaves.map h.normalize)[i]?).getD h.emptyHash
  | k + 1, i => h.hashPair (node h leaves k (2 * i)) (node h leaves k (2 * i + 1))

theorem length_normalize (h : Hash) (leaf : Text) : (h.normalize leaf).length = h.hexLen := by
  unfold Hash.normalize
  split
  next same => exact same
  next => exact h.length_hexdigest _

theorem length_node (h : Hash) (leaves : List Text) (k i : Nat) :
    (node h leaves k i).length = h.hexLen := by
  cases k with
  | zero =>
    rw [node, List.getElem?_map]
    cases leaves[i]? with
    | none => exact List.length_replicate
    | some leaf => exact length_normalize h leaf
  | succ k => exact h.length_hexdigest _

theorem doubled_eq (len fuel k : Nat) (low : k ≤ Nat.clog 2 len) (enough : len ≤ 2 ^ (k + fuel)) :
    doubled len fuel (2 ^ k) = 2 ^ Nat.clog 2 len := by
  induction fuel generalizing k with
  | zero => rw [doubled, low.antisymm (Nat.clog_le_of_le_pow enough)]
  | succ fuel ih =>
    rw [doubled]
    split
    next less =>
      rw [Nat.shiftLeft_eq, ← Nat.pow_add]
      exact ih _ ((Nat.lt_clog_iff_pow_lt Nat.one_lt_two).mpr less) (by rwa [Nat.add_right_comm])
    next done => rw [low.antisymm (Nat.clog_le_of_le_pow (not_lt.mp done))]

/-- The nodes of a level, `k` above the leaves. -/
def row (h : Hash) (leaves : List Text) (k width : Nat) : List Text :=
  (List.range width).map (node h leaves k)

@[simp] theorem length_row (k width : Nat) : (row h leaves k width).length = width := by
  rw [row, List.length_map, List.length_range]

theorem getElem?_row (k width i : Nat) :
    (row h leaves k width)[i]? = if i < width then some (node h leaves k i) else none := by
  rw [row, List.getElem?_map]
  split
  next inside => rw [List.getElem?_range inside, Option.map_some]
  next outside => rw [List.getElem?_eq_none (by simpa using outside), Option.map_none]

theorem pairUp_row (k width : Nat) :
    pairUp h (row h leaves k (2 * width)) = row h leaves (k + 1) width := by
  have pairs (start : Nat) :
      pairUp h ((List.range' (2 * start) (2 * width)).map (node h leaves k)) =
        (List.range' start width).map (node h leaves (k + 1)) := by
    induction width generalizing start with
    | zero => rfl
    | succ width ih =>
      rw [Nat.mul_succ, List.range'_succ, List.range'_succ, List.range'_succ]
      exact congrArg _ (ih (start + 1))
  rw [row, row, List.range_eq_range', List.range_eq_range']
  exact pairs 0

theorem levelsFrom_row (k m fuel : Nat) (enough : m ≤ fuel) :
    levelsFrom h fuel (row h leaves k (2 ^ m)) =
      (List.range (m + 1)).map fun j => row h leaves (k + j) (2 ^ (m - j)) := by
  induction m generalizing k fuel with
  | zero => cases fuel <;> simp [levelsFrom]
  | succ m ih =>
    cases fuel with
    | zero => omega
    | succ fuel =>
      rw [levelsFrom, length_row, if_pos (Nat.one_lt_two_pow m.succ_ne_zero), Nat.pow_succ',
        pairUp_row, ih _ _ (Nat.le_of_succ_le_succ enough), List.range_succ_eq_map (n := m + 1)]
      simp [Nat.pow_succ', Nat.add_right_comm, Nat.add_assoc]

/-- The number of levels above the leaves. -/
def height (leaves : List Text) : Nat := Nat.clog 2 leaves.length

theorem length_le_width (leaves : List Text) : leaves.length ≤ 2 ^ height leaves :=
  Nat.le_pow_clog Nat.one_lt_two _

theorem rebuild_eq (some_ : leaves ≠ []) : rebuild h leaves =
    (List.range (height leaves + 1)).map fun k => row h leaves k (2 ^ (height leaves - k)) := by
  have enough : leaves.length ≤ 2 ^ leaves.length := Nat.lt_two_pow_self.le
  have width : doubled leaves.length leaves.length 1 = 2 ^ height leaves :=
    doubled_eq _ _ 0 (Nat.zero_le _) (by rwa [Nat.zero_add])
  have bottom : leaves.map h.normalize ++
      List.replicate (2 ^ height leaves - leaves.length) h.emptyHash =
        row h leaves 0 (2 ^ height leaves) := by
    have fits := length_le_width leaves
    apply List.ext_getElem?
    intro i
    rw [getElem?_row, node, List.getElem?_append]
    simp only [List.length_map, List.getElem?_replicate]
    by_cases inside : i < leaves.length
    · simp [inside, inside.trans_le fits]
    · have behind : i - leaves.length < 2 ^ height leaves - leaves.length ↔
          i < 2 ^ height leaves := by
        omega
      simp [inside, behind]
  rw [rebuild, if_neg (by simpa using some_)]
  simp only [width, bottom]
  have passes : height leaves ≤ leaves.length := Nat.clog_le_of_le_pow enough
  rw [levelsFrom_row 0 _ _ passes]
  simp

theorem root_eq (some_ : leaves ≠ []) :
    (create h leaves).root h = node h leaves (height leaves) 0 := by
  have last : (create h leaves).levels.getLast? =
      some (row h leaves (height leaves) 1) := by
    rw [create, rebuild_eq some_, List.range_succ, List.map_append, List.getLast?_append]
    simp
  rw [root, last]
  rfl

theorem levels_length (some_ : leaves ≠ []) :
    (create h leaves).levels.length = height leaves + 1 := by
  rw [create, rebuild_eq some_, List.length_map, List.length_range]

/-- What hashing brings from a node and its sibling to the node above. -/
theorem climb_node (k i : Nat) :
    (if i % 2 = 0 then h.hashPair (node h leaves k i) (node h leaves k (i ^^^ 1))
      else h.hashPair (node h leaves k (i ^^^ 1)) (node h leaves k i)) =
      node h leaves (k + 1) (i / 2) := by
  rw [node]
  split
  next even =>
    rw [Nat.xor_one_of_even (Nat.even_iff.mpr even), show 2 * (i / 2) = i by omega]
  next odd =>
    rw [Nat.xor_one_of_odd (Nat.odd_iff.mpr (by omega)), show 2 * (i / 2) = i - 1 by omega,
      show i - 1 + 1 = i by omega]

theorem climb_proofFrom (k m i : Nat) (inside : i < 2 ^ m) :
    climb h (node h leaves k i) i (proofFrom
      ((List.range m).map fun j => row h leaves (k + j) (2 ^ (m - j))) i) =
      node h leaves (k + m) 0 := by
  induction m generalizing k i with
  | zero =>
    obtain rfl : i = 0 := by
      simpa using inside
    rfl
  | succ m ih =>
    have half : i / 2 < 2 ^ m := by
      rw [Nat.pow_succ] at inside
      omega
    have sibling : i ^^^ 1 < 2 ^ (m + 1) :=
      Nat.xor_lt_two_pow inside (Nat.one_lt_two_pow m.succ_ne_zero)
    have above := ih (k + 1) (i / 2) half
    rw [List.range_succ_eq_map, List.map_cons, proofFrom, Nat.sub_zero, getElem?_row,
      if_pos sibling]
    rw [Option.toList_some, List.singleton_append, climb, Nat.add_zero, climb_node]
    simpa [Nat.add_right_comm, Nat.add_assoc, Function.comp_def, Nat.add_comm 1] using above

/-- Hashing from a leaf up with the proof that the tree hands out ends at the root. -/
theorem climb_getProof {leaf : Text} {i : Nat} (there : leaves[i]? = some leaf) :
    climb h (h.normalize leaf) i ((create h leaves).getProof i) = (create h leaves).root h := by
  have some_ : leaves ≠ [] := by
    rintro rfl
    cases there
  have inside : i < leaves.length := (List.getElem?_eq_some_iff.mp there).1
  have bottom : h.normalize leaf = node h leaves 0 i := by
    rw [node, List.getElem?_map, there]
    rfl
  have climbs := @climb_proofFrom h leaves 0 (height leaves) i
    (inside.trans_le (length_le_width leaves))
  rw [root_eq some_, bottom, getProof, create, rebuild_eq some_, List.range_succ, List.map_append,
    List.map_singleton, List.dropLast_concat]
  simpa using climbs

/-- **Completeness.** Every leaf has a proof that is accepted: the one that the tree hands out. -/
theorem proof_accepted (h : Hash) {leaf : Text} {i : Nat} (there : leaves[i]? = some leaf) :
    verifyProof h leaf ((create h leaves).getProof i)
      ((create h leaves).root h) i = true := by
  rw [verifyProof, decide_eq_true_eq]
  exact climb_getProof there

/-- A hash with digests of one character. -/
def letters : Hash where
  hexLen := 1
  hexdigest text :=
    if text = ['a', 'b'] then ['c']
    else if text.length = 1 then text.map Char.toUpper else ['d']
  length_hexdigest text := by
    split
    · rfl
    · split
      next one => rw [List.length_map, one]
      next => rfl

/-- The second of two leaves. -/
theorem proof_accepted_second :
    verifyProof letters ['b'] ((create letters [['a'], ['b']]).getProof 1)
      ((create letters [['a'], ['b']]).root letters) 1 = true :=
  @proof_accepted [['a'], ['b']] letters ['b'] 1 rfl

/-- The texts that are hashed for the levels above the leaves. -/
def hashed (h : Hash) (leaves : List Text) : Set Text :=
  {text | ∃ k i, k < height leaves ∧ i < 2 ^ (height leaves - (k + 1)) ∧
    text = node h leaves k (2 * i) ++ node h leaves k (2 * i + 1)}

/-- The texts that are hashed on the way up from a digest. -/
def climbed (h : Hash) (current : Text) (idx : Nat) : List Text → List Text
  | [] => []
  | sibling :: proof =>
    let text := if idx % 2 = 0 then current ++ sibling else sibling ++ current
    text :: climbed h (h.hexdigest text) (idx / 2) proof

def Hash.CollisionFree (h : Hash) (texts : Set Text) : Prop := texts.InjOn h.hexdigest

/-- From the root down, hashes that do not collide lead back to the digest that was started with. -/
theorem eq_node_of_climb {proof : List Text} {k idx : Nat} {current : Text}
    (length : current.length = h.hexLen) (levels : k + proof.length = height leaves)
    (free : h.CollisionFree (hashed h leaves ∪ {text | text ∈ climbed h current idx proof}))
    (reaches : climb h current idx proof = node h leaves (height leaves) 0) :
    current = node h leaves k (idx % 2 ^ proof.length) := by
  induction proof generalizing k idx current with
  | nil =>
    rw [climb, ← levels] at reaches
    simpa [Nat.mod_one] using reaches
  | cons sibling proof ih =>
    rw [List.length_cons] at levels ⊢
    let text := if idx % 2 = 0 then current ++ sibling else sibling ++ current
    have step : climb h (h.hexdigest text) (idx / 2) proof = node h leaves (height leaves) 0 := by
      rw [← reaches, climb]
      simp only [text, Hash.hashPair, apply_ite h.hexdigest]
    have above := @ih (k + 1) _ _ (h.length_hexdigest text) (by omega)
      (free.mono (Set.union_subset_union_right _ fun _ => List.mem_cons_of_mem _)) step
    have place : idx % 2 ^ (proof.length + 1) = idx % 2 + 2 * (idx / 2 % 2 ^ proof.length) := by
      rw [Nat.pow_succ', Nat.mod_mul]
    have below : idx / 2 % 2 ^ proof.length < 2 ^ (height leaves - (k + 1)) := by
      rw [← levels, show k + (proof.length + 1) - (k + 1) = proof.length by omega]
      exact Nat.mod_lt _ (Nat.two_pow_pos _)
    generalize idx / 2 % 2 ^ proof.length = j at *
    rw [node] at above
    have same : text = node h leaves k (2 * j) ++ node h leaves k (2 * j + 1) :=
      free (.inr List.mem_cons_self) (.inl ⟨k, j, by omega, below, rfl⟩) above
    rw [place]
    by_cases even : idx % 2 = 0
    · simp only [text, if_pos even] at same
      rw [even, Nat.zero_add]
      exact (List.append_inj same (by rw [length, length_node])).1
    · simp only [text, if_neg even] at same
      rw [Nat.mod_two_ne_zero.mp even, Nat.add_comm]
      exact (List.append_inj' same (by rw [length, length_node])).2

theorem nodeHash_create (some_ : leaves ≠ []) (k i : Nat) :
    (create h leaves).nodeHash k i =
      if k ≤ height leaves ∧ i < 2 ^ (height leaves - k) then some (node h leaves k i)
      else none := by
  rw [nodeHash, create, rebuild_eq some_, List.getElem?_map]
  by_cases inside : k ≤ height leaves
  · rw [List.getElem?_range (by omega), Option.map_some, Option.bind_some, getElem?_row]
    simp [inside]
  · have above : (List.range (height leaves + 1)).length ≤ k := by
      rw [List.length_range]
      omega
    rw [List.getElem?_eq_none above, Option.map_none, Option.bind_none,
      if_neg fun both => inside both.1]

/-- What an accepted proof of at most the tree's height says of the value's digest. -/
theorem eq_node_of_accepted {value : Text} {proof : List Text} {idx : Nat} (some_ : leaves ≠ [])
    (short : proof.length ≤ height leaves)
    (free : h.CollisionFree
      (hashed h leaves ∪ {text | text ∈ climbed h (h.normalize value) idx proof}))
    (accepted : verifyProof h value proof ((create h leaves).root h) idx = true) :
    h.normalize value =
      node h leaves (height leaves - proof.length) (idx % 2 ^ proof.length) := by
  rw [verifyProof, decide_eq_true_eq, root_eq some_] at accepted
  exact eq_node_of_climb (length_normalize h value) (Nat.sub_add_cancel short) free accepted

theorem leaves_ne_nil {n : Nat} (levels : n < (create h leaves).levels.length) : leaves ≠ [] := by
  rintro rfl
  exact Nat.not_lt_zero _ levels

/-- **Soundness.** Where the texts that are hashed do not collide, a proof with no more siblings
than there are levels above the leaves is accepted for the digests of the tree only: for a value
whose digest is the node that many levels below the root, at the place that the index gives. -/
theorem accepted_is_node {value : Text} {proof : List Text} {idx : Nat}
    (short : proof.length < (create h leaves).levels.length)
    (free : h.CollisionFree
      (hashed h leaves ∪ {text | text ∈ climbed h (h.normalize value) idx proof}))
    (accepted : verifyProof h value proof ((create h leaves).root h) idx = true) :
    (create h leaves).nodeHash
      ((create h leaves).levels.length - 1 - proof.length) (idx % 2 ^ proof.length) =
        some (h.normalize value) := by
  have some_ := leaves_ne_nil short
  rw [levels_length some_] at short ⊢
  have low : proof.length ≤ height leaves := Nat.le_of_lt_succ short
  have inside : idx % 2 ^ proof.length < 2 ^ proof.length := Nat.mod_lt _ (Nat.two_pow_pos _)
  rw [Nat.add_sub_cancel, nodeHash_create some_, if_pos, eq_node_of_accepted some_ low free accepted]
  refine ⟨Nat.sub_le _ _, ?_⟩
  rwa [Nat.sub_sub_self low]

theorem hashed_pair {h : Hash} {leaf leaf' text : Text}
    (member : text ∈ hashed h [leaf, leaf']) : text = h.normalize leaf ++ h.normalize leaf' := by
  obtain ⟨k, i, low, inside, rfl⟩ := member
  obtain rfl : k = 0 := Nat.lt_one_iff.mp low
  obtain rfl : i = 0 := Nat.lt_one_iff.mp inside
  rfl

theorem not_mem_hashed_single {leaf text : Text} : text ∉ hashed h [leaf] := by
  rintro ⟨k, i, low, -⟩
  exact Nat.not_lt_zero k low

theorem collisionFree_of_mem {texts : Set Text} (listed : List Text)
    (all : ∀ text ∈ texts, text ∈ listed)
    (apart : ∀ text ∈ listed, ∀ text' ∈ listed,
      h.hexdigest text = h.hexdigest text' → text = text') : h.CollisionFree texts :=
  fun text member text' member' => apart text (all text member) text' (all text' member')

/-- The first of two leaves is accepted with the second one as its proof. -/
theorem accepted_is_node_letters :
    verifyProof letters ['a'] [['b']] ((create letters [['a'], ['b']]).root letters) 0 =
      true ∧ (create letters [['a'], ['b']]).nodeHash 0 0 = some ['a'] := by
  have accepted : verifyProof letters ['a'] [['b']]
      ((create letters [['a'], ['b']]).root letters) 0 = true := by
    decide
  refine ⟨accepted, accepted_is_node (by decide) ?_ accepted⟩
  apply collisionFree_of_mem [['a', 'b']] _ (by decide)
  rintro text (inside | member)
  · exact List.mem_singleton.mpr (hashed_pair inside)
  · exact member

/-- A value with a leaf's digest is that leaf, or one of the two is the digest of the other. -/
theorem eq_of_normalize_eq {value leaf : Text} (free : h.CollisionFree {value, leaf})
    (same : h.normalize value = h.normalize leaf) :
    value = leaf ∨ value = h.hexdigest leaf ∨ leaf = h.hexdigest value := by
  simp only [Hash.normalize, Hash.hashPair, List.append_nil] at same
  split at same <;> split at same
  next => exact .inl same
  next => exact .inr (.inl same)
  next => exact .inr (.inr same.symm)
  next => exact .inl (free (.inl rfl) (.inr rfl) same)

variable {leaves' : List Text}

theorem two_pow_sub {k n : Nat} (low : k + 1 ≤ n) : 2 ^ (n - k) = 2 * 2 ^ (n - (k + 1)) := by
  rw [← Nat.pow_succ', Nat.succ_eq_add_one, show n - (k + 1) + 1 = n - k by omega]

/-- Equal digests at a node of two trees have equal leaves below them. -/
theorem node_congr (free : h.CollisionFree (hashed h leaves ∪ hashed h leaves'))
    {k i : Nat} (low : k ≤ height leaves) (low' : k ≤ height leaves')
    (inside : i < 2 ^ (height leaves - k)) (inside' : i < 2 ^ (height leaves' - k))
    (same : node h leaves k i = node h leaves' k i) {j : Nat} (below : j / 2 ^ k = i) :
    node h leaves 0 j = node h leaves' 0 j := by
  induction k generalizing i with
  | zero =>
    rw [Nat.pow_zero, Nat.div_one] at below
    rw [below, same]
  | succ k ih =>
    rw [node, node] at same
    have texts := free (.inl ⟨k, i, low, inside, rfl⟩) (.inr ⟨k, i, low', inside', rfl⟩) same
    obtain ⟨left, right⟩ := List.append_inj texts (by rw [length_node, length_node])
    have wide := two_pow_sub low
    have wide' := two_pow_sub low'
    have half : j / 2 ^ k / 2 = i := by
      rw [Nat.div_div_eq_div_mul, ← Nat.pow_succ, below]
    rcases Nat.mod_two_eq_zero_or_one (j / 2 ^ k) with even | odd
    · exact ih (by omega) (by omega) (by omega) (by omega) left (by omega)
    · exact ih (by omega) (by omega) (by omega) (by omega) right (by omega)

/-- An item of the stack whose node is in both trees. -/
structure InBoth (leaves leaves' : List Text) (item : Nat × Nat × Nat) : Prop where
  low : item.1 ≤ height leaves
  low' : item.1 ≤ height leaves'
  inside : item.2.1 < 2 ^ (height leaves - item.1)
  inside' : item.2.1 < 2 ^ (height leaves' - item.1)

/-- The passes that the items of a stack take at most. -/
def passes (stack : List (Nat × Nat × Nat)) : Nat :=
  (stack.map fun item => 2 ^ (item.1 + 1) - 1).sum

/-- The loop finds the leaves below the items whose digests differ, among those of the first
tree. -/
theorem mem_diffLoop_iff (some_ : leaves ≠ []) (some' : leaves' ≠ [])
    (free : h.CollisionFree (hashed h leaves ∪ hashed h leaves')) (i : Nat) {fuel : Nat}
    {stack : List (Nat × Nat × Nat)} {results : List Nat} (enough : passes stack ≤ fuel)
    (items : ∀ item ∈ stack, InBoth leaves leaves' item) :
    i ∈ (create h leaves).diffLoop (create h leaves') fuel stack results ↔
      i ∈ results ∨ (∃ item ∈ stack, i / 2 ^ item.1 = item.2.1) ∧ i < leaves.length ∧
        node h leaves 0 i ≠ node h leaves' 0 i := by
  induction fuel generalizing stack results with
  | zero =>
    cases stack with
    | nil => simp [diffLoop]
    | cons item stack =>
      have one : 1 < 2 ^ (item.1 + 1) := Nat.one_lt_two_pow item.1.succ_ne_zero
      simp only [passes, List.map_cons, List.sum_cons] at enough
      omega
  | succ fuel ih =>
    cases stack with
    | nil => simp [diffLoop]
    | cons item stack =>
      obtain ⟨lv, off, sp⟩ := item
      obtain ⟨low, low', inside, inside'⟩ := items _ List.mem_cons_self
      have rest : ∀ item ∈ stack, InBoth leaves leaves' item :=
        fun item member => items item (List.mem_cons_of_mem _ member)
      have one : 1 < 2 ^ (lv + 1) := Nat.one_lt_two_pow lv.succ_ne_zero
      simp only [passes, List.map_cons, List.sum_cons] at enough low low' inside inside'
      rw [← passes] at enough
      have mine : (create h leaves).nodeHash lv off = some (node h leaves lv off) := by
        rw [nodeHash_create some_, if_pos ⟨low, inside⟩]
      have others : (create h leaves').nodeHash lv off =
          some (node h leaves' lv off) := by
        rw [nodeHash_create some', if_pos ⟨low', inside'⟩]
      rw [diffLoop.eq_def]
      simp only [mine, others, Option.some.injEq, Option.isNone_some, Bool.or_self,
        Bool.false_eq_true, if_false]
      by_cases same : node h leaves lv off = node h leaves' lv off
      · rw [if_pos same, ih (by omega) rest]
        have nothing : i / 2 ^ lv = off → node h leaves 0 i = node h leaves' 0 i :=
          node_congr free low low' inside inside' same
        simp only [List.mem_cons, exists_eq_or_imp]
        tauto
      · rw [if_neg same]
        cases lv with
        | zero =>
          have apart (there : i = off) : node h leaves 0 i ≠ node h leaves' 0 i :=
            there ▸ same
          simp only [ih (by omega : passes stack ≤ fuel) rest, List.mem_cons, exists_eq_or_imp,
            Nat.pow_zero, Nat.div_one]
          change i ∈ (if off < leaves.length then results ++ [off] else results) ∨ _ ↔ _
          split
          next listed =>
            rw [List.mem_append, List.mem_singleton]
            grind
          next unlisted => grind
        | succ lv =>
          -- both halves go on the stack, the left one on top
          have wide := two_pow_sub low
          have wide' := two_pow_sub low'
          have halves : passes ((lv, off * 2, sp / 2) :: (lv, off * 2 + 1, sp / 2) :: stack) ≤
              fuel := by
            simp only [passes, List.map_cons, List.sum_cons]
            rw [← passes]
            rw [Nat.pow_succ] at enough
            omega
          have half (place : Nat) (here : place / 2 = off) :
              InBoth leaves leaves' (lv, place, sp / 2) := by
            constructor <;> dsimp only <;> omega
          have both := List.forall_mem_cons.mpr ⟨half (off * 2) (by omega),
            List.forall_mem_cons.mpr ⟨half (off * 2 + 1) (by omega), rest⟩⟩
          have below : i / 2 ^ (lv + 1) = off ↔
              i / 2 ^ lv = off * 2 ∨ i / 2 ^ lv = off * 2 + 1 := by
            rw [Nat.pow_succ, ← Nat.div_div_eq_div_mul]
            omega
          simp only
          rw [ih halves both]
          simp only [List.mem_cons, exists_eq_or_imp, below, or_assoc]

theorem diff_eq (some_ : leaves ≠ []) (some' : leaves' ≠ [])
    (apart : (create h leaves).root h ≠ (create h leaves').root h) :
    (create h leaves).diff h (create h leaves') =
      (create h leaves).diffLoop (create h leaves')
        (2 * 2 ^ height leaves) [(height leaves, 0, 2 ^ height leaves)] [] := by
  have levels : (create h leaves).levels = row h leaves 0 (2 ^ height leaves) ::
      (List.range (height leaves)).map fun k =>
        row h leaves (k + 1) (2 ^ (height leaves - (k + 1))) := by
    rw [create, rebuild_eq some_, List.range_succ_eq_map]
    simp
  have others : (create h leaves').levels.isEmpty = false := by
    rw [List.isEmpty_eq_false_iff, ← List.length_pos_iff, levels_length some']
    exact Nat.succ_pos _
  rw [diff, if_neg apart, levels_length some_, levels]
  simp [others]

theorem length_lt_of_height_lt (higher : height leaves' < height leaves) :
    leaves'.length < leaves.length :=
  (length_le_width leaves').trans_lt ((Nat.lt_clog_iff_pow_lt Nat.one_lt_two).mp higher)

/-- A tree that is higher than the other one has no node opposite its root. -/
theorem mem_diff_of_higher (some_ : leaves ≠ []) (some' : leaves' ≠ [])
    (apart : (create h leaves).root h ≠ (create h leaves').root h)
    (higher : height leaves' < height leaves) (i : Nat) :
    i ∈ (create h leaves).diff h (create h leaves') ↔ i < leaves.length := by
  have shorter := length_lt_of_height_lt higher
  have fits := length_le_width leaves
  have mine : (create h leaves).nodeHash (height leaves) 0 =
      some (node h leaves (height leaves) 0) := by
    rw [nodeHash_create some_, if_pos ⟨le_rfl, Nat.two_pow_pos _⟩]
  have others : (create h leaves').nodeHash (height leaves) 0 = none := by
    rw [nodeHash_create some', if_neg fun both => absurd both.1 (not_le.mpr higher)]
  have positive := Nat.two_pow_pos (height leaves)
  obtain ⟨fuel, two⟩ : ∃ fuel, 2 * 2 ^ height leaves = fuel + 1 :=
    Nat.exists_eq_succ_of_ne_zero (by omega)
  have done (results : List Nat) : (create h leaves).diffLoop
      (create h leaves') fuel [] results = results := by
    cases fuel <;> rfl
  rw [diff_eq some_ some' apart, two, diffLoop.eq_def]
  simp only [mine, others, Option.isNone_none, Bool.or_true, if_true, reduceCtorEq, if_false, done]
  change i ∈ [] ++ ((List.range (2 ^ height leaves)).map (0 * _ + ·)).filter (fun idx =>
    decide (idx < leaves.length) || decide (idx < leaves'.length)) ↔ _
  simp
  omega

/-- Of trees of which the first is not the higher one, the leaves with other digests are found. -/
theorem mem_diff_of_not_higher (some_ : leaves ≠ []) (some' : leaves' ≠ [])
    (free : h.CollisionFree (hashed h leaves ∪ hashed h leaves'))
    (apart : (create h leaves).root h ≠ (create h leaves').root h)
    (level : height leaves ≤ height leaves') (i : Nat) :
    i ∈ (create h leaves).diff h (create h leaves') ↔
      i < leaves.length ∧ node h leaves 0 i ≠ node h leaves' 0 i := by
  have enough : passes [(height leaves, 0, 2 ^ height leaves)] ≤ 2 * 2 ^ height leaves := by
    simp only [passes, List.map_cons, List.map_nil, List.sum_cons, List.sum_nil, Nat.pow_succ]
    omega
  have item : InBoth leaves leaves' (height leaves, 0, 2 ^ height leaves) :=
    ⟨le_rfl, level, Nat.two_pow_pos _, Nat.two_pow_pos _⟩
  have below : i < leaves.length → i / 2 ^ height leaves = 0 :=
    fun inside => Nat.div_eq_of_lt (inside.trans_le (length_le_width leaves))
  rw [diff_eq some_ some' apart,
    mem_diffLoop_iff some_ some' free i enough (List.forall_mem_singleton.mpr item)]
  simp only [List.not_mem_nil, false_or, List.mem_singleton, exists_eq_left]
  tauto

/-- **Comparison.** Where the texts that are hashed do not collide, the comparison of two trees
with leaves finds nothing if they have one root, else all leaves of the first tree if that is
higher, and otherwise those of its leaves whose digests the second one does not have there. -/
theorem mem_diff_iff (some_ : leaves ≠ []) (some' : leaves' ≠ [])
    (free : h.CollisionFree (hashed h leaves ∪ hashed h leaves')) (i : Nat) :
    i ∈ (create h leaves).diff h (create h leaves') ↔
      (create h leaves).root h ≠ (create h leaves').root h ∧
        i < leaves.length ∧
          (height leaves' < height leaves ∨ node h leaves 0 i ≠ node h leaves' 0 i) := by
  by_cases apart : (create h leaves).root h = (create h leaves').root h
  · simp [diff, apart]
  · by_cases higher : height leaves' < height leaves
    · simp [mem_diff_of_higher some_ some' apart higher, apart, higher]
    · rw [mem_diff_of_not_higher some_ some' free apart (not_lt.mp higher)]
      simp [apart, higher]

/-- With the second of two leaves moved, that one is found. -/
theorem mem_diff_letters : 1 ∈ (create letters [['a'], ['b']]).diff letters
    (create letters [['a'], ['e']]) := by
  refine (mem_diff_iff (by decide) (by decide) ?_ 1).mpr (by decide)
  apply collisionFree_of_mem [['a', 'b'], ['a', 'e']] _ (by decide)
  rintro text (first | second)
  · exact List.mem_cons.mpr (.inl (hashed_pair first))
  · exact List.mem_cons_of_mem _ (List.mem_singleton.mpr (hashed_pair second))

/-- The leaves at which two lists differ, those that only one of them has included. -/
def Exact (h : Hash) (leaves leaves' : List Text) : Prop :=
  ∀ i, i ∈ (create h leaves).diff h (create h leaves') ↔ leaves[i]? ≠ leaves'[i]?

/-- The pairs of lists that are compared exactly. A list without leaves must have another root than
the other one. Otherwise the second list must not be longer: where its tree is lower, the roots and
all its leaves must differ from those of the first; where both are of one height, equal digests at
a place must come from equal leaves. -/
def Comparable (h : Hash) (leaves leaves' : List Text) : Prop :=
  if leaves = [] ∨ leaves' = [] then
    leaves = leaves' ∨ (create h leaves).root h ≠ (create h leaves').root h
  else
    leaves'.length ≤ leaves.length ∧
      if height leaves' < height leaves then
        (create h leaves).root h ≠ (create h leaves').root h ∧
          ∀ i < leaves'.length, leaves[i]? ≠ leaves'[i]?
      else ∀ i < leaves.length, node h leaves 0 i = node h leaves' 0 i → leaves[i]? = leaves'[i]?

theorem diff_of_same_root (same : (create h leaves).root h = (create h leaves').root h) :
    (create h leaves).diff h (create h leaves') = [] := by
  rw [diff, if_pos same]

/-- With no leaves on one side the leaves of the other are found, unless the roots are equal. -/
theorem exact_iff_of_nil (none_ : leaves = [] ∨ leaves' = []) :
    Exact h leaves leaves' ↔
      leaves = leaves' ∨ (create h leaves).root h ≠ (create h leaves').root h := by
  by_cases same : (create h leaves).root h = (create h leaves').root h
  · simp [Exact, diff_of_same_root same, same, List.ext_getElem?_iff]
  · have all : (create h leaves).diff h (create h leaves') =
        List.range (max leaves.length leaves'.length) := by
      rw [diff, if_neg same]
      rcases none_ with rfl | rfl
      · rfl
      · split
        next => rfl
        next => rfl
    simp only [Exact, all, List.mem_range, same, ne_eq, not_false_eq_true, or_true, iff_true]
    intro i
    rcases none_ with rfl | rfl <;> simp [eq_comm]

theorem lt_of_mem_diff (some_ : leaves ≠ []) (some' : leaves' ≠ [])
    (free : h.CollisionFree (hashed h leaves ∪ hashed h leaves')) {i : Nat}
    (found : i ∈ (create h leaves).diff h (create h leaves')) : i < leaves.length := by
  by_cases apart : (create h leaves).root h = (create h leaves').root h
  · rw [diff_of_same_root apart] at found
    cases found
  · by_cases higher : height leaves' < height leaves
    · exact (mem_diff_of_higher some_ some' apart higher i).mp found
    · exact ((mem_diff_of_not_higher some_ some' free apart (not_lt.mp higher) i).mp found).1

/-- In trees of one height equal roots have equal leaves below them. -/
theorem mem_diff_of_same_height (some_ : leaves ≠ []) (some' : leaves' ≠ [])
    (free : h.CollisionFree (hashed h leaves ∪ hashed h leaves'))
    (level : height leaves = height leaves') (i : Nat) :
    i ∈ (create h leaves).diff h (create h leaves') ↔
      i < leaves.length ∧ node h leaves 0 i ≠ node h leaves' 0 i := by
  by_cases apart : (create h leaves).root h = (create h leaves').root h
  · rw [diff_of_same_root apart]
    rw [root_eq some_, root_eq some', ← level] at apart
    have same (inside : i < leaves.length) : node h leaves 0 i = node h leaves' 0 i :=
      node_congr free le_rfl level.le (Nat.two_pow_pos _) (Nat.two_pow_pos _) apart
        (Nat.div_eq_of_lt (inside.trans_le (length_le_width leaves)))
    simp only [List.not_mem_nil, false_iff, not_and, ne_eq, not_not]
    exact same
  · exact mem_diff_of_not_higher some_ some' free apart level.le i

/-- A higher first tree has all its leaves found, also those that the second one has too. -/
theorem exact_iff_of_higher (some_ : leaves ≠ []) (some' : leaves' ≠ [])
    (higher : height leaves' < height leaves) :
    Exact h leaves leaves' ↔
      (create h leaves).root h ≠ (create h leaves').root h ∧
        ∀ i < leaves'.length, leaves[i]? ≠ leaves'[i]? := by
  have shorter := length_lt_of_height_lt higher
  have behind : leaves[leaves'.length]? ≠ leaves'[leaves'.length]? := by
    simp [shorter]
  by_cases apart : (create h leaves).root h = (create h leaves').root h
  · simp only [Exact, diff_of_same_root apart, apart, List.not_mem_nil, false_iff, ne_eq,
      not_true_eq_false, false_and, iff_false]
    exact fun equal => equal _ behind
  · simp only [Exact, mem_diff_of_higher some_ some' apart higher, apart, ne_eq,
      not_false_eq_true, true_and]
    constructor
    · exact fun exact_ i inside => (exact_ i).mp (inside.trans shorter)
    · intro differ i
      by_cases both : i < leaves'.length
      · exact iff_of_true (both.trans shorter) (differ i both)
      · rw [List.getElem?_eq_none (not_lt.mp both), List.getElem?_eq_none_iff, not_le]

theorem node_zero_congr {i : Nat} (same : leaves[i]? = leaves'[i]?) :
    node h leaves 0 i = node h leaves' 0 i := by
  rw [node, node, List.getElem?_map, List.getElem?_map, same]

/-- **Exactness.** Where the texts that are hashed do not collide, these are the pairs. -/
theorem exact_iff (free : h.CollisionFree (hashed h leaves ∪ hashed h leaves')) :
    Exact h leaves leaves' ↔ Comparable h leaves leaves' := by
  unfold Comparable
  split
  next none_ => exact exact_iff_of_nil none_
  next both =>
    obtain ⟨some_, some'⟩ := not_or.mp both
    by_cases longer : leaves.length < leaves'.length
    · refine iff_of_false (fun exact_ => ?_) fun comparable => not_le.mpr longer comparable.1
      -- the place behind the last leaf of the first list is never found
      have found := (exact_ leaves.length).mpr (by simp [longer])
      exact lt_irrefl _ (lt_of_mem_diff some_ some' free found)
    · have short := not_lt.mp longer
      simp only [short, true_and]
      split
      next higher => exact exact_iff_of_higher some_ some' higher
      next level =>
        have same : height leaves = height leaves' :=
          (not_lt.mp level).antisymm (Nat.clog_mono_right 2 short)
        simp only [Exact, mem_diff_of_same_height some_ some' free same]
        constructor
        · exact fun exact_ i inside equal => by_contra fun differ => ((exact_ i).mpr differ).2 equal
        · intro equal i
          refine ⟨fun found same => found.2 (node_zero_congr same), fun differ => ?_⟩
          have inside : i < leaves.length := by
            by_contra outside
            rw [List.getElem?_eq_none (by omega), List.getElem?_eq_none (by omega)] at differ
            exact differ rfl
          exact ⟨inside, fun node => differ (equal i inside node)⟩

/-- Two lists of two leaves, and one of them against its first leaf. -/
theorem exact_iff_letters : Exact letters [['a'], ['b']] [['a'], ['e']] ∧
    ¬ Exact letters [['a'], ['b']] [['a']] := by
  constructor
  · refine (exact_iff ?_).mpr (by simp only [Comparable]; decide)
    apply collisionFree_of_mem [['a', 'b'], ['a', 'e']] _ (by decide)
    rintro text (first | second)
    · exact List.mem_cons.mpr (.inl (hashed_pair first))
    · exact List.mem_cons_of_mem _ (List.mem_singleton.mpr (hashed_pair second))
  · refine mt (exact_iff ?_).mp (by simp only [Comparable]; decide)
    apply collisionFree_of_mem [['a', 'b']] _ (by decide)
    rintro text (first | second)
    · exact List.mem_singleton.mpr (hashed_pair first)
    · exact absurd second not_mem_hashed_single

/-- A leaf that only the second list has is not found. -/
theorem added_leaf_not_found : ¬ ∀ (h : Hash) (leaves leaves' : List Text),
    h.CollisionFree (hashed h leaves ∪ hashed h leaves') → Exact h leaves leaves' := by
  intro exact_
  have found := (exact_ letters [['a']] [['a'], ['b']] ?_ 1).mpr (by decide)
  · revert found
    decide
  · apply collisionFree_of_mem [['a', 'b']] _ (by decide)
    rintro text (first | second)
    · exact absurd first not_mem_hashed_single
    · exact List.mem_singleton.mpr (hashed_pair second)

end DistLLM.Merkle
