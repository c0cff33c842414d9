import DistLLM.Speculative.Acceptance
import DistLLM.Speculative.Tree
import Mathlib.Algebra.Group.PUnit
import Mathlib.Data.List.Dedup

/-!
# Verification of a draft tree

`DraftTree` at temperature zero: the tree it drafts after a prefix, and the best path it finds in
the tree from the target's logits. Its root is a placeholder that the verification takes for a
draft, so that each drafted token is checked against the row after its own.
-/
namespace DistLLM.Speculative

open Library

variable {R L : Type} [LinearOrder R]

structure NodeData (L : Type) where
  logprob : L
  depth : Nat

abbrev TreeNode (L : Type) := DraftNode (NodeData L)

/-- A drafter of trees. `draft` gives the logits after a context, nothing where the call raises;
`topk` the tokens with the largest of them, and `logSoftmax` the log-probability of a token. -/
structure DraftTree (R L : Type) where
  draft : List Token → Option (List R)
  topk : List R → Int → Option (List Token)
  logSoftmax : List R → Token → L
  branching : Int
  depth : Int

namespace DraftTree

def expandNode (d : DraftTree R L) : Nat → Nat → List Token → Option (List (TreeNode L))
  | 0, _, _ => some []
  | levels + 1, depth, context => do
    let nextLogits ← d.draft context
    let topkIndices ← d.topk nextLogits d.branching
    topkIndices.mapM fun tokenId => do
      let children ← d.expandNode levels (depth + 1) (context ++ [tokenId])
      some (.node tokenId ⟨d.logSoftmax nextLogits tokenId, depth + 1⟩ children)

/-- The draft tree after a prefix; its root is no draft but a node with token zero. -/
def generateTree [Zero L] (d : DraftTree R L) (tokens : List Token) : Option (TreeNode L) :=
  (d.expandNode d.depth.toNat 0 tokens).map fun children => .node 0 ⟨0, 0⟩ children

end DraftTree

structure TreeVerificationResult where
  acceptedTokens : List Token
  acceptedCount : Nat
  bestPath : List Token
  totalCandidates : Nat
  deriving DecidableEq

/-- The rows that tokens of the paths are checked against, each once. -/
def neededRows (prefixLen : Nat) (allPaths : List (List Token)) (targetLogits : List (List R)) :
    List Int :=
  ((allPaths.flatMap fun path =>
    (List.range path.length).map fun i : Nat => (prefixLen : Int) + i - 1).filter
      fun row => decide (row < (targetLogits.length : Int))).dedup

def greedyArgmax (targetLogits : List (List R)) (needed : List Int) :
    Option (List (Int × Token)) :=
  needed.mapM fun row => (rowAt targetLogits row).map fun logits => (row, argmax logits)

/-- The accepted leading tokens of a path, the first of them checked at `pos`. -/
def acceptPath (greedyArgmax : List (Int × Token)) (maxRow : Nat) : Int → List Token → Nat
  | _, [] => 0
  | pos, tokenId :: path =>
    if maxRow ≤ pos then 0
    else if greedyArgmax.lookup pos ≠ some tokenId then 0
    else acceptPath greedyArgmax maxRow (pos + 1) path + 1

/-- The verification of a tree against the target's logits, at temperature zero. -/
def DraftTree.verifyTree (tokens : List Token) (root : TreeNode L)
    (targetLogits : List (List R)) : Option TreeVerificationResult := do
  let allPaths := root.paths
  let argmaxes ← greedyArgmax targetLogits (neededRows tokens.length allPaths targetLogits)
  let (bestAccepted, bestPath) := allPaths.foldl (fun (best : Nat × List Token) path =>
    let accepted := acceptPath argmaxes targetLogits.length (tokens.length - 1) path
    if best.1 < accepted then (accepted, path.take accepted) else best) (0, [])
  some ⟨bestPath, bestAccepted, bestPath, (allPaths.map List.length).sum⟩

/-- The drafted paths of a tree: those from the root to a leaf, without the root's own token. -/
def DraftNode.draftedPaths {P : Type} (root : DraftNode P) : List (List Token) :=
  root.paths.map List.tail

/-- The target's argmax given a prefix and the earlier tokens of a path. The empty list has none. -/
def CausalTarget.choice (target : CausalTarget R) (tokens earlier : List Token) : Option Token :=
  (target.forward (tokens ++ earlier)).getLast?.map argmax

/-- The best path: the longest of drafted tokens each of which is the target's argmax given the
prefix and the tokens before it. -/
def IsBestPath (target : CausalTarget R) (tokens : List Token) (root : TreeNode L) :
    List Token → Prop :=
  IsFarthest root.draftedPaths (target.choice tokens)

/-- The argmax of the row for a token of a path, which the earlier ones only give the place of. -/
def rowChoice (targetLogits : List (List R)) (prefixLen : Nat) (earlier : List Token) :
    Option Token :=
  (rowAt targetLogits (prefixLen + earlier.length - 1)).map argmax

/-! ### What the verification finds -/

theorem DraftNode.paths_eq_map {P : Type} (root : DraftNode P) :
    root.paths = root.draftedPaths.map (root.token :: ·) := by
  rw [draftedPaths, List.map_map]
  have same : ∀ path ∈ root.paths, path = ((root.token :: ·) ∘ List.tail) path := by
    intro path member
    obtain ⟨rest, rfl⟩ := head_of_mem_paths member
    rfl
  exact (List.map_id'' (fun _ => rfl) _).symm.trans (List.map_congr_left same)

variable {targetLogits : List (List R)}

omit [LinearOrder R] in
theorem mem_neededRows {prefixLen : Nat} {allPaths : List (List Token)}
    {row : Int} : row ∈ neededRows prefixLen allPaths targetLogits ↔
      (∃ path ∈ allPaths, ∃ i < path.length, (prefixLen : Int) + i - 1 = row) ∧
        row < targetLogits.length := by
  simp [neededRows]

variable {argmaxes : List (Int × Token)}

theorem lookup_greedyArgmax {needed : List Int}
    (computed : greedyArgmax targetLogits needed = some argmaxes) {row : Int}
    (member : row ∈ needed) : ∃ logits, rowAt targetLogits row = some logits ∧
      argmaxes.lookup row = some (argmax logits) := by
  induction needed generalizing argmaxes with
  | nil => cases member
  | cons first needed ih =>
    simp only [greedyArgmax, List.mapM_cons, Option.bind_eq_bind, Option.pure_def,
      Option.bind_eq_some_iff, Option.map_eq_some_iff, Option.some.injEq] at computed
    obtain ⟨entry, ⟨logits, found, rfl⟩, rest, later, rfl⟩ := computed
    by_cases here : row = first
    · subst here
      use logits
      simp [found]
    · have behind : row ∈ needed := (List.mem_cons.mp member).resolve_left here
      have differs : (row == first) = false := by simpa using here
      rw [List.lookup_cons, differs]
      exact ih later behind

theorem acceptPath_eq {path : List Token} {prefixLen : Nat}
    (known : ∀ i < path.length, (prefixLen : Int) + i - 1 < targetLogits.length →
      argmaxes.lookup ((prefixLen : Int) + i - 1) =
        (rowAt targetLogits (prefixLen + i - 1)).map argmax) :
    acceptPath argmaxes targetLogits.length (prefixLen - 1) path =
      stepsAlong (rowChoice targetLogits prefixLen) path := by
  induction path generalizing prefixLen with
  | nil => rfl
  | cons tokenId path ih =>
    -- behind its first token the path is read as after a prefix one longer
    have shift : (fun earlier => rowChoice targetLogits prefixLen (tokenId :: earlier)) =
        rowChoice targetLogits (prefixLen + 1) := by
      funext earlier
      simp only [rowChoice, List.length_cons, Nat.cast_add, Nat.cast_one]
      congr 2
      omega
    have rest : acceptPath argmaxes targetLogits.length (prefixLen - 1 + 1) path =
        stepsAlong (rowChoice targetLogits (prefixLen + 1)) path := by
      have same : (prefixLen : Int) - 1 + 1 = (prefixLen + 1 : Nat) - 1 := by omega
      rw [same]
      apply ih
      intro i inside row
      have later := known (i + 1) (by simpa using inside)
      have place : (prefixLen : Int) + (i + 1 : Nat) - 1 = (prefixLen + 1 : Nat) + i - 1 := by
        omega
      rw [place] at later
      exact later row
    have first := known 0 (by simp)
    rw [acceptPath, stepsAlong, shift, rest]
    by_cases beyond : (targetLogits.length : Int) ≤ prefixLen - 1
    · have missing : rowChoice targetLogits prefixLen [] = none := by
        have outside : targetLogits.length ≤ prefixLen - 1 := by omega
        have index : ((prefixLen : Int) - 1).toNat = prefixLen - 1 := by omega
        simp [rowChoice, rowAt, index, show (1 : Int) ≤ prefixLen by omega, outside]
      simp [beyond, missing]
    · have choice : argmaxes.lookup ((prefixLen : Int) - 1) =
          rowChoice targetLogits prefixLen [] := by
        simpa [rowChoice] using first (by omega)
      rw [if_neg beyond, choice]
      by_cases same : rowChoice targetLogits prefixLen [] = some tokenId <;> simp [same]

namespace DraftTree

variable {tokens : List Token} {root : TreeNode L} {targetLogits : List (List R)}
  {result : TreeVerificationResult}

/-- The accepted tokens are the farthest that the paths, roots included, go along the rows. -/
theorem verifyTree_isFarthest (verified : verifyTree tokens root targetLogits = some result) :
    IsFarthest root.paths (rowChoice targetLogits tokens.length) result.acceptedTokens := by
  simp only [verifyTree, Option.bind_eq_bind, Option.bind_eq_some_iff] at verified
  obtain ⟨argmaxes, computed, verified⟩ := verified
  have counts : ∀ path ∈ root.paths,
      acceptPath argmaxes targetLogits.length (tokens.length - 1) path =
        stepsAlong (rowChoice targetLogits tokens.length) path := by
    intro path member
    apply acceptPath_eq
    intro i inside row
    have needed := mem_neededRows.mpr ⟨⟨path, member, i, inside, rfl⟩, row⟩
    obtain ⟨logits, found, argmax_found⟩ := lookup_greedyArgmax computed needed
    rw [argmax_found, found]
    rfl
  obtain ⟨best, farthest, found⟩ := foldl_isFarthest counts
  rw [found] at verified
  obtain rfl := Option.some.inj verified
  exact farthest

theorem rowChoice_of_verifyTree (verified : verifyTree tokens root targetLogits = some result)
    (covered : tokens.length ≤ targetLogits.length) :
    ∃ first, rowChoice targetLogits tokens.length [] = some first := by
  simp only [verifyTree, Option.bind_eq_bind, Option.bind_eq_some_iff] at verified
  obtain ⟨argmaxes, computed, -⟩ := verified
  obtain ⟨path, paths, split⟩ := List.exists_cons_of_ne_nil root.paths_ne_nil
  have member : path ∈ root.paths := by simp [split]
  obtain ⟨rest, rfl⟩ := DraftNode.head_of_mem_paths member
  have needed : (tokens.length : Int) + (0 : Nat) - 1 ∈
      neededRows tokens.length root.paths targetLogits :=
    mem_neededRows.mpr ⟨⟨_, member, 0, by simp, rfl⟩, by omega⟩
  obtain ⟨logits, found, -⟩ := lookup_greedyArgmax computed needed
  use argmax logits
  rw [rowChoice, List.length_nil, found]
  rfl

theorem verifyTree_defined (root : TreeNode L) {first : Token}
    (row : rowChoice targetLogits tokens.length [] = some first) :
    ∃ result, verifyTree tokens root targetLogits = some result := by
  have rows : 0 < targetLogits.length := by
    by_contra none
    obtain rfl : targetLogits = [] := List.length_eq_zero_iff.mp (by omega)
    simp [rowChoice, rowAt] at row
  have exist : ∀ row ∈ neededRows tokens.length root.paths targetLogits,
      ((rowAt targetLogits row).map fun logits => (row, argmax logits)) =
        some (row, argmax ((rowAt targetLogits row).getD [])) := by
    intro row needed
    obtain ⟨⟨path, -, i, -, place⟩, below⟩ := mem_neededRows.mp needed
    obtain ⟨logits, -, found⟩ := rowAt_isSome targetLogits (by omega) below
    simp [found]
  simp [verifyTree, greedyArgmax, mapM_eq_some_map exist]

end DraftTree

/-! ### When the best path is found -/

/-- When the placeholder at the root does no harm. Either the row it is checked against has another
token, and no drafted path begins with the target's; or that row has token zero, and the rows after
it confirm the drafts of a list where the target confirms those of the list behind a zero. -/
def RootHarmless (target : CausalTarget R) (tokens candidates : List Token)
    (root : TreeNode L) : Prop :=
  let rows := rowChoice (target.forward (tokens ++ candidates)) tokens.length
  ((∃ first, rows [] = some first ∧ first ≠ 0) ∧
    ∀ path ∈ root.draftedPaths, ∀ token ∈ path.head?, target.choice tokens [] ≠ some token) ∨
  (rows [] = some 0 ∧ ∀ walk, Walks root.draftedPaths (fun earlier => rows (0 :: earlier)) walk ↔
    Walks root.draftedPaths (target.choice tokens) (0 :: walk))

theorem walks_behind_iff {paths : List (List Token)} {choice choice' : List Token → Option Token}
    {x : Token} {path best : List Token} (some_ : paths ≠ [])
    (farthest : IsFarthest paths choice path) (longest : IsFarthest paths choice' best) :
    (∀ walk, Walks paths choice walk ↔ Walks paths choice' (x :: walk)) ↔ x :: path = best := by
  simp only [farthest.walks_iff some_, longest.walks_iff some_]
  constructor
  · intro same
    have begins := (same path).mp List.prefix_rfl
    obtain ⟨rest, rfl⟩ := begins
    have back := (same (path ++ rest)).mpr (by simp)
    obtain rfl : rest = [] := by simpa using back.length_le
    simp
  · rintro rfl walk
    simp

/-- A drafter of one path: each of its tokens is the likeliest after the last one. Nothing is kept
of the log-probabilities. -/
def chainDrafter (next : Token → Token) (depth : Int) : DraftTree Nat Unit where
  draft tokens := tokens.getLast?.map fun token => favour (next token)
  topk row _ := some [argmax row]
  logSoftmax _ _ := ()
  branching := 1
  depth := depth

def zeroDraft : TreeNode Unit := .node 0 ⟨0, 0⟩ [.node 0 ⟨(), 1⟩ []]

def countingDraft : TreeNode Unit := .node 0 ⟨0, 0⟩ [.node 2 ⟨(), 1⟩ [.node 3 ⟨(), 2⟩ []]]

end DistLLM.Speculative
