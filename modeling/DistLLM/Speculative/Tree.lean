import DistLLM.Speculative.Target
import Mathlib.Algebra.Order.Field.Rat
import Mathlib.Data.List.Sort

/-!
# Greedy tree speculation

The decoders that verify a tree of drafts at temperature zero: `TreeDraftSpeculativeDecoder` and
`TreeSpeculativeDecoder`. What they append is always the target's own continuation, but a round can
go past the token budget. Which runs stay within it is exact.
-/
namespace DistLLM.Speculative

open Library

variable {R : Type} [LinearOrder R]

/-- A node of a draft tree: its token, what the drafting kept with it, and its children. -/
inductive DraftNode (P : Type) where
  | node (token : Token) (weight : P) (children : List (DraftNode P))

namespace DraftNode

variable {P : Type}

def token : DraftNode P → Token
  | .node token _ _ => token

mutual

def paths : DraftNode P → List (List Token)
  | .node token _ [] => [[token]]
  | .node token _ (child :: children) => (pathsOf (child :: children)).map (token :: ·)

def pathsOf : List (DraftNode P) → List (List Token)
  | [] => []
  | tree :: trees => tree.paths ++ pathsOf trees

end

theorem head_of_mem_paths {tree : DraftNode P} {path : List Token} (member : path ∈ tree.paths) :
    ∃ rest, path = tree.token :: rest := by
  cases tree with
  | node token weight children =>
    cases children with
    | nil => exact ⟨[], by simpa [paths, DraftNode.token] using member⟩
    | cons child children =>
      simp only [paths, List.mem_map] at member
      obtain ⟨rest, -, same⟩ := member
      exact ⟨rest, same.symm⟩

mutual

theorem paths_ne_nil : ∀ tree : DraftNode P, tree.paths ≠ []
  | .node _ _ [] => by simp [paths]
  | .node _ _ (child :: children) => by simpa [paths] using pathsOf_ne_nil child children

theorem pathsOf_ne_nil (tree : DraftNode P) (trees : List (DraftNode P)) :
    pathsOf (tree :: trees) ≠ [] := by
  simp [pathsOf, paths_ne_nil tree]

end

end DraftNode

def longest (sequences : List (List Token)) : Nat := (sequences.map List.length).foldr max 0

/-- How far the best of several drafts agrees with the target's own continuation. -/
def longestAgreement (target : CausalTarget R) (tokens : List Token)
    (sequences : List (List Token)) : Nat :=
  (sequences.map (agreement target tokens)).foldr max 0

/-! ### `TreeDraftSpeculativeDecoder` -/

/-- The target and the draft models of a tree decoder. A draft function gives the probabilities of
the next token; `topk` stands for the library's selection of the largest entries, and
`batchRaises` says on which inputs the batched forward pass of the target raises. -/
structure TreeDraftSpeculativeDecoder (R : Type) where
  target : CausalTarget R
  draftForwards : List (List Token → List ℚ)
  one_le : 1 ≤ draftForwards.length
  topk : List ℚ → Nat → List (Token × ℚ)
  maxTreeNodes : Nat
  maxDepth : Int
  branchingFactor : Nat
  eosTokenId : Option Token
  batchRaises : List (List Token) → Bool

namespace TreeDraftSpeculativeDecoder

/-- The top candidates of all draft models after some tokens, one model after another. -/
def proposals (d : TreeDraftSpeculativeDecoder R) (tokens : List Token) : List (Token × ℚ) :=
  d.draftForwards.flatMap fun draft =>
    let probs := draft tokens
    d.topk probs (min d.branchingFactor probs.length)

def keepHighest (candidates : List (Token × ℚ)) (candidate : Token × ℚ) : List (Token × ℚ) :=
  if candidates.any (·.1 == candidate.1) then
    candidates.map fun c => if c.1 = candidate.1 then (c.1, max c.2 candidate.2) else c
  else candidates ++ [(candidate.1, max 0 candidate.2)]

/-- The candidates for the children of a node, by falling probability. -/
def candidates (d : TreeDraftSpeculativeDecoder R) (tokens : List Token) : List (Token × ℚ) :=
  let merged := (d.proposals tokens).foldl keepHighest []
  (merged.insertionSort fun a b => b.2 ≤ a.2).take d.branchingFactor

/-- Expand a node `levels` deep, while the count of created nodes is below the maximum. -/
def expand (d : TreeDraftSpeculativeDecoder R) :
    Nat → List Token → Nat → List (DraftNode ℚ) × Nat
  | 0, _, created => ([], created)
  | levels + 1, tokens, created =>
    if d.maxTreeNodes ≤ created then ([], created)
    else (d.candidates tokens).foldl (fun (children, created) (token, prob) =>
      if prob < 5 / 100 then (children, created)
      else
        let (below, total) :=
          if created + 1 < d.maxTreeNodes then d.expand levels (tokens ++ [token]) (created + 1)
          else ([], created + 1)
        (children ++ [.node token prob below], total)) ([], created)

/-- A token that is a root already only raises the probability of that root. -/
def raiseRoot (token : Token) (prob : ℚ) : DraftNode ℚ → DraftNode ℚ
  | .node t p children => .node t (if t = token then max p prob else p) children

/-- The draft tree after some tokens: roots from every draft model, each expanded at once. -/
def buildDraftTree (d : TreeDraftSpeculativeDecoder R) (tokens : List Token) :
    List (DraftNode ℚ) :=
  ((d.proposals tokens).foldl (fun (roots, created) (token, prob) =>
    if roots.any (·.token == token) then (roots.map (raiseRoot token prob), created)
    else if prob < 5 / 100 then (roots, created)
    else
      let (below, total) :=
        if created + 1 < d.maxTreeNodes then
          d.expand (d.maxDepth - 1).toNat (tokens ++ [token]) (created + 1)
        else ([], created + 1)
      (roots ++ [.node token prob below], total)) (([] : List (DraftNode ℚ)), 0)).1

/-- All root-to-leaf paths, each once, up to the maximum. -/
def treeToSequences (d : TreeDraftSpeculativeDecoder R) (tree : List (DraftNode ℚ)) :
    List (List Token) :=
  (DraftNode.pathsOf tree).eraseDups.take d.maxTreeNodes

/-- The first of the longest accepted drafts; `accept` counts the accepted tokens of one. -/
def longestAccepted (accept : List Token → Option Nat) :
    List (List Token) → List Token → Option (List Token)
  | [], best => some best
  | seq :: rest, best => do
    let accepted ← accept seq
    longestAccepted accept rest (if best.length < accepted then seq.take accepted else best)

/-- Verify all sequences in one batch, padded to one length. -/
def verifyTreeBatched (d : TreeDraftSpeculativeDecoder R) (sequences : List (List Token))
    (tokens : List Token) : Option (List Token) :=
  let pad seq := seq ++ List.replicate (longest sequences - seq.length) 0
  if d.batchRaises (sequences.map fun seq => tokens ++ pad seq) then none
  else longestAccepted
    (fun seq => acceptFrom (d.target.forward (tokens ++ pad seq)) (tokens.length - 1) seq)
    sequences []

/-- Verify the sequences, in one batch unless a batch has failed before. The best accepted path is
empty where the source has `None`; the flag returned says whether batches still work. -/
def verifyTree (d : TreeDraftSpeculativeDecoder R) (canBatchVerify : Bool)
    (sequences : List (List Token)) (tokens : List Token) : Option (List Token × Bool) :=
  let batched :=
    if 1 < sequences.length ∧ canBatchVerify then d.verifyTreeBatched sequences tokens else none
  match batched with
  | some best => some (best, canBatchVerify)
  | none =>
    (longestAccepted
      (fun seq => acceptFrom (d.target.forward (tokens ++ seq)) (tokens.length - 1) seq)
      sequences []).map fun best => (best, canBatchVerify && sequences.length ≤ 1)

/-- One round: build the tree, verify it, append the best path or else a single token. -/
def round (d : TreeDraftSpeculativeDecoder R) (promptLen : Nat) (eosTokenId : Option Token)
    (canBatchVerify : Bool) (generated : List Token) : Option (Pass Bool Token) := do
  let tree := d.buildDraftTree generated
  if tree.isEmpty then
    let generated ← singleToken d.target generated
    some (passOf promptLen eosTokenId generated canBatchVerify canBatchVerify)
  else
    let sequences := d.treeToSequences tree
    let (bestPath, canBatchVerify) ← d.verifyTree canBatchVerify sequences generated
    let generated ← if bestPath ≠ [] then some (generated ++ bestPath)
      else singleToken d.target generated
    some (passOf promptLen eosTokenId generated canBatchVerify canBatchVerify)

def generate (d : TreeDraftSpeculativeDecoder R) (canBatchVerify : Bool) (fuel : Nat)
    (inputIds : List Token) (maxNewTokens : Nat) (eosTokenId : Option Token) :
    Option (List Token × Bool) :=
  whileShorter (d.round inputIds.length (eosTokenId.or d.eosTokenId))
    (inputIds.length + maxNewTokens) fuel canBatchVerify inputIds

end TreeDraftSpeculativeDecoder

/-- A target and one draft model. `topIndices` stands for the selection of the most probable tokens
from the logits of a row: at temperature zero these are divided by zero before it. -/
structure TreeSpeculativeDecoder (R : Type) where
  target : CausalTarget R
  draft : List Token → List R
  topIndices : List R → Nat → List Token
  branching : Nat
  depth : Nat
  eosTokenId : Option Token

namespace TreeSpeculativeDecoder

def expandNode (d : TreeSpeculativeDecoder R) : Nat → List Token → List R → List (DraftNode Unit)
  | 0, _, _ => []
  | levels + 1, tokens, logits =>
    (d.topIndices logits (min d.branching logits.length)).map fun token =>
      .node token () (d.expandNode levels (tokens ++ [token]) (d.draft (tokens ++ [token])))

/-- The draft tree; its root is no draft but a node with token zero. -/
def generateDraftTree (d : TreeSpeculativeDecoder R) (tokens : List Token) : DraftNode Unit :=
  .node 0 () (d.expandNode d.depth tokens (d.draft tokens))

/-- The accepted leading tokens of a branch; rows out of range end it. -/
def acceptBranch (rows : List (List R)) : Int → List Token → Nat
  | _, [] => 0
  | pos, expected :: rest =>
    if pos < 0 then 0
    else match rows[pos.toNat]? with
      | none => 0
      | some row => if argmax row ≠ expected then 0 else acceptBranch rows (pos + 1) rest + 1

/-- The first of the branches with most accepted tokens, cut to these. -/
def verifyBranches (d : TreeSpeculativeDecoder R) (tokens : List Token)
    (branches : List (List Token)) : List Token :=
  let pad branch := branch ++ List.replicate (longest branches - branch.length) 0
  branches.foldl (fun best branch =>
    let accepted := acceptBranch (d.target.forward (tokens ++ pad branch)) (tokens.length - 1) branch
    if best.length < accepted then branch.take accepted else best) []

/-- One round: draft a tree, append the best branch, and a token of the target unless the longest
branch was accepted whole. -/
def round (d : TreeSpeculativeDecoder R) (promptLen : Nat) (eosTokenId : Option Token) (_ : Unit)
    (generated : List Token) : Option (Pass Unit Token) := do
  let branches := (d.generateDraftTree generated).paths
  let accepted := d.verifyBranches generated branches
  let generated := generated ++ accepted
  let generated ← if accepted.length < longest branches then singleToken d.target generated
    else some generated
  some (passOf promptLen eosTokenId generated () ())

def generate (d : TreeSpeculativeDecoder R) (fuel : Nat) (inputIds : List Token)
    (maxNewTokens : Nat) (eosTokenId : Option Token) : Option (List Token) :=
  (whileShorter (d.round inputIds.length (eosTokenId.or d.eosTokenId))
    (inputIds.length + maxNewTokens) fuel () inputIds).map Prod.fst

end TreeSpeculativeDecoder

section Agreement

variable (target : CausalTarget R) {tokens : List Token}

theorem keep_longer (seq : List Token) (b : Nat) :
    (if (continuation target.next b tokens).length < agreement target tokens seq
      then seq.take (agreement target tokens seq) else continuation target.next b tokens)
      = continuation target.next (max b (agreement target tokens seq)) tokens := by
  rw [length_continuation]
  split
  next longer => rw [take_agreement, Nat.max_eq_right (Nat.le_of_lt longer)]
  next shorter => rw [Nat.max_eq_left (Nat.le_of_not_lt shorter)]

theorem longestAccepted_eq {accept : List Token → Option Nat}
    (accepts : ∀ seq, accept seq = some (agreement target tokens seq))
    (sequences : List (List Token)) :
    TreeDraftSpeculativeDecoder.longestAccepted accept sequences []
      = some (continuation target.next (longestAgreement target tokens sequences) tokens) := by
  have run : ∀ b, TreeDraftSpeculativeDecoder.longestAccepted accept sequences
      (continuation target.next b tokens)
      = some (continuation target.next
          (max b (longestAgreement target tokens sequences)) tokens) := by
    induction sequences with
    | nil => simp [TreeDraftSpeculativeDecoder.longestAccepted, longestAgreement]
    | cons seq rest ih =>
      intro b
      simp only [TreeDraftSpeculativeDecoder.longestAccepted, accepts, Option.bind_eq_bind,
        Option.bind_some, keep_longer, ih, longestAgreement, List.map_cons, List.foldr_cons,
        Nat.max_assoc]
  simpa using run 0

theorem acceptBranch_of_acceptFrom {rows : List (List R)} {branch : List Token} {pos : Int}
    {accepted : Nat} (nonneg : 0 ≤ pos) (counts : acceptFrom rows pos branch = some accepted) :
    TreeSpeculativeDecoder.acceptBranch rows pos branch = accepted := by
  induction branch generalizing pos accepted with
  | nil => simpa [acceptFrom, TreeSpeculativeDecoder.acceptBranch] using counts
  | cons expected rest ih =>
    have inside : ¬ pos < 0 := by omega
    simp only [acceptFrom, Option.bind_eq_bind, Option.bind_eq_some_iff] at counts
    obtain ⟨row, found, counts⟩ := counts
    simp only [rowAt, nonneg, if_true] at found
    simp only [TreeSpeculativeDecoder.acceptBranch, inside, if_false, found]
    by_cases same : argmax row = expected
    · simp only [same, if_true, Option.bind_eq_some_iff, Option.some.injEq] at counts
      obtain ⟨more, later, rfl⟩ := counts
      simp [same, ih (by omega) later]
    · simpa [same] using counts

theorem acceptBranch_eq (some_ : tokens ≠ []) (branch more : List Token) :
    TreeSpeculativeDecoder.acceptBranch (target.forward (tokens ++ (branch ++ more)))
      (tokens.length - 1) branch = agreement target tokens branch := by
  have positive : 0 < tokens.length := List.length_pos_iff.mpr some_
  exact acceptBranch_of_acceptFrom (by omega) (acceptFrom_eq target some_ branch more)

theorem verifyBranches_eq (d : TreeSpeculativeDecoder R) (some_ : tokens ≠ [])
    (branches : List (List Token)) : d.verifyBranches tokens branches
      = continuation d.target.next (longestAgreement d.target tokens branches) tokens := by
  have run : ∀ b, branches.foldl (fun best branch =>
      let accepted := TreeSpeculativeDecoder.acceptBranch (d.target.forward (tokens ++
        (branch ++ List.replicate (longest branches - branch.length) 0))) (tokens.length - 1) branch
      if best.length < accepted then branch.take accepted else best)
      (continuation d.target.next b tokens)
      = continuation d.target.next (max b (longestAgreement d.target tokens branches)) tokens := by
    generalize longest branches = width
    induction branches with
    | nil => simp [longestAgreement]
    | cons branch rest ih =>
      intro b
      simp only [List.foldl_cons, acceptBranch_eq d.target some_, keep_longer] at ih ⊢
      rw [ih]
      simp only [longestAgreement, List.map_cons, List.foldr_cons, Nat.max_assoc]
  simpa [TreeSpeculativeDecoder.verifyBranches] using run 0

theorem verifyTree_eq (d : TreeDraftSpeculativeDecoder R) (some_ : tokens ≠ [])
    (canBatchVerify : Bool) (sequences : List (List Token)) :
    ∃ stillCan, d.verifyTree canBatchVerify sequences tokens
      = some (continuation d.target.next (longestAgreement d.target tokens sequences) tokens,
        stillCan) := by
  have alone : ∀ seq, acceptFrom (d.target.forward (tokens ++ seq)) (tokens.length - 1) seq
      = some (agreement d.target tokens seq) := by
    intro seq
    simpa using acceptFrom_eq d.target some_ seq []
  simp only [TreeDraftSpeculativeDecoder.verifyTree, longestAccepted_eq d.target alone,
    Option.map_some]
  split
  next best batched =>
    -- padding comes after the draft, so the batch counts the same
    refine ⟨canBatchVerify, ?_⟩
    split at batched
    next =>
      simp only [TreeDraftSpeculativeDecoder.verifyTreeBatched] at batched
      split at batched
      next => cases batched
      next =>
        rw [longestAccepted_eq d.target fun seq => acceptFrom_eq d.target some_ seq _] at batched
        rw [Option.some.inj batched]
    next => cases batched
  next => exact ⟨_, rfl⟩

end Agreement

/-! ### Which runs stay within the budget -/

/-- The tokens a round of `TreeDraftSpeculativeDecoder` adds: the longest agreement of a path of the
draft tree with the target's own continuation, or a single token. -/
def TreeDraftSpeculativeDecoder.stride (d : TreeDraftSpeculativeDecoder R)
    (generated : List Token) : Nat :=
  max 1 (longestAgreement d.target generated (d.treeToSequences (d.buildDraftTree generated)))

/-- The tokens a round of `TreeSpeculativeDecoder` adds: the longest agreement of a branch, which
begins with the root's token zero, and one more unless the longest branch agrees whole. -/
def TreeSpeculativeDecoder.stride (d : TreeSpeculativeDecoder R) (generated : List Token) : Nat :=
  let branches := (d.generateDraftTree generated).paths
  roundLength (longestAgreement d.target generated branches) (longest branches)

variable {prompt : List Token}

theorem TreeDraftSpeculativeDecoder.round_passTo (d : TreeDraftSpeculativeDecoder R)
    (eosTokenId : Option Token) (some_ : prompt ≠ []) (canBatchVerify : Bool)
    (k : Nat) : PassTo d.target.next (isEos eosTokenId) prompt (fun _ => True)
      (k + d.stride (prompt ++ continuation d.target.next k prompt))
      (d.round prompt.length eosTokenId canBatchVerify
        (prompt ++ continuation d.target.next k prompt)) := by
  have still : prompt ++ continuation d.target.next k prompt ≠ [] := by simp [some_]
  have single : singleToken d.target (prompt ++ continuation d.target.next k prompt)
      = some (prompt ++ continuation d.target.next (k + 1) prompt) := by
    rw [singleToken_eq d.target still, List.append_assoc, ← continuation_succ]
  simp only [round, stride]
  generalize d.buildDraftTree _ = tree
  by_cases none : tree.isEmpty
  · have nothing : longestAgreement d.target (prompt ++ continuation d.target.next k prompt)
        (d.treeToSequences tree) = 0 := by
      simp [List.isEmpty_iff.mp none, treeToSequences, DraftNode.pathsOf, longestAgreement]
    simp only [none, if_true, single, nothing, Option.bind_eq_bind, Option.bind_some]
    exact passOf_passTo trivial trivial eosTokenId prompt (k + 1)
  · obtain ⟨stillCan, verified⟩ := verifyTree_eq d still canBatchVerify (d.treeToSequences tree)
    generalize longestAgreement d.target _ _ = agreed at verified ⊢
    simp only [none, Bool.false_eq_true, if_false, verified, Option.bind_eq_bind,
      Option.bind_some]
    cases agreed with
    | zero =>
      simp only [continuation_zero, ne_eq, not_true, if_false, single, Option.bind_some]
      exact passOf_passTo trivial trivial eosTokenId prompt (k + 1)
    | succ agreed =>
      have accepts : continuation d.target.next (agreed + 1)
          (prompt ++ continuation d.target.next k prompt) ≠ [] := by
        simp [continuation]
      rw [if_pos accepts, Nat.max_eq_right (by omega), List.append_assoc,
        ← continuation_add]
      exact passOf_passTo trivial trivial eosTokenId prompt (k + (agreed + 1))

omit [LinearOrder R] in
theorem TreeSpeculativeDecoder.longest_branch_pos (d : TreeSpeculativeDecoder R)
    (generated : List Token) : 0 < longest (d.generateDraftTree generated).paths := by
  cases branches : (d.generateDraftTree generated).paths with
  | nil => exact absurd branches (DraftNode.paths_ne_nil _)
  | cons branch rest =>
    have first : branch ∈ (d.generateDraftTree generated).paths := by simp [branches]
    obtain ⟨others, rfl⟩ := DraftNode.head_of_mem_paths first
    simp [longest]

theorem TreeSpeculativeDecoder.round_passTo (d : TreeSpeculativeDecoder R)
    (eosTokenId : Option Token) (some_ : prompt ≠ []) (k : Nat) :
    PassTo d.target.next (isEos eosTokenId) prompt (fun _ => True)
      (k + d.stride (prompt ++ continuation d.target.next k prompt))
      (d.round prompt.length eosTokenId () (prompt ++ continuation d.target.next k prompt)) := by
  have still : prompt ++ continuation d.target.next k prompt ≠ [] := by simp [some_]
  simp only [round, stride, verifyBranches_eq d still, length_continuation, List.append_assoc,
    ← continuation_add]
  generalize longestAgreement d.target _ _ = agreed
  have further : prompt ++ continuation d.target.next (k + agreed) prompt ≠ [] := by simp [some_]
  by_cases shorter : agreed < longest (d.generateDraftTree
      (prompt ++ continuation d.target.next k prompt)).paths
  · simp only [roundLength, shorter, if_true, singleToken_eq d.target further,
      Option.bind_eq_bind, Option.bind_some, List.append_assoc, ← continuation_succ]
    exact passOf_passTo trivial trivial eosTokenId prompt (k + agreed + 1)
  · simp only [roundLength, shorter, if_false, Option.bind_eq_bind, Option.bind_some]
    exact passOf_passTo trivial trivial eosTokenId prompt (k + agreed)

theorem TreeDraftSpeculativeDecoder.stride_pos (d : TreeDraftSpeculativeDecoder R)
    (generated : List Token) : 0 < d.stride generated := by
  simp only [stride]
  omega

theorem TreeSpeculativeDecoder.stride_pos (d : TreeSpeculativeDecoder R) (generated : List Token) :
    0 < d.stride generated := by
  have some_ := d.longest_branch_pos generated
  simp only [stride, roundLength]
  split <;> omega

/-- When a decoder stays within its budget: an end-of-text token is among the tokens plain decoding
produces, or no round goes past the budget. -/
def StaysWithin (target : CausalTarget R) (eosTokenId : Option Token)
    (stride : List Token → Nat) (prompt : List Token) (maxNewTokens : Nat) : Prop :=
  (∃ token ∈ continuation target.next maxNewTokens prompt, some token = eosTokenId) ∨
    ∀ t, roundStart (fun k => stride (prompt ++ continuation target.next k prompt))
      maxNewTokens t ≤ maxNewTokens

/-- A result that is the plain greedy decoding of the target, of at most the budget. -/
def IsGreedyResult (prompt decoded : List Token) (maxNewTokens : Nat)
    (result : Option (List Token)) : Prop :=
  result = some (prompt ++ decoded) ∧ decoded.length ≤ maxNewTokens

instance (prompt decoded : List Token) (maxNewTokens : Nat) (result : Option (List Token)) :
    Decidable (IsGreedyResult prompt decoded maxNewTokens result) :=
  inferInstanceAs (Decidable (_ ∧ _))

theorem isGreedyResult_iff {σ : Type} {target : CausalTarget R} {eosTokenId : Option Token}
    {round : σ → List Token → Option (Pass σ Token)} {stride : List Token → Nat}
    (positive : ∀ generated, 0 < stride generated)
    (rounds : prompt ≠ [] → ∀ s k, PassTo target.next (isEos eosTokenId) prompt (fun _ => True)
      (k + stride (prompt ++ continuation target.next k prompt))
      (round s (prompt ++ continuation target.next k prompt))) {decoded : List Token}
    {maxNewTokens : Nat}
    (decodes : greedyDecode target eosTokenId maxNewTokens prompt = some decoded) {fuel : Nat}
    (enough : maxNewTokens < fuel) (s : σ) : IsGreedyResult prompt decoded maxNewTokens
        ((whileShorter round (prompt.length + maxNewTokens) fuel s prompt).map Prod.fst) ↔
      StaysWithin target eosTokenId stride prompt maxNewTokens := by
  by_cases none : prompt = []
  · -- nothing was asked for, and nothing is done
    obtain rfl : maxNewTokens = 0 := by
      have defined := (greedyDecode_isSome_iff target eosTokenId maxNewTokens prompt).mp
        (by simp [decodes])
      simpa [none] using defined
    have stopped : [] = decoded := by simpa [greedyDecode] using decodes
    have still : ∀ stride t, roundStart stride 0 t = 0 := by
      intro stride t
      simpa [roundStart] using roundStart_of_reached stride (Nat.zero_le t)
        (Nat.zero_le (roundStart stride 0 0))
    cases fuel with
    | zero => omega
    | succ fuel => simp [IsGreedyResult, StaysWithin, whileShorter, none, ← stopped, still]
  · rw [greedyDecode_eq target eosTokenId maxNewTokens none] at decodes
    obtain rfl := Option.some.inj decodes
    have bounded : (cutAfter (isEos eosTokenId)
        (continuation target.next maxNewTokens prompt)).length ≤ maxNewTokens := by
      simpa using (cutAfter_isPrefix (isEos eosTokenId)
        (continuation target.next maxNewTokens prompt)).length_le
    have exact_ := whileShorter_eq_iff
      (fun s k _ _ => ⟨positive _, rounds none s k⟩) enough trivial (s := s)
    simpa [IsGreedyResult, StaysWithin, bounded, isEos] using exact_

/-- Tree speculation returns the greedy decoding of the target exactly on the runs that stay within
the budget. -/
theorem tree_generate_iff (prompt decoded : List Token) (maxNewTokens : Nat)
    (eosTokenId : Option Token) : (∀ (d : TreeDraftSpeculativeDecoder R) (canBatchVerify : Bool),
      greedyDecode d.target (eosTokenId.or d.eosTokenId) maxNewTokens prompt = some decoded →
      ∀ fuel > maxNewTokens, (IsGreedyResult prompt decoded maxNewTokens
            ((d.generate canBatchVerify fuel prompt maxNewTokens eosTokenId).map Prod.fst) ↔
          StaysWithin d.target (eosTokenId.or d.eosTokenId) d.stride prompt maxNewTokens)) ∧
    ∀ d : TreeSpeculativeDecoder R,
      greedyDecode d.target (eosTokenId.or d.eosTokenId) maxNewTokens prompt = some decoded →
      ∀ fuel > maxNewTokens, (IsGreedyResult prompt decoded maxNewTokens
            (d.generate fuel prompt maxNewTokens eosTokenId) ↔
          StaysWithin d.target (eosTokenId.or d.eosTokenId) d.stride prompt maxNewTokens) := by
  constructor
  · intro d canBatchVerify decodes fuel enough
    exact isGreedyResult_iff d.stride_pos
      (fun some_ canBatch k => d.round_passTo _ some_ canBatch k) decodes enough canBatchVerify
  · intro d decodes fuel enough
    exact isGreedyResult_iff d.stride_pos (fun some_ _ k => d.round_passTo _ some_ k) decodes
      enough ()

/-- A tree decoder with one draft model, sure of token zero; its top entry comes first. -/
def eagerTree (next : Token → Token) : TreeDraftSpeculativeDecoder Nat where
  target := chainTarget next
  draftForwards := [fun _ => [1, 0]]
  one_le := by decide
  topk probs k := ((List.range probs.length).zip probs).take k
  maxTreeNodes := 8
  maxDepth := 2
  branchingFactor := 1
  eosTokenId := none
  batchRaises _ := false

/-- A tree decoder of depth one whose draft model proposes token zero. -/
def rootedTree (next : Token → Token) : TreeSpeculativeDecoder Nat where
  target := chainTarget next
  draft _ := favour 0
  topIndices _ k := (List.range k).take 1
  branching := 1
  depth := 1
  eosTokenId := none

/-- A target that repeats token zero: asked for one token, both decoders return two. -/
theorem tree_exceeds_budget : greedyDecode (chainTarget fun _ => 0) none 1 [1] = some [0] ∧
      ((eagerTree fun _ => 0).generate true 2 [1] 1 none).map Prod.fst = some [1, 0, 0] ∧
      (rootedTree fun _ => 0).generate 2 [1] 1 none = some [1, 0, 0] := by
  decide +kernel

/-- A target that counts on to three tokens of two, one and end of text stays within its budget. -/
theorem counting_stays_within :
    StaysWithin (chainTarget (· + 1)) (some 3) (eagerTree (· + 1)).stride [1] 4 ∧
      StaysWithin (chainTarget (· + 1)) (some 3) (rootedTree (· + 1)).stride [1] 4 :=
  ⟨((tree_generate_iff [1] [2, 3] 4 (some 3)).1 (eagerTree (· + 1)) true (by decide) 5
      (by decide)).mp (by decide +kernel),
    ((tree_generate_iff [1] [2, 3] 4 (some 3)).2 (rootedTree (· + 1)) (by decide) 5
      (by decide)).mp (by decide +kernel)⟩

end DistLLM.Speculative
