import DistLLM.Library.Dict
import Mathlib.Algebra.Order.Field.Rat
import Mathlib.Data.List.Sort

/-!
# The radix tree

The trie of a prefix cache: nodes with their children in insertion order, an optional entry, the time
of the last access and the count of live entries below. The operations walk one path; counters are
adjusted along it.
-/
namespace DistLLM.Radix

open Library Dict

abbrev Token := Int

abbrev Time := ℚ

variable {V : Type}

/-- A node; the token it stands for is its key among the children of its parent. -/
inductive RadixNode (V : Type) where
  | node (children : List (Token × RadixNode V)) (kvData : Option V) (lastAccess : Time) (size : Nat)

namespace RadixNode

def children : RadixNode V → List (Token × RadixNode V)
  | .node children _ _ _ => children

def kvData : RadixNode V → Option V
  | .node _ kvData _ _ => kvData

def size : RadixNode V → Nat
  | .node _ _ _ size => size

def new (now : Time) : RadixNode V := .node [] none now 0

def touch (now : Time) : RadixNode V → RadixNode V
  | .node children kvData _ size => .node children kvData now size

/-- A node with no data and no children is dead weight. -/
def isDead (node : RadixNode V) : Bool := node.kvData.isNone && node.children.isEmpty

/-- Insert a token sequence with its data; whether the entry is new decides whether the counters on
the path go up. -/
def insert (now : Time) (kvData : V) : List Token → RadixNode V → RadixNode V × Bool
  | [], .node children old _ size =>
    (.node children (some kvData) now (if old.isNone then size + 1 else size), old.isNone)
  | token :: tokens, .node children old lastAccess size =>
    let (child, wasNew) :=
      insert now kvData tokens ((lookupEntries token children).getD (new now))
    (.node (setEntries token child children) old lastAccess (if wasNew then size + 1 else size),
      wasNew)

/-- Follow the tokens and keep the last entry met, with the length of its prefix; every entry met is
accessed, at the time the clock shows there. -/
def lookup (now : Nat → Time) : List Token → Nat → Nat × Option V → RadixNode V →
    RadixNode V × (Nat × Option V)
  | [], _, best, here => (here, best)
  | token :: tokens, i, best, .node children kvData lastAccess size =>
    match lookupEntries token children with
    | none => (.node children kvData lastAccess size, best)
    | some child =>
      let best := if child.kvData.isSome then (i + 1, child.kvData) else best
      let child := if child.kvData.isSome then child.touch (now i) else child
      let (child, best) := lookup now tokens (i + 1) best child
      (.node (setEntries token child children) kvData lastAccess size, best)

def descend : List Token → RadixNode V → Option (RadixNode V)
  | [], here => some here
  | token :: tokens, .node children _ _ _ => do
    let child ← lookupEntries token children
    descend tokens child

def get (path : List Token) (node : RadixNode V) : Option V := (node.descend path).bind kvData

/-- How many of the tokens the tree has a path for. -/
def findSharedPrefix : List Token → RadixNode V → Nat
  | [], _ => 0
  | token :: tokens, .node children _ _ _ =>
    match lookupEntries token children with
    | none => 0
    | some child => findSharedPrefix tokens child + 1

/-- Remove the entry at a path, if there is one: the counters on the path go down, and what is dead
at its end is pruned. -/
def takePath : List Token → RadixNode V → Option (V × RadixNode V)
  | [], .node children kvData lastAccess size =>
    kvData.map fun value => (value, .node children none lastAccess (size - 1))
  | token :: tokens, .node children kvData lastAccess size => do
    let child ← lookupEntries token children
    let (value, child) ← takePath tokens child
    let children :=
      if child.isDead then children.filter fun e => decide (e.1 ≠ token)
      else setEntries token child children
    some (value, .node children kvData lastAccess (size - 1))

def clear : RadixNode V → RadixNode V
  | .node _ _ lastAccess _ => .node [] none lastAccess 0

mutual

/-- The entries at leaves, each with its last access and its path; the children are visited from the
last to the first. -/
def evictable (path : List Token) : RadixNode V → List (Time × List Token)
  | .node children kvData lastAccess _ =>
    (if kvData.isSome ∧ children.isEmpty then [(lastAccess, path)] else [])
      ++ evictableIn path children

def evictableIn (path : List Token) : List (Token × RadixNode V) → List (Time × List Token)
  | [] => []
  | (token, child) :: rest => evictableIn path rest ++ child.evictable (path ++ [token])

end

/-- The evictable entries, least recently accessed first. -/
def collectEvictable (node : RadixNode V) : List (Time × List Token) :=
  (node.evictable []).insertionSort fun a b => a.1 ≤ b.1

mutual

/-- The live entries of a subtree, each with its path from the node. -/
def entries : RadixNode V → List (List Token × V)
  | .node children kvData _ _ => kvData.toList.map (([], ·)) ++ entriesIn children

def entriesIn : List (Token × RadixNode V) → List (List Token × V)
  | [] => []
  | (token, child) :: rest =>
    (child.entries.map fun e => (token :: e.1, e.2)) ++ entriesIn rest

end

end RadixNode

end DistLLM.Radix
