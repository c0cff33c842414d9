import Mathlib.Data.Set.Lattice

/-!
# The latest of stamped entries

Among entries with stamps in a linear order, the one with the greatest stamp. If stamps identify the
entries, it depends on the set of entries only, so it is the same for every order and every
repetition in which entries are taken in.
-/
namespace DistLLM.Library

variable {β σ : Type} [LinearOrder σ] {stamp : β → σ}

/-- The later of two entries. On a tie the first one stays. -/
def later (stamp : β → σ) : Option β → Option β → Option β
  | none, found => found
  | some mine, none => some mine
  | some mine, some found => if stamp mine < stamp found then some found else some mine

@[simp] theorem later_none (found : Option β) : later stamp found none = found := by
  cases found <;> rfl

theorem later_spec {mine theirs : Option β} {entry : β}
    (latest : later stamp mine theirs = some entry) : (mine = some entry ∨ theirs = some entry) ∧
      ∀ other, mine = some other ∨ theirs = some other → stamp other ≤ stamp entry := by
  cases mine with
  | none =>
    have here : theirs = some entry := latest
    simp [here]
  | some a =>
    cases theirs with
    | none =>
      have here : a = entry := by simpa using latest
      simp [here]
    | some b =>
      simp only [later] at latest
      split at latest
      next before =>
        cases latest
        refine ⟨.inr rfl, ?_⟩
        rintro other (same | same) <;> cases same
        · exact before.le
        · exact le_rfl
      next after =>
        cases latest
        refine ⟨.inl rfl, ?_⟩
        rintro other (same | same) <;> cases same
        · exact le_rfl
        · exact not_lt.mp after

/-- `found` is the entry with the greatest stamp, if there is an entry. -/
def Latest (stamp : β → σ) (entries : Set β) : Option β → Prop
  | none => entries = ∅
  | some found => found ∈ entries ∧ ∀ entry ∈ entries, stamp entry ≤ stamp found

namespace Latest

variable {entries more : Set β} {found found' : Option β}

theorem mem {entry : β} (latest : Latest stamp entries (some entry)) : entry ∈ entries := latest.1

theorem union (mine : Latest stamp entries found) (theirs : Latest stamp more found') :
    Latest stamp (entries ∪ more) (later stamp found found') := by
  cases found with
  | none =>
    obtain rfl : entries = ∅ := mine
    simpa [later] using theirs
  | some a =>
    cases found' with
    | none =>
      obtain rfl : more = ∅ := theirs
      simpa [later] using mine
    | some b =>
      simp only [later]
      split
      next before =>
        refine ⟨.inr theirs.1, ?_⟩
        rintro entry (old | new)
        · exact (mine.2 entry old).trans before.le
        · exact theirs.2 entry new
      next after =>
        refine ⟨.inl mine.1, ?_⟩
        rintro entry (old | new)
        · exact mine.2 entry old
        · exact (theirs.2 entry new).trans (not_lt.mp after)

theorem unique (distinct : ∀ a ∈ entries, ∀ b ∈ entries, stamp a = stamp b → a = b)
    (latest : Latest stamp entries found) (latest' : Latest stamp entries found') :
    found = found' := by
  cases found with
  | none =>
    cases found' with
    | none => rfl
    | some b =>
      obtain rfl : entries = ∅ := latest
      exact absurd latest'.1 (Set.notMem_empty b)
  | some a =>
    cases found' with
    | none =>
      obtain rfl : entries = ∅ := latest'
      exact absurd latest.1 (Set.notMem_empty a)
    | some b =>
      have same := le_antisymm (latest'.2 a latest.1) (latest.2 b latest'.1)
      rw [distinct a latest.1 b latest'.1 same]

end Latest

end DistLLM.Library
