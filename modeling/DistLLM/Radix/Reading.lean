import DistLLM.Radix.Entries

/-!
# What the reads of a radix tree say

A lookup ends at the longest path with an entry, the shared prefix is the longest common prefix with
an entry's path, and the counter of a node is the number of the entries whose paths go through it.
-/
namespace DistLLM.Radix

open Library Dict

variable {V : Type}

namespace RadixNode

/-! ### Lookup -/

theorem get_touch (now : Time) (n : RadixNode V) (path : List Token) :
    (n.touch now).get path = n.get path := by
  cases n
  cases path <;> rfl

variable {n : RadixNode V}

theorem wellFormed_touch (whole : n.WellFormed) (now : Time) :
    (n.touch now).WellFormed := by
  cases whole with
  | node distinct formed live counted =>
    exact .node distinct formed live (by simpa [entries_node] using counted)

theorem flatMap_setEntries_same {children : List (Token × RadixNode V)} {token : Token}
    {child child' : RadixNode V} (found : lookupEntries token children = some child)
    (same : child'.entries = child.entries) :
    ((setEntries token child' children).flatMap fun e => under e.1 e.2)
      = children.flatMap fun e => under e.1 e.2 := by
  induction children with
  | nil => simp [lookupEntries] at found
  | cons e rest ih =>
    obtain ⟨key, old⟩ := e
    by_cases here : key = token
    · obtain rfl : old = child := by simpa [lookupEntries, here] using found
      simp [setEntries, here, under, same]
    · have later : lookupEntries token rest = some child := by
        simpa [lookupEntries, here] using found
      simp [setEntries, here, ih later]

/-- What a scan of the positions up to `top` ends with: what it began with if no position has a
value, or the last position that has one. -/
def ScanEnds (value : Nat → Option V) (top i : Nat) (best result : Nat × Option V) : Prop :=
  (result = best ∧ ∀ j, 0 < j → j ≤ top → value j = none) ∨
    ∃ j v, 0 < j ∧ j ≤ top ∧ value j = some v ∧ result = (i + j, some v) ∧
      ∀ k, j < k → k ≤ top → value k = none

theorem ScanEnds.cons {value : Nat → Option V} {top i : Nat} {best result : Nat × Option V}
    (later : ScanEnds (fun j => value (j + 1)) top (i + 1)
      (if (value 1).isSome then (i + 1, value 1) else best) result) :
    ScanEnds value (top + 1) i best result := by
  rcases later with ⟨ends, nothing⟩ | ⟨j, v, positive, inside, there, ends, last⟩
  · have beyond : ∀ k, 1 < k → k ≤ top + 1 → value k = none := by
      intro k after bound
      obtain ⟨k, rfl⟩ : ∃ j, k = j + 1 := ⟨k - 1, by omega⟩
      exact nothing k (by omega) (by omega)
    cases first : value 1 with
    | none =>
      refine Or.inl ⟨by simpa [first] using ends, ?_⟩
      intro j positive bound
      by_cases one : j = 1
      · rw [one, first]
      · exact beyond j (by omega) bound
    | some v =>
      exact Or.inr ⟨1, v, by omega, by omega, first, by simpa [first] using ends, beyond⟩
  · refine Or.inr ⟨j + 1, v, by omega, by omega, there, ?_, ?_⟩
    · rw [ends, Nat.add_right_comm, Nat.add_assoc]
    · intro k after bound
      obtain ⟨k, rfl⟩ : ∃ j, k = j + 1 := ⟨k - 1, by omega⟩
      exact last k (by omega) (by omega)

theorem lookup_spec (whole : n.WellFormed) (now : Nat → Time) (tokens : List Token) (i : Nat)
    (best : Nat × Option V) :
    (n.lookup now tokens i best).1.entries = n.entries ∧ (n.lookup now tokens i best).1.WellFormed ∧
      ScanEnds (fun j => n.get (tokens.take j)) tokens.length i best
        (n.lookup now tokens i best).2 := by
  induction tokens generalizing n i best with
  | nil =>
    refine ⟨rfl, whole, Or.inl ⟨rfl, ?_⟩⟩
    intro j positive bound
    simp only [List.length_nil] at bound
    omega
  | cons token tokens ih =>
    cases n with
    | node children kvData lastAccess size =>
      cases found : lookupEntries token children with
      | none =>
        simp only [lookup, found]
        refine ⟨trivial, whole, Or.inl ⟨rfl, ?_⟩⟩
        intro j positive bound
        obtain ⟨j, rfl⟩ : ∃ k, j = k + 1 := ⟨j - 1, by omega⟩
        simp [get_cons, found]
      | some child =>
        have below := (whole.child found).1
        -- the walk goes on at the child, accessed or not
        obtain ⟨met, met_eq⟩ : ∃ met, met = if child.kvData.isSome then child.touch (now i) else child :=
          ⟨_, rfl⟩
        have met_entries : met.entries = child.entries := by
          rw [met_eq]
          split <;> simp
        have met_get : ∀ path, met.get path = child.get path := by
          intro path
          rw [met_eq]
          split <;> simp [get_touch]
        have met_formed : met.WellFormed := by
          rw [met_eq]
          split
          · exact wellFormed_touch below _
          · exact below
        obtain ⟨kept, formed, ends⟩ :=
          ih met_formed (i + 1) (if child.kvData.isSome then (i + 1, child.kvData) else best)
        simp only [lookup, found, ← met_eq]
        have same := kept.trans met_entries
        have entries_eq : ∀ c, c.entries = child.entries →
            (node (setEntries token c children) kvData lastAccess size).entries
              = (node children kvData lastAccess size).entries := by
          intro c same
          rw [entries_node, entries_node, flatMap_setEntries_same found same]
        refine ⟨entries_eq _ same, ?_, ?_⟩
        · apply wellFormed_setChild whole token formed
          · rw [same]
            exact (whole.child found).2
          · rw [entries_eq _ same]
            exact whole.counted
        · apply ScanEnds.cons
          have leads : ∀ j, (node children kvData lastAccess size).get ((token :: tokens).take (j + 1))
              = met.get (tokens.take j) := by
            intro j
            rw [List.take_succ_cons, get_cons, found, Option.bind_some, met_get]
          have first : (node children kvData lastAccess size).get ((token :: tokens).take 1)
              = child.kvData := by
            rw [leads 0, met_get]
            rfl
          simp only [first, leads]
          exact ends

theorem findSharedPrefix_spec (whole : n.WellFormed) (tokens : List Token) :
    (∀ e ∈ n.entries, commonPrefixLength tokens e.1 ≤ n.findSharedPrefix tokens) ∧
      (n.entries = [] → n.findSharedPrefix tokens = 0) ∧ (n.entries ≠ [] →
        ∃ e ∈ n.entries, commonPrefixLength tokens e.1 = n.findSharedPrefix tokens) := by
  induction tokens generalizing n with
  | nil =>
    have zero : ∀ path : List Token, commonPrefixLength [] path = 0 := by
      intro path
      simp [commonPrefixLength, commonPrefixBy]
    simp only [zero, findSharedPrefix, Nat.le_refl, implies_true, true_and, and_true]
    exact List.exists_mem_of_ne_nil n.entries
  | cons token tokens ih =>
    cases n with
    | node children kvData lastAccess size =>
      cases found : lookupEntries token children with
      | none =>
        have apart : ∀ e ∈ (node children kvData lastAccess size).entries,
            commonPrefixLength (token :: tokens) e.1 = 0 := by
          rintro ⟨path, v⟩ member
          cases path with
          | nil => simp [commonPrefixLength, commonPrefixBy]
          | cons t path =>
            obtain ⟨child, there, -⟩ := (mem_entries_cons whole.distinct).mp member
            by_cases same : token = t
            · rw [← same, found] at there
              cases there
            · simp [commonPrefixLength, commonPrefixBy, same]
        simp only [findSharedPrefix, found]
        refine ⟨fun e member => (apart e member).le, fun _ => trivial, ?_⟩
        intro some
        obtain ⟨e, member⟩ := List.exists_mem_of_ne_nil _ some
        exact ⟨e, member, apart e member⟩
      | some child =>
        obtain ⟨formed, live⟩ := whole.child found
        obtain ⟨most, -, attained⟩ := ih formed
        obtain ⟨⟨path, v⟩, member, reached⟩ := attained live
        have through : (token :: path, v) ∈ (node children kvData lastAccess size).entries :=
          (mem_entries_cons whole.distinct).mpr ⟨child, found, member⟩
        simp only [findSharedPrefix, found]
        refine ⟨?_, ?_, ?_⟩
        · rintro ⟨path, v⟩ member
          cases path with
          | nil => simp [commonPrefixLength, commonPrefixBy]
          | cons t path =>
            by_cases same : token = t
            · subst t
              obtain ⟨child', there, inside⟩ := (mem_entries_cons whole.distinct).mp member
              obtain rfl : child' = child := by simpa [found] using there.symm
              simpa [commonPrefixLength, commonPrefixBy] using most (path, v) inside
            · simp [commonPrefixLength, commonPrefixBy, same]
        · intro nothing
          rw [nothing] at through
          cases through
        · intro _
          exact ⟨_, through, by simpa [commonPrefixLength, commonPrefixBy] using reached⟩

variable {m : RadixNode V} {path : List Token} (whole : n.WellFormed)
  (leads : n.descend path = some m)

include whole leads

theorem descend_spec :
    m.WellFormed ∧ ∀ rest, n.get (path ++ rest) = m.get rest := by
  induction path generalizing n with
  | nil =>
    obtain rfl : n = m := by simpa [descend] using leads
    exact ⟨whole, fun rest => rfl⟩
  | cons token path ih =>
    cases n with
    | node children kvData lastAccess size =>
      simp only [descend, Option.bind_eq_bind, Option.bind_eq_some_iff] at leads
      obtain ⟨child, found, onward⟩ := leads
      obtain ⟨formed, same⟩ := ih (whole.child found).1 onward
      refine ⟨formed, fun rest => ?_⟩
      rw [List.cons_append, get_cons, found, Option.bind_some, same]

theorem size_spec :
    m.size = (n.entries.filter fun e => path.isPrefixOf e.1).length := by
  obtain ⟨formed, same⟩ := descend_spec whole leads
  have distinct := whole.distinct_entries.of_map
  have distinct' := formed.distinct_entries.of_map
  have injective : Function.Injective fun e : List Token × V => (path ++ e.1, e.2) := by
    rintro ⟨p, v⟩ ⟨p', v'⟩ equal
    obtain ⟨paths, values⟩ := Prod.mk.inj equal
    exact Prod.ext (List.append_cancel_left paths) values
  have perm : (n.entries.filter fun e => path.isPrefixOf e.1).Perm
      (m.entries.map fun e => (path ++ e.1, e.2)) := by
    rw [List.perm_ext_iff_of_nodup (distinct.filter _) (distinct'.map injective)]
    rintro ⟨p, v⟩
    simp only [List.mem_filter, List.isPrefixOf_iff_prefix, List.mem_map, Prod.mk.injEq,
      Prod.exists]
    constructor
    · rintro ⟨member, rest, rfl⟩
      rw [whole.mem_entries_iff, same] at member
      exact ⟨rest, v, (formed.mem_entries_iff _ _).mpr member, rfl, rfl⟩
    · rintro ⟨rest, _, member, rfl, rfl⟩
      rw [formed.mem_entries_iff, ← same] at member
      exact ⟨(whole.mem_entries_iff _ _).mpr member, List.prefix_append _ _⟩
  rw [perm.length_eq, List.length_map, formed.counted]

end RadixNode

end DistLLM.Radix
