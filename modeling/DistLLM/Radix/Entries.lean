import DistLLM.Library.Prefix
import DistLLM.Radix.Node

/-!
# What a radix tree stores

The live entries of a well-formed tree as a finite map, and what each tree operation does to them.
-/
namespace DistLLM.Radix

open Library Dict

variable {V : Type}

namespace RadixNode

/-- A tree that keeps its counters and holds no dead weight: each child has a live entry below it. -/
inductive WellFormed : RadixNode V → Prop
  | node {children : List (Token × RadixNode V)} {kvData : Option V} {lastAccess : Time} {size : Nat}
      (distinct : (children.map Prod.fst).Nodup)
      (formed : ∀ token child, (token, child) ∈ children → WellFormed child)
      (live : ∀ token child, (token, child) ∈ children → child.entries ≠ [])
      (counted : size = (node children kvData lastAccess size).entries.length) :
      WellFormed (node children kvData lastAccess size)

/-! ### The entries of a node -/

def under (token : Token) (child : RadixNode V) : List (List Token × V) :=
  child.entries.map fun e => (token :: e.1, e.2)

theorem entriesIn_eq (children : List (Token × RadixNode V)) :
    entriesIn children = children.flatMap fun e => under e.1 e.2 := by
  induction children with
  | nil => simp [entriesIn]
  | cons e rest ih =>
    obtain ⟨token, child⟩ := e
    simp [entriesIn, under, ih]

theorem entries_node (children : List (Token × RadixNode V)) (kvData : Option V)
    (lastAccess : Time) (size : Nat) : (node children kvData lastAccess size).entries
      = kvData.toList.map (([], ·)) ++ children.flatMap fun e => under e.1 e.2 := by
  rw [entries, entriesIn_eq]

@[simp] theorem entries_new (now : Time) : (new now : RadixNode V).entries = [] := by
  simp [new, entries_node]

@[simp] theorem entries_touch (now : Time) (n : RadixNode V) : (n.touch now).entries = n.entries := by
  cases n
  simp [touch, entries_node]

variable {n : RadixNode V}

theorem entries_of_isDead (dead : n.isDead = true) : n.entries = [] := by
  cases n
  simp only [isDead, kvData, children, Bool.and_eq_true, Option.isNone_iff_eq_none,
    List.isEmpty_iff] at dead
  simp [entries_node, dead.1, dead.2]

variable {path : List Token}

theorem mem_under_iff {token : Token} {child : RadixNode V} {v : V} :
    (path, v) ∈ under token child ↔ ∃ rest, path = token :: rest ∧ (rest, v) ∈ child.entries := by
  simp only [under, List.mem_map, Prod.mk.injEq, Prod.exists]
  constructor
  · rintro ⟨rest, _, member, rfl, rfl⟩
    exact ⟨rest, rfl, member⟩
  · rintro ⟨rest, rfl, member⟩
    exact ⟨rest, v, member, rfl, rfl⟩

theorem mem_entries_nil {v : V} : ([], v) ∈ n.entries ↔ n.kvData = some v := by
  cases n
  simp [entries_node, mem_under_iff, kvData]

variable {lastAccess : Time} {kvData : Option V} {size : Nat}

theorem mem_entries_cons {children : List (Token × RadixNode V)}
    (distinct : (children.map Prod.fst).Nodup) {token : Token} {v : V} :
    (token :: path, v) ∈ (node children kvData lastAccess size).entries ↔
      ∃ child, lookupEntries token children = some child ∧ (path, v) ∈ child.entries := by
  simp only [entries_node, List.mem_append, List.mem_map, List.mem_flatMap, mem_under_iff]
  constructor
  · rintro (⟨_, _, same⟩ | ⟨⟨t, child⟩, member, rest, same, inside⟩)
    · simp at same
    · obtain ⟨rfl, rfl⟩ := List.cons.inj same
      exact ⟨child, lookupEntries_of_mem _ child children distinct member, inside⟩
  · rintro ⟨child, found, inside⟩
    exact Or.inr ⟨(token, child), mem_of_lookupEntries token child children found, path, rfl, inside⟩

theorem get_cons {children : List (Token × RadixNode V)} {token : Token} :
    (node children kvData lastAccess size).get (token :: path)
      = (lookupEntries token children).bind (get path) := by
  cases found : lookupEntries token children with
  | none => simp [get, descend, found]
  | some child => simp [get, descend, found]

theorem WellFormed.child {children : List (Token × RadixNode V)}
    (whole : (RadixNode.node children kvData lastAccess size).WellFormed) {token : Token}
    {child : RadixNode V} (found : lookupEntries token children = some child) :
    child.WellFormed ∧ child.entries ≠ [] := by
  cases whole with
  | node distinct formed live counted =>
    have member := mem_of_lookupEntries token child children found
    exact ⟨formed token child member, live token child member⟩

theorem WellFormed.mem_entries_iff (whole : n.WellFormed) (path : List Token)
    (v : V) : (path, v) ∈ n.entries ↔ n.get path = some v := by
  induction path generalizing n with
  | nil => simp [mem_entries_nil, get, descend]
  | cons token path ih =>
    cases n with
    | node children kvData lastAccess size =>
      cases whole with
      | node distinct formed live counted =>
        rw [mem_entries_cons distinct, get_cons, Option.bind_eq_some_iff]
        constructor
        · rintro ⟨child, found, inside⟩
          have below := formed token child (mem_of_lookupEntries token child children found)
          exact ⟨child, found, (ih below).mp inside⟩
        · rintro ⟨child, found, leads⟩
          have below := formed token child (mem_of_lookupEntries token child children found)
          exact ⟨child, found, (ih below).mpr leads⟩

theorem WellFormed.distinct_entries (whole : n.WellFormed) :
    (n.entries.map Prod.fst).Nodup := by
  induction whole with
  | @node children kvData lastAccess size distinct formed live counted ih =>
    rw [entries_node, List.map_append, List.map_flatMap]
    apply List.Nodup.append
    · cases kvData <;> simp
    · rw [List.nodup_flatMap]
      constructor
      · rintro ⟨token, child⟩ member
        have inner := (ih token child member).map (List.cons_injective (a := token))
        simpa [under, List.map_map, Function.comp_def] using inner
      · have apart := List.pairwise_map.mp distinct
        apply apart.imp
        rintro ⟨token, child⟩ ⟨other, child'⟩ different path here there
        simp only [under, List.map_map, List.mem_map, Function.comp_def] at here there
        obtain ⟨_, _, rfl⟩ := here
        obtain ⟨_, _, same⟩ := there
        exact different (List.cons.inj same).1.symm
    · intro path here there
      simp only [List.map_map, List.mem_map, Function.comp_def, List.mem_flatMap, under] at here there
      obtain ⟨_, _, rfl⟩ := here
      obtain ⟨_, _, _, _, same⟩ := there
      cases same

def WellFormed.stored {n : RadixNode V} (whole : n.WellFormed) : Dict (List Token) V :=
  ⟨n.entries, whole.distinct_entries⟩

theorem WellFormed.get?_stored (whole : n.WellFormed) (path : List Token) :
    whole.stored.get? path = n.get path := by
  apply Option.ext
  intro v
  rw [← Dict.mem_entries_iff, ← whole.mem_entries_iff]
  rfl

def without (path : List Token) (es : List (List Token × V)) : List (List Token × V) :=
  es.filter fun e => decide (e.1 ≠ path)

def others (token : Token) (children : List (Token × RadixNode V)) : List (List Token × V) :=
  (children.filter fun e => decide (e.1 ≠ token)).flatMap fun e => under e.1 e.2

theorem without_append (path : List Token) (es es' : List (List Token × V)) :
    without path (es ++ es') = without path es ++ without path es' := by
  simp [without]

theorem without_self (path : List Token) {es : List (List Token × V)}
    (other : ∀ e ∈ es, e.1 ≠ path) : without path es = es := by
  apply List.filter_eq_self.mpr
  simpa using other

theorem without_under (token : Token) (path : List Token) (child : RadixNode V) :
    without (token :: path) (under token child)
      = (without path child.entries).map fun e => (token :: e.1, e.2) := by
  simp [without, under, List.filter_map, Function.comp_def]

theorem without_others (token : Token) (path : List Token) (children : List (Token × RadixNode V)) :
    without (token :: path) (others token children) = others token children := by
  apply without_self
  rintro ⟨_, v⟩ member rfl
  simp only [others, List.mem_flatMap, List.mem_filter, mem_under_iff] at member
  obtain ⟨⟨t, child⟩, ⟨-, apart⟩, rest, same, -⟩ := member
  simp [(List.cons.inj same).1] at apart

theorem without_here (token : Token) (path : List Token) (kvData : Option V) :
    without (token :: path) (kvData.toList.map (([], ·))) = kvData.toList.map (([], ·)) := by
  apply without_self
  simp

theorem without_nil (children : List (Token × RadixNode V)) (kvData : Option V)
    (lastAccess : Time) (size : Nat) : without [] (node children kvData lastAccess size).entries
      = children.flatMap fun e => under e.1 e.2 := by
  have below : without [] (children.flatMap fun e => under e.1 e.2)
      = children.flatMap fun e => under e.1 e.2 := by
    apply without_self
    rintro ⟨_, v⟩ member rfl
    simp [mem_under_iff] at member
  rw [entries_node, without_append, below]
  cases kvData <;> simp [without]

theorem WellFormed.perm_without (whole : n.WellFormed) {v : V}
    (leads : n.get path = some v) : n.entries.Perm ((path, v) :: without path n.entries) :=
  whole.stored.entries_perm_filterKeys path v ((whole.get?_stored path).trans leads)

theorem WellFormed.without_of_none (whole : n.WellFormed)
    (nothing : n.get path = none) : without path n.entries = n.entries := by
  apply without_self
  rintro ⟨_, v⟩ member rfl
  rw [(whole.mem_entries_iff _ v).mp member] at nothing
  cases nothing

section Child

variable {children : List (Token × RadixNode V)} (distinct : (children.map Prod.fst).Nodup)
  {token : Token} {child : RadixNode V}

include distinct

theorem perm_of_found (found : lookupEntries token children = some child) :
    (children.flatMap fun e => under e.1 e.2).Perm (under token child ++ others token children) :=
  (Dict.entries_perm_filterKeys ⟨children, distinct⟩ token child found).flatMap_right _

theorem perm_of_absent (absent : lookupEntries token children = none) :
    children.flatMap (fun e => under e.1 e.2) = others token children := by
  rw [others, List.filter_eq_self.mpr]
  rintro ⟨t, child⟩ member
  have found := lookupEntries_of_mem t child children distinct member
  by_cases same : t = token
  · rw [same, absent] at found
    cases found
  · simp [same]

theorem perm_setEntries (child : RadixNode V) :
    ((setEntries token child children).flatMap fun e => under e.1 e.2).Perm
      (under token child ++ others token children) :=
  (Dict.entries_set_perm_filterKeys ⟨children, distinct⟩ token child).flatMap_right _

end Child

/-! ### Insertion -/

theorem wellFormed_new (now : Time) : (new now : RadixNode V).WellFormed :=
  .node (by simp) (by simp) (by simp) (by simp [entries_node])

theorem child_or_new {children : List (Token × RadixNode V)}
    (whole : (node children kvData lastAccess size).WellFormed) (now : Time)
    (token : Token) : ((lookupEntries token children).getD (new now)).WellFormed ∧
      (children.flatMap fun e => under e.1 e.2).Perm
        (under token ((lookupEntries token children).getD (new now)) ++ others token children) ∧
      ∀ path, ((lookupEntries token children).getD (new now)).get path
        = (node children kvData lastAccess size).get (token :: path) := by
  have distinct : (children.map Prod.fst).Nodup := by
    cases whole with
    | node distinct _ _ _ => exact distinct
  cases found : lookupEntries token children with
  | none =>
    refine ⟨wellFormed_new now, ?_, ?_⟩
    · rw [perm_of_absent distinct found]
      simp [under]
    · intro path
      have nothing : ∀ v, (new now : RadixNode V).get path ≠ some v := by
        intro v leads
        simpa using ((wellFormed_new now).mem_entries_iff path v).mpr leads
      rw [get_cons, found]
      exact Option.eq_none_iff_forall_ne_some.mpr nothing
  | some child =>
    refine ⟨(whole.child found).1, perm_of_found distinct found, ?_⟩
    intro path
    rw [get_cons, found]
    rfl

theorem mem_setEntries {children : List (Token × RadixNode V)} {token t : Token}
    {child c : RadixNode V} (member : (t, c) ∈ setEntries token child children) :
    c = child ∨ (t, c) ∈ children := by
  induction children with
  | nil =>
    obtain ⟨-, rfl⟩ : t = token ∧ c = child := by simpa [setEntries] using member
    exact Or.inl rfl
  | cons e rest ih =>
    obtain ⟨key, old⟩ := e
    by_cases same : key = token
    · simp only [setEntries, same, if_true, List.mem_cons, Prod.mk.injEq] at member
      rcases member with ⟨-, rfl⟩ | later
      · exact Or.inl rfl
      · exact Or.inr (by simp [later])
    · simp only [setEntries, same, if_false, List.mem_cons, Prod.mk.injEq] at member
      rcases member with ⟨rfl, rfl⟩ | later
      · exact Or.inr (by simp)
      · rcases ih later with new | old
        · exact Or.inl new
        · exact Or.inr (by simp [old])

theorem wellFormed_setChild {children : List (Token × RadixNode V)} {size' : Nat}
    (whole : (node children kvData lastAccess size).WellFormed) (token : Token)
    {child : RadixNode V} (formed : child.WellFormed) (live : child.entries ≠ [])
    (counted : size' = (node (setEntries token child children) kvData lastAccess size').entries.length) :
    (node (setEntries token child children) kvData lastAccess size').WellFormed := by
  cases whole with
  | node distinct below alive _ =>
    refine .node (nodup_setEntries token child children distinct) ?_ ?_ counted
    · intro t c member
      rcases mem_setEntries member with rfl | old
      · exact formed
      · exact below t c old
    · intro t c member
      rcases mem_setEntries member with rfl | old
      · exact live
      · exact alive t c old

theorem WellFormed.counted (whole : n.WellFormed) : n.size = n.entries.length := by
  cases whole with
  | node _ _ _ counted => exact counted

theorem WellFormed.distinct {children : List (Token × RadixNode V)}
    (whole : (RadixNode.node children kvData lastAccess size).WellFormed) :
    (children.map Prod.fst).Nodup := by
  cases whole with
  | node distinct _ _ _ => exact distinct

theorem without_perm {es es' : List (List Token × V)} (same : es.Perm es') :
    (without path es).Perm (without path es') :=
  same.filter _

theorem without_node {children : List (Token × RadixNode V)} {token : Token} {c : RadixNode V}
    (split : (children.flatMap fun e => under e.1 e.2).Perm (under token c ++ others token children))
    (kvData : Option V) (lastAccess : Time) (size : Nat) (path : List Token) :
    (without (token :: path) (node children kvData lastAccess size).entries).Perm
      (kvData.toList.map (([], ·)) ++
        ((without path c.entries).map (fun e => (token :: e.1, e.2)) ++ others token children)) := by
  rw [entries_node, without_append, without_here]
  apply List.Perm.append_left
  apply (without_perm split).trans
  rw [without_append, without_under, without_others]

theorem WellFormed.length_without (whole : n.WellFormed) (path : List Token) :
    (without path n.entries).length + (if (n.get path).isNone then 0 else 1) = n.size := by
  rw [whole.counted]
  cases leads : n.get path with
  | none => simp [whole.without_of_none leads]
  | some v => simp [(whole.perm_without leads).length_eq]

theorem insert_spec (whole : n.WellFormed) (now : Time) (v : V) (path : List Token) :
    (n.insert now v path).1.entries.Perm ((path, v) :: without path n.entries) ∧
      (n.insert now v path).2 = (n.get path).isNone ∧ (n.insert now v path).1.WellFormed := by
  induction path generalizing n with
  | nil =>
    cases n with
    | node children kvData lastAccess size =>
      have written : ∀ size', (node children (some v) now size').entries
          = ([], v) :: without [] (node children kvData lastAccess size).entries := by
        intro size'
        rw [without_nil, entries_node]
        rfl
      have counts := whole.length_without []
      refine ⟨by simp only [insert, written]; exact .refl _, rfl, ?_⟩
      cases whole with
      | node distinct formed live counted =>
        refine .node distinct formed live ?_
        simp only [written, List.length_cons]
        simp only [get, descend, Option.bind_some, RadixNode.kvData, RadixNode.size] at counts
        cases kvData with
        | none => simpa using counts.symm
        | some old => simpa using counts.symm
  | cons token path ih =>
    cases n with
    | node children kvData lastAccess size =>
      obtain ⟨formed, split, leads⟩ := child_or_new whole now token
      obtain ⟨written, fresh, formed'⟩ := ih formed
      -- the entries below the token change as the child's do; the other children keep theirs
      have perm : ∀ size', (node (setEntries token (insert now v path
          ((lookupEntries token children).getD (new now))).1 children) kvData lastAccess
          size').entries.Perm
          ((token :: path, v) :: without (token :: path)
            (node children kvData lastAccess size).entries) := by
        intro size'
        rw [entries_node]
        have below := (written.map fun e => (token :: e.1, e.2)).append_right (others token children)
        have here := ((perm_setEntries whole.distinct _).trans below).append_left
          (kvData.toList.map (([], ·)))
        apply here.trans
        apply List.perm_middle.trans
        exact (without_node split kvData lastAccess size path).symm.cons _
      have counts := whole.length_without (token :: path)
      rw [← leads, RadixNode.size] at counts
      refine ⟨perm _, by rw [← leads]; exact fresh, ?_⟩
      apply wellFormed_setChild whole token formed'
      · intro nothing
        simpa [nothing] using written.length_eq
      · rw [(perm _).length_eq, List.length_cons, fresh]
        split at counts
        next absent => simpa [absent] using counts.symm
        next present => simpa [present] using counts.symm

theorem wellFormed_dropChild {children : List (Token × RadixNode V)} {size' : Nat}
    (whole : (node children kvData lastAccess size).WellFormed) (token : Token)
    (counted : size' = (node (children.filter fun e => decide (e.1 ≠ token)) kvData lastAccess
      size').entries.length) :
    (node (children.filter fun e => decide (e.1 ≠ token)) kvData lastAccess size').WellFormed := by
  cases whole with
  | node distinct formed live _ =>
    refine .node (distinct.sublist (List.filter_sublist.map Prod.fst)) ?_ ?_ counted
    · exact fun t c member => formed t c (List.mem_of_mem_filter member)
    · exact fun t c member => live t c (List.mem_of_mem_filter member)

theorem entries_eq_nil_iff_isDead (whole : n.WellFormed) :
    n.entries = [] ↔ n.isDead = true := by
  constructor
  · intro nothing
    cases whole with
    | @node children kvData lastAccess size distinct formed live counted =>
      cases kvData with
      | some v => simp [entries_node] at nothing
      | none =>
        cases children with
        | nil => rfl
        | cons e rest =>
          obtain ⟨token, child⟩ := e
          have alive := live token child (by simp)
          simp [entries_node, under, alive] at nothing
  · exact entries_of_isDead

theorem takePath_spec (whole : n.WellFormed) (path : List Token) :
    (n.get path = none → n.takePath path = none) ∧
      ∀ v, n.get path = some v → ∃ n', n.takePath path = some (v, n') ∧
        n'.entries.Perm (without path n.entries) ∧ n'.WellFormed := by
  induction path generalizing n with
  | nil =>
    cases n with
    | node children kvData lastAccess size =>
      constructor
      · intro nothing
        have : kvData = none := nothing
        simp [takePath, this]
      · intro v leads
        obtain rfl : kvData = some v := leads
        have left : ∀ size', (node children none lastAccess size').entries
            = without [] (node children (some v) lastAccess size).entries := by
          intro size'
          rw [without_nil, entries_node]
          rfl
        have counts := whole.length_without []
        refine ⟨_, rfl, by rw [left], ?_⟩
        cases whole with
        | node distinct formed live counted =>
          refine .node distinct formed live ?_
          rw [left]
          simp only [get, descend, Option.bind_some, RadixNode.kvData, RadixNode.size] at counts
          simp at counts
          omega
  | cons token path ih =>
    cases n with
    | node children kvData lastAccess size =>
      rw [get_cons]
      cases found : lookupEntries token children with
      | none => simp [takePath, found]
      | some child =>
        have below := whole.child found
        obtain ⟨absent, present⟩ := ih below.1
        refine ⟨fun nothing => by simp [takePath, found, absent nothing], ?_⟩
        intro v leads
        obtain ⟨child', taken, left, formed⟩ := present v leads
        have counts := whole.length_without (token :: path)
        have there : (node children kvData lastAccess size).get (token :: path) = some v := by
          rw [get_cons, found]
          exact leads
        simp only [there, Option.isNone_some, Bool.false_eq_true, if_false, RadixNode.size] at counts
        have split := perm_of_found whole.distinct found
        have perm : ∀ size', (node (if child'.isDead then
              children.filter fun e => decide (e.1 ≠ token)
            else setEntries token child' children) kvData lastAccess size').entries.Perm
            (without (token :: path) (node children kvData lastAccess size).entries) := by
          intro size'
          have below := (left.map fun e => (token :: e.1, e.2)).append_right (others token children)
          have whole' := without_node split kvData lastAccess size path
          rw [entries_node]
          refine (List.Perm.append_left _ ?_).trans whole'.symm
          split
          next dead =>
            have nothing := entries_of_isDead dead
            rw [nothing] at below
            simpa [others] using below
          next alive => exact (perm_setEntries whole.distinct child').trans below
        refine ⟨node (if child'.isDead then children.filter fun e => decide (e.1 ≠ token)
          else setEntries token child' children) kvData lastAccess (size - 1), ?_, perm _, ?_⟩
        · simp [takePath, found, taken]
        · have size_eq : size - 1 = (node (if child'.isDead then
              children.filter fun e => decide (e.1 ≠ token)
              else setEntries token child' children) kvData lastAccess (size - 1)).entries.length := by
            rw [(perm _).length_eq]
            omega
          split at size_eq
          next dead =>
            rw [if_pos dead]
            exact wellFormed_dropChild whole token size_eq
          next alive =>
            rw [if_neg alive]
            exact wellFormed_setChild whole token formed
              (fun nothing => alive ((entries_eq_nil_iff_isDead formed).mp nothing)) size_eq

end RadixNode

end DistLLM.Radix
