import DistLLM.Pool.Isolation

/-!
# What the swap space keeps

Each allocation has an owner, who writes to the block while it is in use and wants the data back
once the block has been swapped out. The swap space is keyed by block ids, so this works as long
as no id is handed out again while it has an entry.
-/
namespace DistLLM.Pool

open DistLLM.Library

variable {τ δ : Type}

/-- Owners are numbered by their allocations. `owner b` is the one who has block `b` in use,
`entry b` the one whose data are in the swap space under `b`, `away o` the block that was swapped
out while `o` had it in use, and `data o` what `o` has written. -/
structure Owners (δ : Type) where
  next : Nat := 0
  owner : Nat → Option Nat := fun _ => none
  entry : Nat → Option Nat := fun _ => none
  away : Nat → Option Nat := fun _ => none
  data : Nat → δ

structure OwnedPool (τ δ : Type) extends Owners δ where
  pool : BlockPool τ δ

namespace Owners

variable (owners : Owners δ)

def give (b : Nat) (contents : δ) : Owners δ :=
  { owners with
    next := owners.next + 1
    owner := Function.update owners.owner b (some owners.next)
    data := Function.update owners.data owners.next contents }

def leave (owners : Owners δ) (b : Nat) : Owners δ :=
  match owners.owner b with
  | none => owners
  | some o =>
    { owners with
      owner := Function.update owners.owner b none
      entry := Function.update owners.entry b (some o)
      away := Function.update owners.away o (some b) }

def comeBack (b : Nat) : Owners δ :=
  match owners.entry b with
  | none => owners
  | some o =>
    { owners with
      owner := Function.update owners.owner b (some o)
      entry := Function.update owners.entry b none
      away := Function.update owners.away o none }

def write (b : Nat) (change : δ → δ) : Owners δ :=
  match owners.owner b with
  | none => owners
  | some o => { owners with data := Function.update owners.data o (change (owners.data o)) }

/-- Blocks that are not in use any more have no owner. -/
def keep (inUse : Nat → Bool) : Owners δ :=
  { owners with owner := fun b => if inUse b then owners.owner b else none }

end Owners

namespace OwnedPool

variable [LinearOrder τ] [Inhabited δ]

def track (s : OwnedPool τ δ) : Action τ δ → Owners δ
  | .allocateBlock reading =>
    let room := s.pool.makeRoom reading.memory
    let owners := room.2.1.toList.foldl Owners.leave s.toOwners
    match (s.pool.allocateBlock reading).1 with
    | none => owners
    | some b => (room.2.2.take b reading.now).relieve.1.foldl Owners.leave
        (owners.give b (room.2.2.contents b))
  | .freeBlock b => s.toOwners.keep fun c => ((s.pool.freeBlock b).blockUsage c).isSome
  | .freeBlocks bs => s.toOwners.keep fun c => ((s.pool.freeAll bs).blockUsage c).isSome
  | .swapLruBlock => s.pool.swapLruBlock.1.toList.foldl Owners.leave s.toOwners
  | .restoreBlock b now =>
    if (s.pool.restoreBlock b now).1 then s.toOwners.comeBack b else s.toOwners
  | .expandPool _ => s.toOwners
  | .setContents b change => s.toOwners.write b change

def exec (s : OwnedPool τ δ) (act : Action τ δ) : OwnedPool τ δ :=
  { s.track act with pool := Pool.exec s.pool act }

def machine (τ δ : Type) [LinearOrder τ] [Inhabited δ] :
    Machine (OwnedPool τ δ) (Action τ δ) where
  init s := (∃ config numBlocks, BlockPool.create config numBlocks = .ok s.pool) ∧
    s.toOwners = { data := s.data }
  enabled _ _ := True
  exec := exec

/-- An id that has an entry in the swap space is not handed out. -/
def HandsOutClean (pool : BlockPool τ δ) (reading : Reading τ) : Prop :=
  match pool.freeBlocks.getLast? with
  | some b => pool.swapSpace.get? b = none
  | none => (pool.config.autoExpand && reading.memory) = true ∨ pool.config.swapToCpu = false ∨
      pool.hasRoom = false ∨ ∀ e ∈ pool.lruHeap, pool.isLive e = false

def KeepsEntries (s : OwnedPool τ δ) : Action τ δ → Prop
  | .allocateBlock reading => HandsOutClean s.pool reading
  | _ => True

/-- Block `b` belongs to `o`, in the pool or in the swap space. -/
def Has (s : OwnedPool τ δ) (o b : Nat) : Prop := s.owner b = some o ∨ s.entry b = some o

structure Faithful (s : OwnedPool τ δ) : Prop where
  sound : s.pool.Sound
  used : ∀ b, s.pool.InUse b ↔ ∃ o, s.owner b = some o
  held : ∀ b o, s.owner b = some o → s.pool.contents b = s.data o
  stored : ∀ b, s.pool.swapSpace.get? b = (s.entry b).map s.data
  apart : ∀ b o, s.entry b = some o → s.owner b = none
  away : ∀ o b, s.away o = some b ↔ s.entry b = some o
  once : ∀ o b b', s.Has o b → s.Has o b' → b = b'
  fresh : ∀ o b, s.Has o b → o < s.next

variable {s : OwnedPool τ δ}

variable {b : Nat}

section

omit [Inhabited δ]

variable (faithful : s.Faithful)

include faithful

theorem Faithful.withHeap {rest : Array (τ × Nat)} (ordered : Heap.Ordered toLex rest) :
    ({ s with pool := { s.pool with lruHeap := rest } } : OwnedPool τ δ).Faithful :=
  { faithful with sound := faithful.sound.withHeap ordered }

theorem Faithful.leave (used : s.pool.InUse b) :
    ({ s.toOwners.leave b with pool := s.pool.swapOut b } : OwnedPool τ δ).Faithful := by
  obtain ⟨o, owned⟩ := (faithful.used b).mp used
  have absent : ∀ o', s.entry b ≠ some o' := fun o' stored => by
    simp [faithful.apart b o' stored] at owned
  simp only [Owners.leave, owned]
  -- the block stays with its owner, who finds it in the swap space from now on
  have has : ∀ o' c, (({ s with
        owner := Function.update s.owner b none, entry := Function.update s.entry b (some o)
        away := Function.update s.away o (some b), pool := s.pool.swapOut b } :
      OwnedPool τ δ).Has o' c) ↔ s.Has o' c := by
    intro o' c
    by_cases here : c = b
    · simp [Has, here, owned, absent]
    · simp [Has, here]
  constructor
  case sound => exact faithful.sound.swapOut used
  case used =>
    intro c
    simp only [BlockPool.inUse_swapOut, faithful.used]
    by_cases here : c = b <;> simp [here]
  case held =>
    intro c o' found
    by_cases here : c = b
    · simp [here] at found
    · exact faithful.held c o' (by simpa [here] using found)
  case stored =>
    intro c
    simp only [BlockPool.swapOut, Dict.get?_set]
    by_cases here : c = b
    · subst here
      simp [faithful.held c o owned]
    · simp [here, Ne.symm here, faithful.stored c]
  case apart =>
    intro c o' found
    by_cases here : c = b
    · simp [here]
    · simpa [here] using faithful.apart c o' (by simpa [here] using found)
  case away =>
    intro o' c
    by_cases own : o' = o
    · subst own
      by_cases here : c = b
      · simp [here]
      · have other : s.entry c ≠ some o' := fun stored =>
          here (faithful.once o' c b (.inr stored) (.inl owned))
        simp [here, Ne.symm here, other]
    · by_cases here : c = b
      · simp [own, here, Ne.symm own, faithful.away, absent]
      · simp [own, here, faithful.away]
  case once =>
    intro o' c c' first second
    exact faithful.once o' c c' ((has o' c).mp first) ((has o' c').mp second)
  case fresh =>
    intro o' c found
    exact faithful.fresh o' c ((has o' c).mp found)

theorem Faithful.swapLruBlock :
    ({ s.pool.swapLruBlock.1.toList.foldl Owners.leave s.toOwners with
      pool := s.pool.swapLruBlock.2 } : OwnedPool τ δ).Faithful := by
  obtain ⟨rest, better, _, spec⟩ := BlockPool.swapLruBlock_spec faithful.sound.ordered
  have kept := faithful.withHeap better
  split at spec
  next pool' same =>
    rw [same, spec.1]
    exact kept
  next b pool' same =>
    obtain ⟨swapped, _, t, _, live, _⟩ := spec
    rw [same, swapped]
    exact kept.leave (BlockPool.inUse_of_isLive live)

theorem Faithful.swapLruBlock_entry {entry : δ} (found : s.pool.swapSpace.get? b = some entry) :
    s.pool.swapLruBlock.2.swapSpace.get? b = some entry := by
  obtain ⟨rest, _, _, spec⟩ := BlockPool.swapLruBlock_spec faithful.sound.ordered
  split at spec
  next pool' same =>
    rw [same, spec.1]
    exact found
  next c pool' same =>
    obtain ⟨swapped, _, t, _, live, _⟩ := spec
    obtain ⟨o, owned⟩ := (faithful.used c).mp (BlockPool.inUse_of_isLive live)
    have other : c ≠ b := by
      rintro rfl
      rw [faithful.stored c] at found
      obtain ⟨o', stored, _⟩ := Option.map_eq_some_iff.mp found
      simp [faithful.apart c o' stored] at owned
    rw [same, swapped]
    simpa [BlockPool.swapOut, Dict.get?_set, other] using found

end

/-! ### Allocating -/

omit [Inhabited δ] in
theorem Faithful.take (faithful : s.Faithful) {front : List Nat}
    (last : s.pool.freeBlocks = front ++ [b]) (clean : s.pool.swapSpace.get? b = none) (now : τ) :
    ({ s.toOwners.give b (s.pool.contents b) with pool := s.pool.take b now } :
      OwnedPool τ δ).Faithful := by
  -- a free block without an entry belongs to nobody
  have unused : ∀ o, s.owner b ≠ some o := fun o owned =>
    faithful.sound.apart b (by simp [last]) ((faithful.used b).mpr ⟨o, owned⟩)
  have absent : s.entry b = none := by simpa [faithful.stored b] using clean
  -- the next owner has nothing yet
  have new : ∀ c, s.owner c ≠ some s.next ∧ s.entry c ≠ some s.next := fun c =>
    ⟨fun owned => lt_irrefl _ (faithful.fresh _ c (.inl owned)),
      fun stored => lt_irrefl _ (faithful.fresh _ c (.inr stored))⟩
  simp only [Owners.give]
  have has : ∀ o c, (({ s with
        next := s.next + 1, owner := Function.update s.owner b (some s.next)
        data := Function.update s.data s.next (s.pool.contents b), pool := s.pool.take b now } :
      OwnedPool τ δ).Has o c) ↔ c = b ∧ o = s.next ∨ s.Has o c := by
    intro o c
    by_cases here : c = b
    · simp [Has, here, unused, absent, eq_comm]
    · simp [Has, here]
  constructor
  case sound => exact faithful.sound.take last now
  case used =>
    intro c
    by_cases here : c = b
    · simp [here, BlockPool.InUse, BlockPool.take]
    · simpa [here, BlockPool.InUse, BlockPool.take] using faithful.used c
  case held =>
    intro c o found
    by_cases here : c = b
    · obtain rfl : s.next = o := by simpa [here] using found
      simp [here, BlockPool.take]
    · have owned : s.owner c = some o := by simpa [here] using found
      have old : o ≠ s.next := fun same => (new c).1 (same ▸ owned)
      simpa [old, BlockPool.take] using faithful.held c o owned
  case stored =>
    intro c
    have same : s.pool.swapSpace.get? c = (s.entry c).map s.data := faithful.stored c
    simp only [BlockPool.take, same]
    cases found : s.entry c with
    | none => rfl
    | some o =>
      have old : o ≠ s.next := fun here => (new c).2 (here ▸ found)
      simp [old]
  case apart =>
    intro c o stored
    have other : c ≠ b := fun here => by simp [here, absent] at stored
    simpa [other] using faithful.apart c o stored
  case away => exact faithful.away
  case once =>
    intro o c c' first second
    rcases (has o c).mp first with ⟨rfl, rfl⟩ | old <;>
      rcases (has _ c').mp second with ⟨rfl, same⟩ | old'
    · rfl
    · exact absurd (faithful.fresh _ c' old') (lt_irrefl _)
    · exact absurd (faithful.fresh _ c old) (by simp [same])
    · exact faithful.once o c c' old old'
  case fresh =>
    intro o c found
    rcases (has o c).mp found with ⟨_, rfl⟩ | old
    · exact Nat.lt_succ_self _
    · exact (faithful.fresh o c old).trans (Nat.lt_succ_self _)

omit [Inhabited δ] in
theorem Faithful.relieve (faithful : s.Faithful) :
    ({ s.pool.relieve.1.foldl Owners.leave s.toOwners with pool := s.pool.relieve.2 } :
      OwnedPool τ δ).Faithful := by
  rw [BlockPool.relieve_eq]
  split
  · exact faithful.swapLruBlock
  · exact faithful

theorem Faithful.expandPool (faithful : s.Faithful) (memory : Bool) :
    ({ s with pool := (s.pool.expandPool memory).2 } : OwnedPool τ δ).Faithful := by
  have sound := faithful.sound.expandPool memory
  simp only [BlockPool.expandPool] at sound ⊢
  split
  · exact faithful
  split
  · exact faithful
  · refine { faithful with sound := by simpa [*] using sound, held := fun c o owned => ?_ }
    have inside := faithful.sound.used_lt c ((faithful.used c).mpr ⟨o, owned⟩)
    simpa [not_le.mpr inside] using faithful.held c o owned

section

variable {reading : Reading τ} (faithful : s.Faithful) (clean : HandsOutClean s.pool reading)

include faithful clean

theorem Faithful.makeRoom :
    ∃ found mid, s.pool.makeRoom reading.memory = (found, none, mid) ∧
      ({ s with pool := mid } : OwnedPool τ δ).Faithful ∧ mid.swapSpace = s.pool.swapSpace ∧
        ∀ b, mid.freeBlocks.getLast? = some b → mid.swapSpace.get? b = none := by
  obtain ⟨some, made⟩ | ⟨empty, grown, made⟩ | ⟨empty, stuck, swap, made⟩ | ⟨empty, _, _, made⟩ :=
    s.pool.makeRoom_cases reading.memory
  · refine ⟨_, _, made, faithful, rfl, fun b last => ?_⟩
    simpa [HandsOutClean, last] using clean
  · -- a new id has no entry
    obtain ⟨auto, memory⟩ := Bool.and_eq_true_iff.mp grown
    have same : (s.pool.expandPool reading.memory).2.swapSpace = s.pool.swapSpace := by
      simp [BlockPool.expandPool, auto, memory]
    refine ⟨_, _, made, faithful.expandPool reading.memory, same, fun b last => ?_⟩
    have member := List.mem_of_getLast? last
    simp only [BlockPool.expandPool, auto, memory, empty, Bool.not_true, Bool.false_eq_true,
      if_false, List.nil_append, List.mem_range'_1] at member
    rw [same]
    by_contra present
    obtain ⟨entry, found⟩ := Option.ne_none_iff_exists'.mp present
    exact absurd (faithful.sound.swapped_lt b entry found) (not_lt.mpr member.1)
  · -- nothing can be swapped out
    have nothing : s.pool.swapLruBlock.1 = none := by
      by_contra some
      obtain ⟨b, swapped⟩ := Option.ne_none_iff_exists'.mp some
      obtain ⟨room, t, member, live, _⟩ :=
        (BlockPool.swapLruBlock_victim faithful.sound.ordered b).mp swapped
      simp only [HandsOutClean, empty, List.getLast?_nil, stuck, swap, room, Bool.false_eq_true,
        Bool.true_eq_false, false_or] at clean
      simp [clean _ member] at live
    have kept := faithful.swapLruBlock
    rw [nothing] at kept made
    obtain ⟨rest, same | ⟨c, same⟩⟩ := s.pool.swapLruBlock_cases
    · refine ⟨_, _, made, kept, by rw [same], fun b last => ?_⟩
      simp [same, empty] at last
    · simp [same] at nothing
  · exact ⟨_, _, made, faithful, rfl, fun b last => by simp [empty] at last⟩

theorem Faithful.allocateBlock : (exec s (.allocateBlock reading)).Faithful ∧
      ∀ b entry, s.pool.swapSpace.get? b = some entry →
        (exec s (.allocateBlock reading)).pool.swapSpace.get? b = some entry := by
  obtain ⟨found, mid, made, kept, swapSpace, none⟩ := faithful.makeRoom clean
  obtain ⟨_, failed, same⟩ | ⟨victim, mid', front, b, made', last, allocated⟩ :=
    s.pool.allocateBlock_spec reading
  · simp only [exec, track, Pool.exec, failed, same, made]
    exact ⟨kept, fun c entry before => by rwa [swapSpace]⟩
  · cases made.symm.trans made'
    have taken := kept.take last (none b (by simp [last])) reading.now
    simp only [exec, track, Pool.exec, allocated, made]
    refine ⟨taken.relieve, fun c entry before => ?_⟩
    rw [← swapSpace] at before
    rw [BlockPool.relieve_eq]
    split
    · exact taken.swapLruBlock_entry before
    · exact before

end

/-! ### The other calls -/

variable (pool : BlockPool τ δ)

section

omit [LinearOrder τ] [Inhabited δ]

theorem freeBlock_fewer (b : Nat) : (∀ c, (pool.freeBlock b).InUse c → pool.InUse c) ∧
      (pool.freeBlock b).contents = pool.contents ∧
        (pool.freeBlock b).swapSpace = pool.swapSpace := by
  cases used : pool.blockUsage b with
  | none => simp [BlockPool.freeBlock, used]
  | some block =>
    have inUse : ∀ c block', (Function.update pool.blockUsage b block' c).isSome = true →
        pool.InUse c := by
      intro c block' still
      rw [BlockPool.inUse_update] at still
      split at still
      next here => simp [BlockPool.InUse, here, used]
      next => exact still
    simp only [BlockPool.freeBlock, used]
    split <;> exact ⟨fun c => inUse c _, rfl, rfl⟩

theorem freeAll_fewer (bs : List Nat) : (∀ c, (pool.freeAll bs).InUse c → pool.InUse c) ∧
      (pool.freeAll bs).contents = pool.contents ∧
        (pool.freeAll bs).swapSpace = pool.swapSpace := by
  induction bs generalizing pool with
  | nil => exact ⟨fun _ used => used, rfl, rfl⟩
  | cons b rest ih =>
    obtain ⟨fewer, contents, swapSpace⟩ := freeBlock_fewer pool b
    obtain ⟨fewer', contents', swapSpace'⟩ := ih (pool.freeBlock b)
    exact ⟨fun c used => fewer c (fewer' c used), contents'.trans contents,
      swapSpace'.trans swapSpace⟩

end

section

omit [Inhabited δ]

theorem Faithful.free (faithful : s.Faithful) {pool' : BlockPool τ δ} (sound : pool'.Sound)
    (fewer : ∀ b, pool'.InUse b → s.pool.InUse b) (contents : pool'.contents = s.pool.contents)
    (swapSpace : pool'.swapSpace = s.pool.swapSpace) :
    ({ s.toOwners.keep fun b => (pool'.blockUsage b).isSome with pool := pool' } :
      OwnedPool τ δ).Faithful := by
  -- the owners that remain are those of blocks still in use
  have owner : ∀ b o, (s.toOwners.keep fun b => (pool'.blockUsage b).isSome).owner b = some o ↔
      pool'.InUse b ∧ s.owner b = some o := by
    intro b o
    by_cases used : (pool'.blockUsage b).isSome = true <;> simp [Owners.keep, BlockPool.InUse, used]
  have has : ∀ o b, ({ s.toOwners.keep fun b => (pool'.blockUsage b).isSome with pool := pool' } :
      OwnedPool τ δ).Has o b → s.Has o b :=
    fun o b found => found.imp_left fun owned => ((owner b o).mp owned).2
  constructor
  case sound => exact sound
  case used =>
    intro b
    simp only [owner]
    constructor
    · intro used
      obtain ⟨o, owned⟩ := (faithful.used b).mp (fewer b used)
      exact ⟨o, used, owned⟩
    · rintro ⟨o, used, -⟩
      exact used
  case held =>
    intro b o owned
    dsimp only
    rw [contents]
    exact faithful.held b o ((owner b o).mp owned).2
  case stored =>
    intro b
    rw [swapSpace]
    exact faithful.stored b
  case apart =>
    intro b o stored
    have none := faithful.apart b o stored
    simp [Owners.keep, none]
  case away => exact faithful.away
  case once =>
    exact fun o b b' first second => faithful.once o b b' (has o b first) (has o b' second)
  case fresh => exact fun o b found => faithful.fresh o b (has o b found)

theorem Faithful.restoreBlock (faithful : s.Faithful) {o : Nat} (stored : s.entry b = some o)
    (now : τ) :
    (s.pool.restoreBlock b now).1 = true ∧
      (s.pool.restoreBlock b now).2.contents b = s.data o ∧
        ({ s.toOwners.comeBack b with pool := (s.pool.restoreBlock b now).2 } :
          OwnedPool τ δ).Faithful := by
  have found : s.pool.swapSpace.get? b = some (s.data o) := by simp [faithful.stored b, stored]
  have sound := faithful.sound.restoreBlock b now
  have unowned := faithful.apart b o stored
  simp only [BlockPool.restoreBlock, found] at sound ⊢
  refine ⟨trivial, by simp, ?_⟩
  simp only [Owners.comeBack, stored]
  -- the owner finds the block in the pool again
  have has : ∀ o' c, ({ s with
        owner := Function.update s.owner b (some o), entry := Function.update s.entry b none
        away := Function.update s.away o none, pool := s.pool } : OwnedPool τ δ).Has o' c ↔
      s.Has o' c := by
    intro o' c
    by_cases here : c = b
    · simp [Has, here, stored, unowned]
    · simp [Has, here]
  constructor
  case sound => exact sound
  case used =>
    intro c
    by_cases here : c = b
    · simp [BlockPool.InUse, here]
    · simpa [BlockPool.InUse, here] using faithful.used c
  case held =>
    intro c o' owned
    by_cases here : c = b
    · obtain rfl : o = o' := by simpa [here] using owned
      simp [here]
    · simpa [here] using faithful.held c o' (by simpa [here] using owned)
  case stored =>
    intro c
    by_cases here : c = b
    · simp [here, Dict.get?_filterKeys]
    · simp [here, Dict.get?_filterKeys, faithful.stored c]
  case apart =>
    intro c o' found'
    by_cases here : c = b
    · simp [here] at found'
    · simpa [here] using faithful.apart c o' (by simpa [here] using found')
  case away =>
    intro o' c
    by_cases own : o' = o
    · subst own
      by_cases here : c = b
      · simp [here]
      · have other : s.entry c ≠ some o' := fun there =>
          here (faithful.once o' c b (.inr there) (.inr stored))
        simp [here, other]
    · by_cases here : c = b
      · simp [own, here, faithful.away, stored, Ne.symm own]
      · simp [own, here, faithful.away]
  case once =>
    intro o' c c' first second
    exact faithful.once o' c c' ((has o' c).mp first) ((has o' c').mp second)
  case fresh =>
    intro o' c found'
    exact faithful.fresh o' c ((has o' c).mp found')

theorem Faithful.setContents (faithful : s.Faithful) (b : Nat) (change : δ → δ) :
    ({ s.toOwners.write b change with pool := s.pool.setContents b change } :
      OwnedPool τ δ).Faithful := by
  have sound := faithful.sound.setContents b change
  cases owned : s.owner b with
  | none =>
    -- a free block
    simp only [Owners.write, owned]
    simp only [BlockPool.setContents] at sound ⊢
    split
    next inside =>
      rw [if_pos inside] at sound
      refine { faithful with sound, held := fun c o owned' => ?_ }
      have other : c ≠ b := fun here => by simp [here, owned] at owned'
      simpa [other] using faithful.held c o owned'
    next => exact faithful
  | some o =>
    have inside : b < s.pool.numBlocks :=
      faithful.sound.used_lt b ((faithful.used b).mpr ⟨o, owned⟩)
    have others : ∀ c, c ≠ b → ∀ o', s.Has o' c → o' ≠ o := by
      rintro c other o' found rfl
      exact other (faithful.once o' c b found (.inl owned))
    simp only [Owners.write, owned, BlockPool.setContents, inside, if_true] at sound ⊢
    constructor
    case sound => exact sound
    case used => exact faithful.used
    case held =>
      intro c o' owned'
      by_cases here : c = b
      · subst here
        obtain rfl : o = o' := by simpa [owned] using owned'
        simp [faithful.held c o owned]
      · simpa [here, others c here o' (.inl owned')] using faithful.held c o' owned'
    case stored =>
      intro c
      rw [faithful.stored c]
      cases stored : s.entry c with
      | none => rfl
      | some o' =>
        have other : c ≠ b := by
          rintro rfl
          simp [faithful.apart c o' stored] at owned
        simp [others c other o' (.inr stored)]
    case apart => exact faithful.apart
    case away => exact faithful.away
    case once => exact faithful.once
    case fresh => exact faithful.fresh

end

/-! ### Runs -/

/-- Only an allocation can break it, by handing out an id that has an entry. -/
theorem Faithful.exec (faithful : s.Faithful) (act : Action τ δ) (kept : KeepsEntries s act) :
    (exec s act).Faithful := by
  cases act with
  | allocateBlock reading => exact (faithful.allocateBlock kept).1
  | freeBlock b =>
    obtain ⟨fewer, contents, swapSpace⟩ := freeBlock_fewer s.pool b
    exact faithful.free (faithful.sound.freeBlock b) fewer contents swapSpace
  | freeBlocks bs =>
    obtain ⟨fewer, contents, swapSpace⟩ := freeAll_fewer s.pool bs
    exact faithful.free (faithful.sound.freeAll bs) fewer contents swapSpace
  | swapLruBlock => exact faithful.swapLruBlock
  | restoreBlock b now =>
    simp only [OwnedPool.exec, track, Pool.exec]
    cases stored : s.entry b with
    | none =>
      have absent : s.pool.swapSpace.get? b = none := by simp [faithful.stored b, stored]
      simp only [BlockPool.restoreBlock, absent]
      exact faithful
    | some o =>
      obtain ⟨done, _, restored⟩ := faithful.restoreBlock stored now
      simpa only [done, if_true] using restored
  | expandPool memory => exact faithful.expandPool memory
  | setContents b change => exact faithful.setContents b change

theorem faithful_of_reaches (reached : (machine τ δ).Reaches KeepsEntries s) : s.Faithful := by
  apply Machine.Reaches.invariant (I := fun s : OwnedPool τ δ => s.Faithful) _ _ reached
  · rintro ⟨owners, pool⟩ ⟨⟨config, numBlocks, created⟩, fresh⟩
    obtain ⟨_, unused, empty, _⟩ := BlockPool.create_fresh created
    dsimp only at fresh unused empty
    rw [fresh]
    constructor
    case sound => exact BlockPool.create_sound created
    case used => simp [unused]
    case stored => simp [empty]
    all_goals simp [Has]
  · exact fun s act faithful _ kept => faithful.exec act kept

theorem Faithful.entry_stays (faithful : s.Faithful) {act : Action τ δ} (kept : KeepsEntries s act)
    {entry : δ} (found : s.pool.swapSpace.get? b = some entry)
    (other : ∀ now, act ≠ .restoreBlock b now) :
    (OwnedPool.exec s act).pool.swapSpace.get? b = some entry := by
  cases act with
  | allocateBlock reading => exact (faithful.allocateBlock kept).2 b entry found
  | freeBlock c => simpa [OwnedPool.exec, Pool.exec, (freeBlock_fewer s.pool c).2.2] using found
  | freeBlocks cs => simpa [OwnedPool.exec, Pool.exec, (freeAll_fewer s.pool cs).2.2] using found
  | swapLruBlock => exact faithful.swapLruBlock_entry found
  | restoreBlock c now =>
    have apart : b ≠ c := fun here => other now (by rw [here])
    simp only [OwnedPool.exec, Pool.exec, BlockPool.restoreBlock]
    split
    · exact found
    · simpa [Dict.get?_filterKeys, apart] using found
  | expandPool memory =>
    simp only [OwnedPool.exec, Pool.exec, BlockPool.expandPool]
    split
    · exact found
    · split <;> exact found
  | setContents c change =>
    simp only [OwnedPool.exec, Pool.exec, BlockPool.setContents]
    split <;> exact found

/-- An owner whose block was swapped out gets its data by restoring the block, restoring overwrites
no block that is in use, and swapping out a block in use discards no entry. -/
structure PreservesData (s : OwnedPool τ δ) : Prop where
  yields : ∀ o b, s.away o = some b → ∀ now, (s.pool.restoreBlock b now).1 = true ∧
    (s.pool.restoreBlock b now).2.contents b = s.data o
  overwritesNone : ∀ b now, (s.pool.restoreBlock b now).1 = true → ¬ s.pool.InUse b ∧
    ∀ c, c ≠ b → (s.pool.restoreBlock b now).2.contents c = s.pool.contents c
  discardsNone : ∀ b, s.pool.InUse b → s.pool.swapSpace.get? b = none

omit [Inhabited δ] in
theorem Faithful.preservesData (faithful : s.Faithful) : s.PreservesData := by
  have none : ∀ b, s.pool.InUse b → s.pool.swapSpace.get? b = none := by
    intro b used
    obtain ⟨o, owned⟩ := (faithful.used b).mp used
    rw [faithful.stored b]
    cases stored : s.entry b with
    | none => rfl
    | some o' => simp [faithful.apart b o' stored] at owned
  constructor
  case yields =>
    intro o b away now
    obtain ⟨done, contents, _⟩ := faithful.restoreBlock ((faithful.away o b).mp away) now
    exact ⟨done, contents⟩
  case overwritesNone =>
    intro b now done
    simp only [BlockPool.restoreBlock] at done ⊢
    constructor
    · intro used
      simp [none b used] at done
    · intro c other
      split
      · rfl
      · simp [other]
  case discardsNone => exact none

/-- **Swapping preserves data.** In every run whose allocations hand out no id that has an entry in
the swap space, what owners have written is preserved, and the calls that meet this condition
leave all entries until they are restored. -/
theorem swapping_preserves (reached : (machine τ δ).Reaches KeepsEntries s) :
    s.PreservesData ∧ ∀ act, KeepsEntries s act →
      ∀ b entry, s.pool.swapSpace.get? b = some entry → (∀ now, act ≠ .restoreBlock b now) →
        (OwnedPool.exec s act).pool.swapSpace.get? b = some entry := by
  have faithful := faithful_of_reaches reached
  exact ⟨faithful.preservesData, fun act kept b entry found other =>
    faithful.entry_stays kept found other⟩

/-- The first owner writes 7 to block 1, which is swapped out for the second one. -/
theorem swapping_preserves_first :
    ∃ s : OwnedPool Nat Nat, s.away 0 = some 1 ∧ (s.pool.restoreBlock 1 3).2.contents 1 = 7 := by
  obtain ⟨start, created⟩ : ∃ start : BlockPool Nat Nat,
      BlockPool.create twoBlocks 2 = .ok start := ⟨_, rfl⟩
  have fresh : (machine Nat Nat).init { data := fun _ => 0, pool := start } :=
    ⟨⟨twoBlocks, 2, created⟩, rfl⟩
  have reached : (machine Nat Nat).Reaches KeepsEntries _ := .of_follows (.init fresh)
    [.allocateBlock ⟨1, true⟩, .setContents 1 fun _ => 7, .allocateBlock ⟨2, true⟩]
    (by
      cases created
      exact ⟨trivial, rfl, trivial, trivial, trivial, rfl, trivial⟩)
  cases created
  exact ⟨_, by decide, ((swapping_preserves reached).1.yields 0 1 (by decide) 3).2⟩

/-- Block 1 is handed out again while it has an entry: the second swap overwrites the entry. -/
theorem entry_overwritten :
    ¬ ∀ s : OwnedPool Nat Nat, (machine Nat Nat).Reachable s → s.PreservesData := by
  intro all
  obtain ⟨start, created⟩ : ∃ start : BlockPool Nat Nat,
      BlockPool.create twoBlocks 2 = .ok start := ⟨_, rfl⟩
  have fresh : (machine Nat Nat).init { data := fun _ => 0, pool := start } :=
    ⟨⟨twoBlocks, 2, created⟩, rfl⟩
  have reached : (machine Nat Nat).Reachable _ := .of_follows (.init fresh)
    [.allocateBlock ⟨1, true⟩, .setContents 1 fun _ => 7, .allocateBlock ⟨2, true⟩,
      .allocateBlock ⟨3, true⟩, .setContents 1 fun _ => 9, .swapLruBlock]
    ⟨trivial, trivial, trivial, trivial, trivial, trivial, trivial, trivial, trivial, trivial,
      trivial, trivial, trivial⟩
  cases created
  exact absurd ((all _ reached).yields 0 1 (by decide) 4).2 (by decide)

end OwnedPool

end DistLLM.Pool
