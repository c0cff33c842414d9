import DistLLM.SharedLayers.Pool

/-!
# Shared layers keep their weights

While no model is registered over its own layers, no minted key is taken and no two tensors that
compare equal differ in dtype, each model is served its own weights, each entry counts the layers
that refer to it, and the pool is empty once no model is left.
-/
namespace DistLLM.SharedLayers

open Library Library.RefCounts

variable {τ : Type} {shared shared' : Dict String (SharedLayer τ)} {held : Multiset String}

/-! ### Counted entries -/

/-- Every entry counts the references to its key, and the keys with references have entries. -/
structure Counted (shared : Dict String (SharedLayer τ)) (held : Multiset String) : Prop where
  counted : ∀ key entry, shared.get? key = some entry → entry.refCount = held.count key
  present : ∀ key, key ∈ held ↔ ∃ entry, shared.get? key = some entry

def layerTensor (shared : Dict String (SharedLayer τ)) (key : String) : Option τ :=
  (shared.get? key).bind (·.tensor)

/-- The keys with references keep their tensors. -/
def Keeps (held : Multiset String) (shared shared' : Dict String (SharedLayer τ)) : Prop :=
  ∀ key ∈ held, layerTensor shared' key = layerTensor shared key

variable (modelName : String) {layerName : String} {key : String} {r : Registration τ} {tensor : τ}

namespace Counted

theorem empty : Counted (∅ : Dict String (SharedLayer τ)) 0 where
  counted key entry found := by simp at found
  present key := by simp

variable {entry : SharedLayer τ}

theorem insert (balanced : Counted shared held) (absent : shared.get? key = none)
    (once : entry.refCount = 1) :
    Counted (shared.set key entry) (key ::ₘ held) where
  counted other entry' found := by
    rw [Dict.get?_set] at found
    split at found
    next same =>
      obtain rfl := Option.some.inj found
      have nobody : key ∉ held := by simp [balanced.present, absent]
      rw [once, ← same, Multiset.count_cons_self, Multiset.count_eq_zero.mpr nobody]
      rfl
    next differs =>
      rw [balanced.counted other entry' found, Multiset.count_cons_of_ne (Ne.symm differs)]
  present other := by
    rw [Dict.get?_set, Multiset.mem_cons]
    by_cases same : key = other
    · simp [same]
    · simp [same, Ne.symm same, balanced.present]

theorem keeps_insert (balanced : Counted shared held)
    (absent : shared.get? key = none) : Keeps held shared (shared.set key entry) := by
  intro other inside
  have differs : key ≠ other := by
    rintro rfl
    obtain ⟨last, found⟩ := (balanced.present key).mp inside
    rw [absent] at found
    cases found
  simp [layerTensor, Dict.get?_set, differs]

theorem share (balanced : Counted shared held) {entry' : SharedLayer τ}
    (found : shared.get? key = some entry) (more : entry'.refCount = entry.refCount + 1) :
    Counted (shared.set key entry') (key ::ₘ held) where
  counted other last here := by
    rw [Dict.get?_set] at here
    split at here
    next same =>
      obtain rfl := Option.some.inj here
      rw [more, balanced.counted key entry found, ← same, Multiset.count_cons_self]
      simp
    next differs =>
      rw [balanced.counted other last here, Multiset.count_cons_of_ne (Ne.symm differs)]
  present other := by
    rw [Dict.get?_set, Multiset.mem_cons]
    by_cases same : key = other
    · simp [same]
    · simp [same, Ne.symm same, balanced.present]

theorem release (balanced : Counted shared (key ::ₘ held)) :
    Counted (SharedLayerPool.releaseLayer modelName shared key) held ∧
      Keeps held shared (SharedLayerPool.releaseLayer modelName shared key) := by
  obtain ⟨entry, found⟩ := (balanced.present key).mp (by simp)
  have count : entry.refCount = held.count key + 1 := by
    rw [balanced.counted key entry found, Multiset.count_cons_self]
    simp
  have others : ∀ other, other ≠ key → ∀ last, shared.get? other = some last →
      last.refCount = held.count other := by
    intro other differs last here
    rw [balanced.counted other last here, Multiset.count_cons_of_ne differs]
  have still : ∀ other, other ≠ key → (other ∈ held ↔ ∃ last, shared.get? other = some last) := by
    intro other differs
    rw [← balanced.present other, Multiset.mem_cons]
    simp [differs]
  simp only [SharedLayerPool.releaseLayer, found]
  by_cases none : key ∈ held
  · -- another layer refers to the entry, so it stays
    have some_ := Multiset.count_pos.mpr none
    rw [if_neg (by omega)]
    refine ⟨⟨?counted, ?present⟩, ?keeps⟩
    case counted =>
      intro other last here
      rw [Dict.get?_set] at here
      split at here
      next same =>
        obtain rfl := Option.some.inj here
        subst same
        simp [count]
      next differs => exact others other (Ne.symm differs) last here
    case present =>
      intro other
      rw [Dict.get?_set]
      by_cases same : key = other
      · simp [← same, none]
      · simp [same, still other (Ne.symm same)]
    case keeps =>
      intro other inside
      simp only [layerTensor, Dict.get?_set]
      by_cases same : key = other
      · simp [← same, found]
      · simp [same]
  · -- the last reference: the entry goes, and no held layer can read it
    have zero := Multiset.count_eq_zero.mpr none
    rw [if_pos (by omega)]
    refine ⟨⟨?counted, ?present⟩, ?keeps⟩
    case counted =>
      intro other last here
      rw [Dict.get?_filterKeys] at here
      split at here
      next kept => exact others other (by simpa using kept) last here
      next => cases here
    case present =>
      intro other
      rw [Dict.get?_filterKeys]
      by_cases same : other = key
      · simp [same, none]
      · simp [same, still other same]
    case keeps =>
      intro other inside
      have differs : other ≠ key := fun same => none (same ▸ inside)
      simp [layerTensor, Dict.get?_filterKeys, differs]

theorem releaseAll (keys : List String) (balanced : Counted shared (keys + held)) :
    Counted (keys.foldl (SharedLayerPool.releaseLayer modelName) shared) held ∧
      Keeps held shared (keys.foldl (SharedLayerPool.releaseLayer modelName) shared) := by
  induction keys generalizing shared with
  | nil => exact ⟨by simpa using balanced, fun _ _ => rfl⟩
  | cons key keys ih =>
    have front : Counted shared (key ::ₘ (keys + held)) := by
      simpa [← Multiset.cons_coe] using balanced
    obtain ⟨one, keeps⟩ := front.release modelName
    obtain ⟨all, keepsAll⟩ := ih one
    refine ⟨all, ?_⟩
    intro other inside
    rw [List.foldl_cons, keepsAll other inside, keeps other (by simp [inside])]

end Counted

/-! ### Registering -/

section Register

variable (torch : Torch τ) (sha256 : List UInt8 → String)

/-- A layer that the registration of a model can take in: neither its fingerprint nor the comparison
raises, a tensor found equal has its dtype, and the key for a different one is not taken. -/
def safeLayer (r : Registration τ) (layerName : String) (tensor : τ) : Bool :=
  match SharedLayerPool.fingerprintLayer torch sha256 layerName tensor with
  | none => false
  | some fp =>
    match r.sharedLayers.get? fp.paramHash with
    | none => true
    | some entry =>
      match SharedLayerPool.matchesTensor torch (some entry) tensor with
      | none => false
      | some true => entry.tensor.map torch.dtype == some (torch.dtype tensor)
      | some false =>
        (r.sharedLayers.get? (SharedLayerPool.mintedKey r.sharedLayers fp.paramHash)).isNone

def safeLayers (modelName : String) : Registration τ → List (String × τ) → Bool
  | _, [] => true
  | r, (layerName, tensor) :: rest =>
    safeLayer torch sha256 r layerName tensor &&
      match SharedLayerPool.registerLayer torch sha256 modelName r layerName tensor with
      | none => false
      | some r => safeLayers modelName r rest

/-- The first layer already raises, so that nothing has changed. -/
def raisesAtOnce (modelName : String) (r : Registration τ) : List (String × τ) → Bool
  | [] => false
  | (layerName, tensor) :: _ =>
    (SharedLayerPool.registerLayer torch sha256 modelName r layerName tensor).isNone

/-- A registration that keeps the pool sound: the model holds no layer yet and each of its layers
can be taken in, or it raises at once. -/
def safeCall (s : Served τ) : Call τ → Bool
  | .registerModel modelName stateDict =>
    let start : Registration τ := ⟨s.pool.sharedLayers, ∅, 0, 0⟩
    (s.pool.modelLayers.getD modelName ∅).entries.isEmpty &&
        safeLayers torch sha256 modelName start stateDict.entries ||
      raisesAtOnce torch sha256 modelName start stateDict.entries
  | .unregisterModel _ => true

variable {torch sha256}

def Serves (torch : Torch τ) (shared : Dict String (SharedLayer τ))
    (fingerprints : Dict String String) (layerName : String) (tensor : τ) : Prop :=
  ∃ key kept, fingerprints.get? layerName = some key ∧ layerTensor shared key = some kept ∧
    torch.Same kept tensor

theorem layerName_of_fingerprint {fp : LayerFingerprint}
    (printed : SharedLayerPool.fingerprintLayer torch sha256 layerName tensor = some fp) :
    fp.layerName = layerName := by
  obtain ⟨raw, -, same⟩ := Option.bind_eq_some_iff.mp printed
  rw [← Option.some.inj same]

theorem registerLayer_spec (balanced : Counted r.sharedLayers held)
    (safe : safeLayer torch sha256 r layerName tensor = true) : ∃ r' key kept,
      SharedLayerPool.registerLayer torch sha256 modelName r layerName tensor = some r' ∧
      r'.modelFingerprints = r.modelFingerprints.set layerName key ∧
      Counted r'.sharedLayers (key ::ₘ held) ∧ Keeps held r.sharedLayers r'.sharedLayers ∧
      layerTensor r'.sharedLayers key = some kept ∧ torch.Same kept tensor := by
  have own : torch.Same tensor tensor := ⟨rfl, rfl, Or.inl rfl⟩
  simp only [safeLayer] at safe
  cases printed : SharedLayerPool.fingerprintLayer torch sha256 layerName tensor with
  | none => simp [printed] at safe
  | some fp =>
    obtain rfl : fp.layerName = layerName := layerName_of_fingerprint printed
    cases found : r.sharedLayers.get? fp.paramHash with
    | none =>
      refine ⟨SharedLayerPool.addEntry modelName r fp tensor fp.paramHash, fp.paramHash, tensor,
        ?_, rfl, balanced.insert found rfl, balanced.keeps_insert found,
        by simp [SharedLayerPool.addEntry, layerTensor], own⟩
      simp [SharedLayerPool.registerLayer, printed, found, SharedLayerPool.matchesTensor]
    | some entry =>
      simp only [printed, found] at safe
      cases same : SharedLayerPool.matchesTensor torch (some entry) tensor with
      | none => simp [same] at safe
      | some equal =>
        cases equal with
        | true =>
          -- the entry found is shared
          simp only [same, beq_iff_eq] at safe
          obtain ⟨kept, holds, dtype⟩ := Option.map_eq_some_iff.mp safe
          have equal : torch.equal kept tensor = some true := by
            simpa [SharedLayerPool.matchesTensor, holds] using same
          refine ⟨SharedLayerPool.shareEntry modelName r fp entry, fp.paramHash, kept, ?_, rfl,
            balanced.share found rfl, ?_, ?_, torch.shape_of_equal _ _ equal, dtype,
            Or.inr equal⟩
          · simp [SharedLayerPool.registerLayer, printed, found, same]
          · intro other inside
            simp only [layerTensor, SharedLayerPool.shareEntry, Dict.get?_set]
            by_cases here : fp.paramHash = other
            · simp [← here, found, SharedLayerPool.share]
            · simp [here]
          · simp [layerTensor, SharedLayerPool.shareEntry, SharedLayerPool.share, holds]
        | false =>
          simp only [same, Option.isNone_iff_eq_none] at safe
          refine ⟨SharedLayerPool.addEntry modelName r fp tensor
            (SharedLayerPool.mintedKey r.sharedLayers fp.paramHash), _, tensor, ?_, rfl,
            balanced.insert safe rfl, balanced.keeps_insert safe,
            by simp [SharedLayerPool.addEntry, layerTensor], own⟩
          simp [SharedLayerPool.registerLayer, printed, found, same]

/-- The state of a registration after the layers `done`, from the entries `base`. -/
structure Registering (torch : Torch τ) (base : Dict String (SharedLayer τ))
    (held : Multiset String) (r : Registration τ) (done : List (String × τ)) : Prop where
  counted : Counted r.sharedLayers (r.modelFingerprints.values + held)
  keeps : Keeps held base r.sharedLayers
  named : r.modelFingerprints.keys = done.map Prod.fst
  serves : ∀ layerName tensor, (layerName, tensor) ∈ done →
    Serves torch r.sharedLayers r.modelFingerprints layerName tensor

variable {base : Dict String (SharedLayer τ)} {done : List (String × τ)}
  (before : Registering torch base held r done)

include before

theorem Registering.step (new : layerName ∉ done.map Prod.fst)
    (safe : safeLayer torch sha256 r layerName tensor = true) :
    ∃ r', SharedLayerPool.registerLayer torch sha256 modelName r layerName tensor = some r' ∧
      Registering torch base held r' (done ++ [(layerName, tensor)]) := by
  obtain ⟨r', key, kept, ran, names, counted, keeps, here, same⟩ :=
    registerLayer_spec modelName before.counted safe
  have absent : r.modelFingerprints.get? layerName = none := by
    rw [← before.named, Dict.mem_keys_iff] at new
    simpa [Option.eq_none_iff_forall_ne_some] using new
  have entries := Dict.entries_set_of_absent r.modelFingerprints layerName key absent
  refine ⟨r', ran, ?counted, ?keeps, ?named, ?serves⟩
  case counted =>
    have values : (r'.modelFingerprints.values : Multiset String)
        = key ::ₘ r.modelFingerprints.values := by
      simp only [names, Dict.values, entries, List.map_append, List.map_cons, List.map_nil]
      simp [← Multiset.coe_add, add_comm]
    rw [values, Multiset.cons_add]
    exact counted
  case keeps =>
    intro other inside
    rw [keeps other (by simp [inside]), before.keeps other inside]
  case named =>
    simp [names, Dict.keys, entries, ← before.named]
  case serves =>
    intro name last member
    rcases List.mem_append.mp member with earlier | now
    · -- the table of the model already leads to it, and its entry is still referred to
      obtain ⟨key', kept', found, tensor', same'⟩ := before.serves name last earlier
      have differs : layerName ≠ name := by
        rintro rfl
        rw [absent] at found
        cases found
      refine ⟨key', kept', by rw [names, Dict.get?_set, if_neg differs, found], ?_, same'⟩
      rw [keeps key' ?_, tensor']
      have member : key' ∈ r.modelFingerprints.values :=
        (Dict.mem_values_iff _ _).mpr ⟨name, found⟩
      simp [member]
    · obtain ⟨rfl, rfl⟩ := Prod.mk.inj (List.mem_singleton.mp now)
      exact ⟨key, kept, by simp [names], here, same⟩

theorem Registering.run {rest : List (String × τ)} (distinct : ((done ++ rest).map Prod.fst).Nodup)
    (safe : safeLayers torch sha256 modelName r rest = true) :
    ∃ r', SharedLayerPool.registerLayers torch sha256 modelName r rest = (r', true) ∧
      Registering torch base held r' (done ++ rest) := by
  induction rest generalizing r done with
  | nil => exact ⟨r, rfl, by simpa using before⟩
  | cons layer rest ih =>
    obtain ⟨layerName, tensor⟩ := layer
    simp only [safeLayers, Bool.and_eq_true] at safe
    have new : layerName ∉ done.map Prod.fst := by
      rw [List.map_append, List.nodup_append] at distinct
      intro inside
      exact distinct.2.2 _ inside _ (by simp) rfl
    obtain ⟨r₁, ran, after⟩ := before.step modelName new safe.1
    rw [ran] at safe
    obtain ⟨r', all, ends⟩ := ih after (by simpa using distinct) safe.2
    refine ⟨r', ?_, by simpa using ends⟩
    simp [SharedLayerPool.registerLayers, ran, all]

end Register

/-! ### Runs -/

/-- What holds between calls: the entries count the layers of the models, and each registered model
has its weights. -/
structure Sound (torch : Torch τ) (s : Served τ) : Prop where
  counted : Counted s.pool.sharedLayers (references Dict.values s.pool.modelLayers)
  models : ∀ modelName, s.registered.get? modelName = none →
    s.pool.modelLayers.get? modelName = none
  serves : ∀ modelName stateDict, s.registered.get? modelName = some stateDict →
    ∃ fingerprints, s.pool.modelLayers.get? modelName = some fingerprints ∧
      ∀ layerName tensor, stateDict.get? layerName = some tensor →
        Serves torch s.pool.sharedLayers fingerprints layerName tensor

namespace Sound

variable {torch : Torch τ} {sha256 : List UInt8 → String} {s : Served τ}

theorem serves_of_keeps {models : Dict String (Dict String String)} {modelName : String}
    {fingerprints : Dict String String} (found : models.get? modelName = some fingerprints)
    (keeps : Keeps (references Dict.values models) shared shared')
    (serves : Serves torch shared fingerprints layerName tensor) :
    Serves torch shared' fingerprints layerName tensor := by
  obtain ⟨key, kept, leads, holds, same⟩ := serves
  refine ⟨key, kept, leads, ?_, same⟩
  have member : key ∈ fingerprints.values := (Dict.mem_values_iff _ _).mpr ⟨layerName, leads⟩
  rw [keeps key (mem_references_of_get? found member), holds]

theorem register {modelName : String} {stateDict : Dict String τ} (sound : Sound torch s)
    (safe : safeCall torch sha256 s (.registerModel modelName stateDict) = true) :
    Sound torch (s.exec torch sha256 (.registerModel modelName stateDict)) := by
  simp only [safeCall, Bool.or_eq_true, Bool.and_eq_true, List.isEmpty_iff] at safe
  rcases safe with ⟨bare, safe⟩ | raises
  · have start : Registering torch s.pool.sharedLayers (references Dict.values s.pool.modelLayers)
        ⟨s.pool.sharedLayers, ∅, 0, 0⟩ [] :=
      ⟨by simpa using sound.counted, fun _ _ => rfl, rfl, by simp⟩
    obtain ⟨r, ran, done⟩ := start.run modelName (by simpa using stateDict.distinct) safe
    rw [List.nil_append] at done
    -- a name that is written over had no layers, so no reference is dropped
    have before : references Dict.values (s.pool.modelLayers.set modelName r.modelFingerprints)
        = r.modelFingerprints.values + references Dict.values s.pool.modelLayers := by
      rw [← references_set Dict.values s.pool.modelLayers modelName r.modelFingerprints]
      cases found : s.pool.modelLayers.get? modelName with
      | none => simp
      | some old =>
        have none : old.values = [] := by
          simpa [Dict.getD, found, Dict.values] using bare
        simp [none]
    simp only [Served.exec, SharedLayerPool.registerModel, ran]
    refine ⟨?counted, ?models, ?serves⟩
    case counted => simpa [before] using done.counted
    case models =>
      intro other none
      rw [Dict.get?_set] at none ⊢
      split at none
      next => cases none
      next differs => simpa [differs] using sound.models other none
    case serves =>
      intro other last found
      rw [Dict.get?_set] at found
      split at found
      next same =>
        obtain rfl := Option.some.inj found
        refine ⟨r.modelFingerprints, by simp [same], ?_⟩
        intro layerName tensor inside
        exact done.serves layerName tensor ((Dict.mem_entries_iff _ _ _).mpr inside)
      next differs =>
        obtain ⟨fingerprints, listed, serves⟩ := sound.serves other last found
        refine ⟨fingerprints, by rw [Dict.get?_set, if_neg differs, listed], ?_⟩
        intro layerName tensor inside
        exact serves_of_keeps listed done.keeps (serves layerName tensor inside)
  · -- the first layer raises before anything has changed
    cases layers : stateDict.entries with
    | nil => simp [raisesAtOnce, layers] at raises
    | cons layer rest =>
      simp only [raisesAtOnce, layers, Option.isNone_iff_eq_none] at raises
      simp only [Served.exec, SharedLayerPool.registerModel, layers,
        SharedLayerPool.registerLayers, raises]
      exact ⟨sound.counted, sound.models, sound.serves⟩

theorem unregister (digest : List UInt8 → String) {modelName : String} (sound : Sound torch s) :
    Sound torch (s.exec torch digest (.unregisterModel modelName)) := by
  -- the model's own references, and those of the others
  have parts : references Dict.values s.pool.modelLayers
      = (s.pool.modelLayers.getD modelName ∅).values
        + references Dict.values (s.pool.modelLayers.filterKeys fun name =>
            decide (name ≠ modelName)) := by
    cases found : s.pool.modelLayers.get? modelName with
    | some own => simpa [Dict.getD, found] using references_drop Dict.values _ found
    | none =>
      have all : (s.pool.modelLayers.filterKeys fun name => decide (name ≠ modelName))
          = s.pool.modelLayers := Dict.filterKeys_of_absent _ found
      rw [all, Dict.getD, found]
      simp
  have counted := sound.counted
  rw [parts] at counted
  obtain ⟨all, keeps⟩ := counted.releaseAll modelName _
  refine ⟨all, ?models, ?serves⟩
  case models =>
    intro other none
    simp only [Served.exec, SharedLayerPool.unregisterModel, Dict.get?_filterKeys] at none ⊢
    split at none
    next kept => simpa [kept] using sound.models other none
    next gone => simp [gone]
  case serves =>
    intro other last found
    simp only [Served.exec, SharedLayerPool.unregisterModel, Dict.get?_filterKeys] at found ⊢
    split at found
    next kept =>
      obtain ⟨fingerprints, listed, serves⟩ := sound.serves other last found
      refine ⟨fingerprints, by simp [kept, listed], ?_⟩
      intro layerName tensor inside
      have still : (s.pool.modelLayers.filterKeys fun name => decide (name ≠ modelName)).get? other
          = some fingerprints := by
        rw [Dict.get?_filterKeys, if_pos kept, listed]
      exact serves_of_keeps still keeps (serves layerName tensor inside)
    next => cases found

theorem of_reaches (run : (sharing torch sha256).Reaches
    (fun s call => safeCall torch sha256 s call = true) s) : Sound torch s := by
  apply run.invariant
  · rintro s rfl
    exact ⟨by simpa [SharedLayerPool.create, references] using Counted.empty,
      fun _ _ => rfl, by simp⟩
  · intro s call sound _ safe
    cases call with
    | registerModel modelName stateDict => exact sound.register safe
    | unregisterModel modelName => exact sound.unregister sha256

end Sound

/-- What the pool is for: each model is served the weights it was last registered with, each entry
counts the layers that refer to it, and without models there are no entries. -/
structure Exact (torch : Torch τ) (s : Served τ) : Prop where
  served : ∀ modelName stateDict, s.registered.get? modelName = some stateDict →
    ∀ layerName tensor, stateDict.get? layerName = some tensor →
      ∃ kept, s.pool.getSharedTensor modelName layerName = some kept ∧ torch.Same kept tensor
  counted : ∀ key entry, s.pool.sharedLayers.get? key = some entry →
    entry.refCount = (references Dict.values s.pool.modelLayers).count key
  emptied : (∀ modelName, s.registered.get? modelName = none) → s.pool.sharedLayers.entries = []

/-- In every run whose registrations are safe, the pool is exact. -/
theorem sharing_exact {torch : Torch τ} {sha256 : List UInt8 → String} {s : Served τ}
    (run : (sharing torch sha256).Reaches
      (fun s call => safeCall torch sha256 s call = true) s) : Exact torch s := by
  have sound := Sound.of_reaches run
  refine ⟨?served, sound.counted.counted, ?emptied⟩
  case served =>
    intro modelName stateDict registered layerName tensor inside
    obtain ⟨fingerprints, listed, serves⟩ := sound.serves modelName stateDict registered
    obtain ⟨key, kept, leads, holds, same⟩ := serves layerName tensor inside
    refine ⟨kept, ?_, same⟩
    simpa [SharedLayerPool.getSharedTensor, Dict.getD, listed, leads, layerTensor] using holds
  case emptied =>
    intro none
    apply List.eq_nil_iff_forall_not_mem.mpr
    rintro ⟨key, entry⟩ member
    -- an entry has a reference, and so a model
    have inside := (sound.counted.present key).mpr ⟨entry, (Dict.mem_entries_iff _ _ _).mp member⟩
    obtain ⟨modelName, fingerprints, listed, -⟩ := mem_references_iff.mp inside
    rw [sound.models modelName (none modelName)] at listed
    cases listed

/-- A single number of four bytes, or the float with the bytes of `0x7fc00000`. -/
inductive Cell where
  | int32 (value : Nat)
  | nan
deriving DecidableEq

def Cell.numpyBytes : Cell → List UInt8
  | .int32 value => [value, value / 2 ^ 8, value / 2 ^ 16, value / 2 ^ 24].map UInt8.ofNat
  | .nan => [0x00, 0x00, 0xc0, 0x7f]

/-- `torch.equal`: a number equals itself, and NaN nothing. -/
def Cell.equal : Cell → Cell → Bool
  | .int32 a, .int32 b => a == b
  | _, _ => false

def cells : Torch Cell where
  shape _ := []
  dtype
    | .int32 _ => "torch.int32"
    | .nan => "torch.float32"
  elementSize _ := 4
  numpyBytes cell := some cell.numpyBytes
  equal a b := some (a.equal b)
  shape_of_equal _ _ _ := rfl

def written (bytes : List UInt8) : String := String.ofList (bytes.map fun b => Char.ofNat b.toNat)

def oneLayer (cell : Cell) : Dict String Cell := Dict.empty.set "x" cell

def sharedRun : List (Call Cell) :=
  [.registerModel "a" (oneLayer (.int32 5)), .registerModel "b" (oneLayer (.int32 5)),
    .unregisterModel "a"]

theorem sharing_exact_shared :
    Exact cells (sharedRun.foldl (sharing cells written).exec ⟨.create, ∅⟩) ∧
      (sharedRun.foldl (sharing cells written).exec ⟨.create, ∅⟩).pool.sharedLayers.size = 1 :=
  ⟨sharing_exact (.of_follows (.init rfl) sharedRun
    ⟨trivial, by decide +kernel, trivial, by decide +kernel, trivial, by decide +kernel, trivial⟩),
    by decide +kernel⟩

/-- The integer of `"c"` and a float NaN have the same bytes and so one fingerprint. Once `"b"` is
gone, the key minted for `"d"` is the one of `"c"`. -/
def mixedRun : List (Call Cell) :=
  [.registerModel "a" (oneLayer .nan), .registerModel "b" (oneLayer (.int32 5)),
    .registerModel "c" (oneLayer (.int32 0x7fc00000)), .unregisterModel "b",
    .registerModel "d" (oneLayer .nan)]

/-- The pool serves a model the weights of another. -/
theorem sharing_mixes : ¬ ∀ s, (sharing cells written).Reachable s → Exact cells s := by
  intro always
  have reached : (sharing cells written).Reachable _ := .of_follows (.init rfl) mixedRun
    ⟨trivial, trivial, trivial, trivial, trivial, trivial, trivial, trivial, trivial, trivial,
      trivial⟩
  have registered : ((mixedRun.foldl (sharing cells written).exec
      ⟨.create, ∅⟩).registered.get? "c").bind (·.get? "x") = some (.int32 0x7fc00000) := by
    decide +kernel
  have given : (mixedRun.foldl (sharing cells written).exec
      ⟨.create, ∅⟩).pool.getSharedTensor "c" "x" = some .nan := by
    decide +kernel
  obtain ⟨stateDict, found, inside⟩ := Option.bind_eq_some_iff.mp registered
  obtain ⟨kept, served, -, dtype, -⟩ := (always _ reached).served "c" stateDict found "x" _ inside
  rw [given] at served
  obtain rfl := Option.some.inj served
  revert dtype
  decide

/-- A model registered again leaves an entry behind when it is gone. -/
example : ([.registerModel "a" (oneLayer (.int32 1)), .registerModel "a" (oneLayer (.int32 2)),
    .unregisterModel "a"].foldl (sharing cells written).exec
      ⟨.create, ∅⟩).pool.sharedLayers.size = 1 := by
  decide +kernel

end DistLLM.SharedLayers
