import DistLLM.Library.Machine
import DistLLM.Library.RefCounts

/-!
# The shared layer pool

`SharedLayerPool`: the layers of several models, one entry for equal tensors. An entry is found by a
truncated fingerprint, counted, and dropped with its last reference; a tensor that differs from the
one its fingerprint leads to gets a key of its own.
-/
namespace DistLLM.SharedLayers

open Library

/-- What the pool asks of a tensor. `numpyBytes` raises for a type that NumPy does not have, and
`torch.equal` for tensors it cannot compare; tensors that it finds equal have the same size. -/
structure Torch (τ : Type) where
  shape : τ → List Nat
  dtype : τ → String
  elementSize : τ → Nat
  numpyBytes : τ → Option (List UInt8)
  equal : τ → τ → Option Bool
  shape_of_equal : ∀ s t, equal s t = some true → shape s = shape t

/-- Tensors of the same shape and dtype that are the same or equal. -/
def Torch.Same {τ : Type} (torch : Torch τ) (s t : τ) : Prop :=
  torch.shape s = torch.shape t ∧ torch.dtype s = torch.dtype t ∧
    (s = t ∨ torch.equal s t = some true)

def tupleText : List Nat → String
  | [] => "()"
  | [n] => "(" ++ toString n ++ ",)"
  | ns => "(" ++ String.intercalate ", " (ns.map toString) ++ ")"

/-! ### The pool -/

structure LayerFingerprint where
  layerName : String
  shape : List Nat
  dtype : String
  paramHash : String
  paramCount : Nat
  memoryBytes : Nat
deriving DecidableEq

/-- A layer that is shared across multiple models. -/
structure SharedLayer (τ : Type) where
  fingerprint : LayerFingerprint
  tensor : Option τ
  refCount : Int
  modelNames : List String

/-- `sharedLayers` has an entry for each key, `modelLayers` the key of each layer of a model. -/
structure SharedLayerPool (τ : Type) where
  sharedLayers : Dict String (SharedLayer τ)
  modelLayers : Dict String (Dict String String)
  totalSharedBytes : Nat
  totalModels : Nat

structure SharingStats where
  totalLayers : Nat
  sharedLayers : Nat
  uniqueLayers : Nat
  savedBytes : Nat
deriving DecidableEq

/-- A registration on its way through the state dict. -/
structure Registration (τ : Type) where
  sharedLayers : Dict String (SharedLayer τ)
  modelFingerprints : Dict String String
  sharedCount : Nat
  savedBytes : Nat

variable {τ : Type}

namespace SharedLayerPool

def create : SharedLayerPool τ := ⟨∅, ∅, 0, 0⟩

section Torch

variable (torch : Torch τ) (sha256 : List UInt8 → String)

/-- The first sixteen digits of the digest of the bytes and the shape. -/
def fingerprintLayer (layerName : String) (tensor : τ) : Option LayerFingerprint := do
  let raw ← torch.numpyBytes tensor
  let hashInput := raw ++ (tupleText (torch.shape tensor)).toUTF8.toList
  let numel := (torch.shape tensor).prod
  some {
    layerName := layerName
    shape := torch.shape tensor
    dtype := torch.dtype tensor
    paramHash := String.ofList ((sha256 hashInput).toList.take 16)
    paramCount := numel
    memoryBytes := numel * torch.elementSize tensor }

/-- The key of a layer whose fingerprint leads to a different tensor. -/
def mintedKey (sharedLayers : Dict String (SharedLayer τ)) (paramHash : String) : String :=
  paramHash ++ ":" ++ toString sharedLayers.size

def share (shared : SharedLayer τ) (modelName : String) : SharedLayer τ :=
  { shared with
    refCount := shared.refCount + 1
    modelNames := if modelName ∈ shared.modelNames then shared.modelNames
      else shared.modelNames ++ [modelName] }

variable (modelName : String)

/-- A layer that shares the entry its fingerprint leads to. -/
def shareEntry (r : Registration τ) (fp : LayerFingerprint)
    (entry : SharedLayer τ) : Registration τ :=
  { sharedLayers := r.sharedLayers.set fp.paramHash (share entry modelName)
    modelFingerprints := r.modelFingerprints.set fp.layerName fp.paramHash
    sharedCount := r.sharedCount + 1
    savedBytes := r.savedBytes + fp.memoryBytes }

def addEntry (r : Registration τ) (fp : LayerFingerprint) (tensor : τ)
    (key : String) : Registration τ :=
  { r with
    sharedLayers := r.sharedLayers.set key ⟨fp, some tensor, 1, [modelName]⟩
    modelFingerprints := r.modelFingerprints.set fp.layerName key }

/-- Whether the tensor of an entry compares equal; it may raise. -/
def matchesTensor (shared : Option (SharedLayer τ)) (tensor : τ) : Option Bool :=
  match shared.bind (·.tensor) with
  | none => some false
  | some held => torch.equal held tensor

/-- The loop body of `register_model`: share the entry that matches, or make a new one. -/
def registerLayer (r : Registration τ) (layerName : String) (tensor : τ) :
    Option (Registration τ) := do
  let fp ← fingerprintLayer torch sha256 layerName tensor
  let shared := r.sharedLayers.get? fp.paramHash
  let same ← matchesTensor torch shared tensor
  match shared, same with
  | some entry, true => some (shareEntry modelName r fp entry)
  | some _, false =>
    some (addEntry modelName r fp tensor (mintedKey r.sharedLayers fp.paramHash))
  | none, _ => some (addEntry modelName r fp tensor fp.paramHash)

/-- The loop of `register_model`: what it has changed, and whether it came to its end. -/
def registerLayers (modelName : String) :
    Registration τ → List (String × τ) → Registration τ × Bool
  | r, [] => (r, true)
  | r, (layerName, tensor) :: rest =>
    match registerLayer torch sha256 modelName r layerName tensor with
    | none => (r, false)
    | some r => registerLayers modelName r rest

/-- `register_model`: without statistics it has raised, and keeps what it has changed. -/
def registerModel (pool : SharedLayerPool τ) (modelName : String) (stateDict : Dict String τ) :
    Option SharingStats × SharedLayerPool τ :=
  match registerLayers torch sha256 modelName ⟨pool.sharedLayers, ∅, 0, 0⟩ stateDict.entries with
  | (r, false) =>
    (none, { pool with sharedLayers := r.sharedLayers, totalModels := pool.totalModels + 1 })
  | (r, true) =>
    (some ⟨stateDict.size, r.sharedCount, stateDict.size - r.sharedCount, r.savedBytes⟩,
      { sharedLayers := r.sharedLayers
        modelLayers := pool.modelLayers.set modelName r.modelFingerprints
        totalSharedBytes := pool.totalSharedBytes + r.savedBytes
        totalModels := pool.totalModels + 1 })

end Torch

/-- The loop body of `unregister_model`: give up one reference. -/
def releaseLayer (modelName : String) (sharedLayers : Dict String (SharedLayer τ))
    (fpHash : String) : Dict String (SharedLayer τ) :=
  match sharedLayers.get? fpHash with
  | none => sharedLayers
  | some shared =>
    if shared.refCount - 1 ≤ 0 then sharedLayers.filterKeys fun key => decide (key ≠ fpHash)
    else
      sharedLayers.set fpHash { shared with
        refCount := shared.refCount - 1
        modelNames := shared.modelNames.erase modelName }

def unregisterModel (pool : SharedLayerPool τ) (modelName : String) : SharedLayerPool τ :=
  let fingerprints := pool.modelLayers.getD modelName ∅
  { pool with
    sharedLayers := fingerprints.values.foldl (releaseLayer modelName) pool.sharedLayers
    modelLayers := pool.modelLayers.filterKeys fun name => decide (name ≠ modelName)
    totalModels := pool.totalModels - 1 }

def getSharedTensor (pool : SharedLayerPool τ) (modelName layerName : String) : Option τ := do
  let fpHash ← (pool.modelLayers.getD modelName ∅).get? layerName
  let shared ← pool.sharedLayers.get? fpHash
  shared.tensor

end SharedLayerPool

/-- The pool and, beside it, the state dict that each model was last registered with. -/
structure Served (τ : Type) where
  pool : SharedLayerPool τ
  registered : Dict String (Dict String τ)

inductive Call (τ : Type) where
  | registerModel (modelName : String) (stateDict : Dict String τ)
  | unregisterModel (modelName : String)

/-- One call on the pool; a registration that raises registers nothing. -/
def Served.exec (torch : Torch τ) (sha256 : List UInt8 → String) (s : Served τ) :
    Call τ → Served τ
  | .registerModel modelName stateDict =>
    match s.pool.registerModel torch sha256 modelName stateDict with
    | (none, pool) => { s with pool := pool }
    | (some _, pool) => ⟨pool, s.registered.set modelName stateDict⟩
  | .unregisterModel modelName =>
    ⟨s.pool.unregisterModel modelName,
      s.registered.filterKeys fun name => decide (name ≠ modelName)⟩

def sharing (torch : Torch τ) (sha256 : List UInt8 → String) : Machine (Served τ) (Call τ) where
  init s := s = ⟨.create, ∅⟩
  enabled _ _ := True
  exec := Served.exec torch sha256

end DistLLM.SharedLayers
