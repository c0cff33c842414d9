import Mathlib

/-!
# Tokens of STORE requests

The token of a request is an HMAC over its fields, joined by bars, and is bound to an expiry. The
verifier compares the expiry with its own clock and computes the token again. Node ids and values
travel in hexadecimal; keys are arbitrary texts. `δ` are the digests.
-/
namespace DistLLM.Kademlia.StoreToken

variable {δ : Type}

def ttl : Int := 300

def skew : Int := 300

/-- `bytes.hex()`. -/
def hex (bytes : List UInt8) : List Char :=
  bytes.flatMap fun b => [Nat.digitChar (b.toNat / 16), Nat.digitChar (b.toNat % 16)]

/-- What the token functions read of a peer. -/
structure Peer (δ : Type) where
  sharedSecret : List Char
  allowUnauthenticated : Bool
  /-- The hexadecimal SHA-256 HMAC of a text under a key. -/
  hmac : List Char → List Char → δ

def raw (nodeIdHex key valueHex : List Char) (expires : Int) : List Char :=
  nodeIdHex ++ '|' :: (key ++ '|' :: (valueHex ++ '|' :: expires.repr.toList))

/-- `_make_store_token`; `none` is the empty text. -/
def Peer.makeStoreToken (peer : Peer δ) (nodeIdHex key valueHex : List Char) (expires : Int) :
    Option δ :=
  if peer.sharedSecret = [] then none
  else some (peer.hmac peer.sharedSecret (raw nodeIdHex key valueHex expires))

variable [DecidableEq δ]

/-- `_verify_store_token` at a reading of the clock. `expires` is what `int` makes of the expiry
received, `none` where it raises; `int` of a clock reading is its floor. -/
def Peer.verifyStoreToken (peer : Peer δ) (nodeIdHex key valueHex : List Char) (token : Option δ)
    (expires : Option Int) (time : ℚ) : Bool :=
  if peer.sharedSecret = [] then peer.allowUnauthenticated
  else
    match expires with
    | none => false
    | some expiresInt =>
      let now := ⌊time⌋
      if expiresInt < now - skew ∨ now + skew < expiresInt then false
      else decide (peer.makeStoreToken nodeIdHex key valueHex expiresInt = token)

/-- The expiry and the token that `store` sends, at a reading of its clock. -/
def Peer.storeToken (peer : Peer δ) (nodeId : List UInt8) (key : List Char) (value : List UInt8)
    (time : ℚ) : Int × Option δ :=
  let expires := ⌊time⌋ + ttl
  (expires, peer.makeStoreToken (hex nodeId) key (hex value) expires)

theorem append_cons_inj {a : Char} {x y z w : List Char} (hx : a ∉ x) (hy : a ∉ y)
    (same : x ++ a :: z = y ++ a :: w) : x = y ∧ z = w := by
  induction x generalizing y with
  | nil =>
    cases y with
    | nil => exact ⟨rfl, (List.cons.inj same).2⟩
    | cons c rest => exact absurd (List.cons.inj same).1 fun here => hy (by simp [here])
  | cons b rest ih =>
    cases y with
    | nil => exact absurd (List.cons.inj same).1 fun here => hx (by simp [here])
    | cons c rest' =>
      obtain ⟨rfl, later⟩ := List.cons.inj same
      obtain ⟨rfl, rest⟩ := ih (fun here => hx (.tail _ here)) (fun here => hy (.tail _ here)) later
      exact ⟨rfl, rest⟩

theorem bar_not_mem_hex (bytes : List UInt8) : '|' ∉ hex bytes := by
  simp only [hex, List.mem_flatMap, List.mem_cons, List.not_mem_nil, or_false, not_exists, not_and]
  rintro b - (bar | bar) <;> exact Nat.digitChar_ne '|' (by decide) bar.symm

theorem bar_not_mem_repr (n : Int) : '|' ∉ n.repr.toList := by
  have digits (m : Nat) : '|' ∉ Nat.toDigits 10 m := fun bar =>
    absurd (Nat.isDigit_of_mem_toDigits (by decide) (by decide) bar) (by decide)
  cases n <;> simp [Int.repr, digits]

/-- The key may contain bars, the other fields do not: they are cut off at both ends. -/
theorem raw_inj {n n' k k' v v' : List Char} {e e' : Int} (hn : '|' ∉ n) (hn' : '|' ∉ n')
    (hv : '|' ∉ v) (hv' : '|' ∉ v') (same : raw n k v e = raw n' k' v' e') :
    n = n' ∧ k = k' ∧ v = v' ∧ e = e' := by
  obtain ⟨node, rest⟩ := append_cons_inj hn hn' same
  have mirrored := congrArg List.reverse rest
  simp only [List.reverse_append, List.reverse_cons, List.append_assoc, List.singleton_append]
    at mirrored
  obtain ⟨expiry, rest⟩ := append_cons_inj (by simpa using bar_not_mem_repr e)
    (by simpa using bar_not_mem_repr e') mirrored
  obtain ⟨value, key⟩ := append_cons_inj (by simpa using hv) (by simpa using hv') rest
  exact ⟨node, List.reverse_injective key, List.reverse_injective value,
    Int.repr_injective (String.toList_injective (List.reverse_injective expiry))⟩

variable {issuer peer : Peer δ} {issued time : ℚ}

/-- At a moment within the lifetime, when the clock of the issuer reads `clock`, the clock of the
peer reads `time`, and the two differ by at most the skew allowed. -/
def Due (issued time : ℚ) : Prop :=
  ∃ clock : ℚ, issued ≤ clock ∧ clock ≤ ⌊issued⌋ + ttl ∧ |time - clock| ≤ skew

/-- The peer accepts the token for the fields it was issued for, and at no time for others. Of the
fields received, node id and value are decoded as hexadecimal and thus have no bar. -/
def Honoured (issuer peer : Peer δ) (nodeId : List UInt8) (key : List Char) (value : List UInt8)
    (issued time : ℚ) : Prop :=
  let sent := issuer.storeToken nodeId key value issued
  peer.verifyStoreToken (hex nodeId) key (hex value) sent.2 (some sent.1) time = true ∧
    ∀ node' key' value' expires' time', '|' ∉ node' → '|' ∉ value' →
      peer.verifyStoreToken node' key' value' sent.2 (some expires') time' = true →
        node' = hex nodeId ∧ key' = key ∧ value' = hex value ∧ expires' = sent.1

/-- The secret and the digests are those of the issuer, and no two texts have one digest. -/
structure Shares (issuer peer : Peer δ) : Prop where
  secret : peer.sharedSecret = issuer.sharedSecret
  hmac : peer.hmac = issuer.hmac
  configured : issuer.sharedSecret ≠ []
  collisionFree : Function.Injective (issuer.hmac issuer.sharedSecret)

theorem verify_iff (shares : Shares issuer peer) {nodeId value : List UInt8} {key : List Char}
    {node' key' value' : List Char} {expires' : Int} :
    peer.verifyStoreToken node' key' value' (issuer.storeToken nodeId key value issued).2
        (some expires') time = true ↔ (⌊time⌋ - skew ≤ expires' ∧ expires' ≤ ⌊time⌋ + skew) ∧
        raw node' key' value' expires' = raw (hex nodeId) key (hex value) (⌊issued⌋ + ttl) := by
  simp only [Peer.verifyStoreToken, Peer.storeToken, Peer.makeStoreToken, shares.secret,
    shares.hmac, shares.configured, if_false, Option.some.injEq, shares.collisionFree.eq_iff]
  split
  next outside => simp only [Bool.false_eq_true, false_iff]; omega
  next inside =>
    rw [decide_eq_true_iff]
    exact (and_iff_right (by omega)).symm

/-- **Tokens and clocks.** A token is honoured if and only if the clock of the peer has reached the
second in which it was issued: the lifetime is not added to the upper bound of the expiry. -/
theorem storeToken_honoured (shares : Shares issuer peer) (due : Due issued time)
    (nodeId : List UInt8) (key : List Char) (value : List UInt8) :
    Honoured issuer peer nodeId key value issued time ↔ ⌊issued⌋ ≤ ⌊time⌋ := by
  obtain ⟨clock, _, alive, near⟩ := due
  -- no clock within the skew is too late
  have late : ⌊time⌋ ≤ ⌊issued⌋ + ttl + skew := by
    have bound : time ≤ ((⌊issued⌋ + ttl + skew : Int) : ℚ) := by
      have := (abs_le.mp near).2
      push_cast
      linarith
    exact_mod_cast (Int.floor_le time).trans bound
  apply (and_iff_left fun _ _ _ _ _ node value' accepted => raw_inj node (bar_not_mem_hex nodeId)
    value' (bar_not_mem_hex value) ((verify_iff shares).mp accepted).2).trans
  rw [verify_iff shares]
  simp only [Peer.storeToken, ttl, skew, and_true] at late ⊢
  omega

/-- Two clocks that agree, ten seconds after the token was issued. -/
theorem storeToken_honoured_later : ∃ peer : Peer (List Char × List Char),
      Honoured peer peer [171] ['k'] [1, 2] 1000 1010 := by
  let peer : Peer (List Char × List Char) := ⟨['s'], false, Prod.mk⟩
  have shares : Shares peer peer := ⟨rfl, rfl, by decide, fun _ _ same => (Prod.mk.inj same).2⟩
  have due : Due 1000 1010 := ⟨1010, by norm_num, by norm_num [ttl], by norm_num [skew]⟩
  exact ⟨peer, (storeToken_honoured shares due _ _ _).mpr (by norm_num)⟩

/-- The clock of the peer is a second behind when the token is issued. -/
theorem storeToken_refused :
    ¬ ∀ (peer : Peer (List Char × List Char)) (issued time : ℚ), Shares peer peer →
      Due issued time → Honoured peer peer [171] ['k'] [1, 2] issued time := by
  intro all
  let peer : Peer (List Char × List Char) := ⟨['s'], false, Prod.mk⟩
  have honoured := all peer 1000 999 ⟨rfl, rfl, by decide, fun _ _ same => (Prod.mk.inj same).2⟩
    ⟨1000, le_rfl, by norm_num [ttl], by norm_num [skew]⟩
  have accepted := honoured.1
  norm_num [Peer.verifyStoreToken, Peer.storeToken, peer, ttl, skew] at accepted

end DistLLM.Kademlia.StoreToken
