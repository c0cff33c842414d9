import DistLLM.ConstrainedDecoder.Fsm
import DistLLM.Library.Dict
import DistLLM.Library.Machine
import DistLLM.Library.Regex

/-!
# The machine of a regular expression

`RegexFSM` of the constrained decoder, over a compiled expression. It looks one character ahead, and
takes any text with a match at its beginning.
-/
namespace DistLLM.ConstrainedDecoder

open Library

/-- Whether an expression matches a text as a whole, and where a match at its beginning ends. -/
structure Compiled where
  fullmatch : List Char → Bool
  matchEnd : List Char → Option Nat

def printables : List Char := (List.range' 32 95).map Char.ofNat

def Compiled.isValidPrefix (compiled : Compiled) (text : List Char) : Bool :=
  compiled.fullmatch text || compiled.matchEnd text == some text.length ||
    printables.any fun b =>
      (compiled.matchEnd (text ++ [b])).isSome || compiled.fullmatch (text ++ [b])

structure RegexFSM where
  compiled : Compiled
  generated : List Char := []
  allowedCache : Dict (List Char) (List Char) := ∅
  maxCacheSize : Nat := 10000

namespace RegexFSM

variable (fsm : RegexFSM)

def transition (byteValue : Int) : RegexFSM :=
  let ch := if 0 ≤ byteValue ∧ byteValue < 256 then [Char.ofNat byteValue.toNat] else []
  { fsm with generated := fsm.generated ++ ch }

def getAllowedBytes : List Char × RegexFSM :=
  match fsm.allowedCache.get? fsm.generated with
  | some cached => (cached, fsm)
  | none =>
    let allowed := printables.filter fun b => fsm.compiled.isValidPrefix (fsm.generated ++ [b])
    (allowed,
      if fsm.allowedCache.size < fsm.maxCacheSize then
        { fsm with allowedCache := fsm.allowedCache.set fsm.generated allowed }
      else fsm)

def isAccepting : Bool := fsm.compiled.fullmatch fsm.generated

def reset : RegexFSM := { fsm with generated := [] }

end RegexFSM

inductive RegexAction
  | transition (byteValue : Int)
  | getAllowedBytes
  | reset

def regexMachine (compiled : Compiled) : Machine RegexFSM RegexAction where
  init fsm := fsm = { compiled }
  enabled _ _ := True
  exec fsm
    | .transition byteValue => fsm.transition byteValue
    | .getAllowedBytes => fsm.getAllowedBytes.2
    | .reset => fsm.reset

structure Compiled.Decides (compiled : Compiled) (L : Language Char) : Prop where
  whole : ∀ t, compiled.fullmatch t = true ↔ t ∈ L
  found : ∀ t, (compiled.matchEnd t).isSome = true ↔ ∃ u, u <+: t ∧ u ∈ L
  ends : ∀ t n, compiled.matchEnd t = some n → n ≤ t.length ∧ t.take n ∈ L

/-- A printable text of the language goes on from here. -/
def Viable (L : Language Char) (w : List Char) : Prop :=
  ∃ s ∈ L, w <+: s ∧ ∀ c ∈ s, isPrintable c = true

/-- The text is in the language, or is one printable character short of that. -/
def Soon (L : Language Char) (w : List Char) : Prop :=
  w ∈ L ∨ ∃ c, isPrintable c = true ∧ w ++ [c] ∈ L

def HasMatch (L : Language Char) (w : List Char) : Prop := ∃ u, u <+: w ∧ u ∈ L

/-- Behind a text with a match at its beginning, every printable character can still lead to a
match. Behind any other, only those can after which a match is at most one character away, and the
text is printable if there are any. -/
structure Exact (L : Language Char) (w : List Char) : Prop where
  matched : HasMatch L w → ∀ b, isPrintable b = true → Viable L (w ++ [b])
  near : ¬ HasMatch L w → ∀ b, isPrintable b = true → Viable L (w ++ [b]) → Soon L (w ++ [b])
  plain : ¬ HasMatch L w → ∀ b, isPrintable b = true → Soon L (w ++ [b]) →
    ∀ c ∈ w, isPrintable c = true

/-- The bytes that are allowed are the viable ones, and texts of the language are accepted. -/
structure RegexFSM.Serves (fsm : RegexFSM) (L : Language Char) : Prop where
  allowed : ∀ b, isPrintable b = true →
    (b ∈ fsm.getAllowedBytes.1 ↔ Viable L (fsm.generated ++ [b]))
  accepting : fsm.isAccepting = true ↔ fsm.generated ∈ L

/-- Bytes are only taken from what is allowed, and where that is exact. -/
def Chooses (L : Language Char) (fsm : RegexFSM) : RegexAction → Prop
  | .transition byteValue => Exact L fsm.generated ∧ ∃ b ∈ fsm.getAllowedBytes.1,
      byteValue = b.toNat
  | _ => True

theorem mem_printables {b : Char} : b ∈ printables ↔ isPrintable b = true := by
  simp only [printables, List.mem_map, List.mem_range'_1, isPrintable, Bool.and_eq_true,
    decide_eq_true_eq]
  constructor
  · rintro ⟨n, ⟨low, high⟩, rfl⟩
    have codes : ∀ n < 127, (Char.ofNat n).toNat = n := by decide
    rw [codes n (by omega)]
    omega
  · rintro ⟨low, high⟩
    exact ⟨b.toNat, ⟨low, by omega⟩, Char.ofNat_toNat b⟩

section Exactness

variable {L : Language Char} {compiled : Compiled} {fsm : RegexFSM} {w : List Char} {b : Char}

theorem hasMatch_append : HasMatch L (w ++ [b]) ↔ HasMatch L w ∨ w ++ [b] ∈ L := by
  constructor
  · rintro ⟨u, start, matched⟩
    rcases List.prefix_concat_iff.mp start with rfl | before
    · exact .inr matched
    · exact .inl ⟨u, before, matched⟩
  · rintro (⟨u, start, matched⟩ | matched)
    · exact ⟨u, start.trans (List.prefix_append ..), matched⟩
    · exact ⟨_, List.prefix_rfl, matched⟩

theorem isValidPrefix_iff (decides : compiled.Decides L) : compiled.isValidPrefix w = true ↔
      HasMatch L w ∨ ∃ c, isPrintable c = true ∧ w ++ [c] ∈ L := by
  have ends : (compiled.matchEnd w == some w.length) = true → w ∈ L := by
    intro here
    have taken := (decides.ends w _ (eq_of_beq here)).2
    rwa [List.take_length] at taken
  have further (c : Char) : ((compiled.matchEnd (w ++ [c])).isSome ||
      compiled.fullmatch (w ++ [c])) = true ↔ HasMatch L w ∨ w ++ [c] ∈ L := by
    rw [Bool.or_eq_true, decides.found, decides.whole, ← HasMatch, hasMatch_append, or_assoc,
      or_self]
  simp only [Compiled.isValidPrefix, Bool.or_eq_true, List.any_eq_true, mem_printables]
  constructor
  · rintro ((whole | here) | ⟨c, printable, found⟩)
    · exact .inl ⟨w, List.prefix_rfl, (decides.whole w).mp whole⟩
    · exact .inl ⟨w, List.prefix_rfl, ends here⟩
    · rcases (further c).mp (Bool.or_eq_true .. |>.mpr found) with before | later
      · exact .inl before
      · exact .inr ⟨c, printable, later⟩
  · rintro (before | ⟨c, printable, later⟩)
    · exact .inr ⟨' ', by decide, Bool.or_eq_true .. |>.mp ((further ' ').mpr (.inl before))⟩
    · exact .inr ⟨c, printable, Bool.or_eq_true .. |>.mp ((further c).mpr (.inr later))⟩

/-! ### The cache -/

/-- The cache has what would be computed. -/
structure RegexFSM.Cached (compiled : Compiled) (fsm : RegexFSM) : Prop where
  same : fsm.compiled = compiled
  sound : ∀ w allowed, fsm.allowedCache.get? w = some allowed →
    allowed = printables.filter fun b => compiled.isValidPrefix (w ++ [b])

theorem RegexFSM.Cached.getAllowedBytes (cached : fsm.Cached compiled) : fsm.getAllowedBytes.1 =
        printables.filter (fun b => compiled.isValidPrefix (fsm.generated ++ [b])) ∧
      fsm.getAllowedBytes.2.Cached compiled ∧ fsm.getAllowedBytes.2.generated = fsm.generated := by
  obtain ⟨rfl, sound⟩ := cached
  unfold RegexFSM.getAllowedBytes
  split
  next allowed found => exact ⟨sound _ _ found, ⟨rfl, sound⟩, rfl⟩
  next =>
    dsimp only
    split
    next =>
      refine ⟨rfl, ⟨rfl, fun w allowed found => ?_⟩, rfl⟩
      rw [Dict.get?_set] at found
      split at found
      next same =>
        cases found
        rw [← same]
      next => exact sound w allowed found
    next => exact ⟨rfl, ⟨rfl, sound⟩, rfl⟩

theorem cached_of_reaches {ok : RegexFSM → RegexAction → Prop}
    (reached : (regexMachine compiled).Reaches ok fsm) : fsm.Cached compiled := by
  apply Machine.Reaches.invariant (I := RegexFSM.Cached compiled) _ _ reached
  · rintro _ rfl
    exact ⟨rfl, fun _ _ => nofun⟩
  · intro fsm act cached _ _
    cases act with
    | transition | reset => exact ⟨cached.same, cached.sound⟩
    | getAllowedBytes => exact cached.getAllowedBytes.2.1

theorem mem_allowed_iff (cached : fsm.Cached compiled) : b ∈ fsm.getAllowedBytes.1 ↔
      isPrintable b = true ∧ compiled.isValidPrefix (fsm.generated ++ [b]) = true := by
  rw [cached.getAllowedBytes.1, List.mem_filter, mem_printables]

theorem serves_iff (cached : fsm.Cached compiled) (decides : compiled.Decides L) :
    fsm.Serves L ↔ Exact L fsm.generated := by
  have valid (b : Char) : compiled.isValidPrefix (fsm.generated ++ [b]) = true ↔
      HasMatch L fsm.generated ∨ Soon L (fsm.generated ++ [b]) := by
    rw [isValidPrefix_iff decides, hasMatch_append, or_assoc, Soon]
  constructor
  · intro serves
    have viable {b : Char} (printable : isPrintable b = true) :=
      (serves.allowed b printable).symm.trans
        ((mem_allowed_iff cached).trans ((and_iff_right printable).trans (valid b)))
    refine ⟨fun matched b printable => (viable printable).mpr (.inl matched),
      fun none b printable goes => ((viable printable).mp goes).resolve_left none, ?_⟩
    intro _ b printable soon c member
    obtain ⟨s, -, start, plain⟩ := (viable printable).mpr (.inr soon)
    exact plain c (start.subset (List.mem_append_left _ member))
  · intro exact
    have whole := decides.whole fsm.generated
    rw [← cached.same] at whole
    refine ⟨fun b printable => ?_, whole⟩
    rw [mem_allowed_iff cached, and_iff_right printable, valid]
    by_cases matched : HasMatch L fsm.generated
    · exact iff_of_true (.inl matched) (exact.matched matched b printable)
    · rw [or_iff_right matched]
      refine ⟨fun soon => ?_, exact.near matched b printable⟩
      have plain : ∀ c ∈ fsm.generated ++ [b], isPrintable c = true := by
        intro c member
        rcases List.mem_append.mp member with old | new
        · exact exact.plain matched b printable soon c old
        · exact List.mem_singleton.mp new ▸ printable
      rcases soon with here | ⟨c, last, later⟩
      · exact ⟨_, here, List.prefix_rfl, plain⟩
      · refine ⟨_, later, List.prefix_append .., fun d member => ?_⟩
        rcases List.mem_append.mp member with old | new
        · exact plain d old
        · exact List.mem_singleton.mp new ▸ last

end Exactness

/-- **The bytes that a regular expression allows.** In every state a run can reach, exactly the
viable bytes are allowed if and only if a match is never more than one character ahead and none lies
behind that cannot be extended by every character. Runs that choose among the allowed bytes of such
states stay within the beginnings of printable matches. -/
theorem regex_allows_viable_iff {r : Regex} {compiled : Compiled}
    (decides : compiled.Decides r.lang) : (∀ fsm, (regexMachine compiled).Reachable fsm →
      (fsm.Serves r.lang ↔ Exact r.lang fsm.generated)) ∧
    ∀ fsm, (regexMachine compiled).Reaches (Chooses r.lang) fsm →
      fsm.generated = [] ∨ Viable r.lang fsm.generated := by
  refine ⟨fun fsm reached => serves_iff (cached_of_reaches reached) decides, fun fsm reached => ?_⟩
  suffices both : fsm.Cached compiled ∧ (fsm.generated = [] ∨ Viable r.lang fsm.generated) from
    both.2
  apply Machine.Reaches.invariant (I := fun fsm => fsm.Cached compiled ∧
    (fsm.generated = [] ∨ Viable r.lang fsm.generated)) _ _ reached
  · rintro _ rfl
    exact ⟨⟨rfl, fun _ _ => nofun⟩, .inl rfl⟩
  · rintro fsm act ⟨cached, viable⟩ - chooses
    cases act with
    | transition byteValue =>
      obtain ⟨exact, b, allowed, rfl⟩ := chooses
      have printable := ((mem_allowed_iff cached).mp allowed).1
      have byte : (b.toNat : Int) < 256 := by
        simp only [isPrintable, Bool.and_eq_true, decide_eq_true_eq] at printable
        omega
      have after : (fsm.transition b.toNat).generated = fsm.generated ++ [b] := by
        simp [RegexFSM.transition, byte]
      refine ⟨⟨cached.same, cached.sound⟩, .inr ?_⟩
      show Viable r.lang (fsm.transition b.toNat).generated
      rw [after]
      exact (((serves_iff cached decides).mpr exact).allowed b printable).mp allowed
    | getAllowedBytes =>
      obtain ⟨-, cached', same⟩ := cached.getAllowedBytes
      refine ⟨cached', ?_⟩
      show fsm.getAllowedBytes.2.generated = [] ∨ Viable r.lang fsm.getAllowedBytes.2.generated
      rwa [same]
    | reset => exact ⟨⟨cached.same, cached.sound⟩, .inl rfl⟩

def wordRegex (u : List Char) : Regex := u.foldr (fun c r => .seq (.cls (.ofChars false [c])) r) .eps

theorem lang_wordRegex (u : List Char) : (wordRegex u).lang = {u} := by
  induction u with
  | nil => rfl
  | cons c u ih =>
    have first : (wordRegex (c :: u)).lang = {[c]} * {u} := by
      rw [← ih, ← CharClass.lang_chr]
      rfl
    exact first.trans Set.image2_singleton

def wordCompiled (u : List Char) : Compiled where
  fullmatch t := t == u
  matchEnd t := if u.isPrefixOf t then some u.length else none

theorem wordCompiled_decides (u : List Char) : (wordCompiled u).Decides (wordRegex u).lang := by
  rw [lang_wordRegex]
  refine ⟨fun t => beq_iff_eq, fun t => ?_, fun t n found => ?_⟩
  · have only : (∃ v, v <+: t ∧ v ∈ ({u} : Language Char)) ↔ u <+: t := exists_eq_right
    rw [only]
    by_cases start : u <+: t <;> simp [wordCompiled, start]
  · simp only [wordCompiled, Option.ite_none_right_eq_some, List.isPrefixOf_iff_prefix,
      Option.some.injEq] at found
    obtain ⟨start, rfl⟩ := found
    exact ⟨start.length_le, (List.prefix_iff_eq_take.mp start).symm⟩

/-- Before a word of two characters only the first one is allowed. -/
theorem regex_allows_viable_word :
    RegexFSM.Serves { compiled := wordCompiled ['a', 'b'] } (wordRegex ['a', 'b']).lang := by
  refine ((regex_allows_viable_iff (wordCompiled_decides _)).1 _ (.init rfl)).mpr ?_
  rw [lang_wordRegex]
  have none : ¬ HasMatch {['a', 'b']} [] := by
    rintro ⟨u, start, rfl⟩
    exact absurd (List.prefix_nil.mp start) (by simp)
  refine ⟨fun matched => absurd matched none, fun _ b _ => ?_, fun _ _ _ _ => nofun⟩
  rintro ⟨s, rfl, start, -⟩
  obtain rfl : b = 'a' := by simpa using (List.cons_prefix_cons.mp start).1
  exact .inr ⟨'b', by decide, rfl⟩

/-- A word of three characters is never begun, and when it is complete anything may follow. -/
theorem word_never_begun : ¬ ∀ (r : Regex) (compiled : Compiled), compiled.Decides r.lang →
      ∀ fsm, (regexMachine compiled).Reachable fsm → fsm.Serves r.lang := by
  intro always
  have serves := always _ _ (wordCompiled_decides ['a', 'b', 'c']) _ (.init rfl)
  have viable : Viable (wordRegex ['a', 'b', 'c']).lang ['a'] :=
    ⟨['a', 'b', 'c'], by rw [lang_wordRegex]; rfl, ⟨['b', 'c'], rfl⟩, by simp [isPrintable]⟩
  have allowed := (serves.allowed 'a' (by decide)).mpr viable
  exact absurd allowed (by decide)

end DistLLM.ConstrainedDecoder
