import DistLLM.Library.Gbnf

/-!
# What a GBNF text tells about its expression

A scan that knows only quotes, classes and brackets finds out whether a text has several
alternatives, and rejects a colon outside of quotes. The first literal or reference of a text is the
first item of whatever expression the text spells.
-/
namespace DistLLM.Library.Gbnf

open Json.CharLists

variable {t : List Char}

/-! ### Scanning -/

inductive ScanMode
  | out
  | lit
  | litEscape
  | cls
  | clsEscape
  deriving DecidableEq, Repr

structure Scan where
  mode : ScanMode := .out
  depth : Nat := 0
  /-- Some alternative has ended outside of brackets. -/
  bar : Bool := false
  deriving DecidableEq, Repr

namespace Scan

def step (s : Scan) (c : Char) : Option Scan :=
  match s.mode with
  | .out =>
    if c = '"' then some { s with mode := .lit }
    else if c = '[' then some { s with mode := .cls }
    else if c = '(' then some { s with depth := s.depth + 1 }
    else if c = ')' then some { s with depth := s.depth - 1 }
    else if c = '|' then some { s with bar := s.bar || s.depth == 0 }
    else if c = ':' then none
    else some s
  | .lit =>
    if c = '\\' then some { s with mode := .litEscape }
    else if c = '"' then some { s with mode := .out }
    else some s
  | .litEscape => some { s with mode := .lit }
  | .cls =>
    if c = '\\' then some { s with mode := .clsEscape }
    else if c = ']' then some { s with mode := .out }
    else some s
  | .clsEscape => some { s with mode := .cls }

def scan (s : Scan) (t : List Char) : Option Scan := t.foldlM step s

variable {s : Scan} {t : List Char}

@[simp] theorem scan_nil : s.scan [] = some s := rfl

theorem scan_cons (c : Char) : s.scan (c :: t) = (s.step c).bind fun s => s.scan t := rfl

theorem scan_append (t' : List Char) : s.scan (t ++ t') = (s.scan t).bind fun s => s.scan t' :=
  List.foldlM_append ..

theorem scan_of_still (still : ∀ c ∈ t, s.step c = some s) : s.scan t = some s := by
  induction t with
  | nil => rfl
  | cons c t ih =>
    rw [scan_cons, still c List.mem_cons_self, Option.bind_some,
      ih fun c member => still c (List.mem_cons_of_mem _ member)]

end Scan

open Scan

/-- Text between quotes: no quote without a backslash before it. -/
inductive Quoted : List Char → Prop
  | nil : Quoted []
  | raw {c t} : c ≠ '"' → c ≠ '\\' → Quoted t → Quoted (c :: t)
  | escaped {c t} : Quoted t → Quoted ('\\' :: c :: t)

variable {x s : List Char}

namespace Quoted

theorem append {t : List Char} (first : Quoted s) (second : Quoted t) : Quoted (s ++ t) := by
  induction first with
  | nil => exact second
  | raw quote backslash _ ih => exact .raw quote backslash ih
  | escaped _ ih => exact .escaped ih

theorem of_raw (raw : ∀ c ∈ t, c ≠ '"' ∧ c ≠ '\\') : Quoted t := by
  induction t with
  | nil => exact .nil
  | cons c t ih =>
    have here := raw c List.mem_cons_self
    exact .raw here.1 here.2 (ih fun c member => raw c (List.mem_cons_of_mem _ member))

theorem unique {y r r' : List Char} (first : Quoted x) (second : Quoted y)
    (same : x ++ '"' :: r = y ++ '"' :: r') : x = y ∧ r = r' := by
  induction first generalizing y with
  | nil =>
    cases second with
    | nil => exact ⟨rfl, (List.cons.inj same).2⟩
    | raw quote _ _ => exact absurd (List.cons.inj same).1.symm quote
    | escaped _ => cases (List.cons.inj same).1
  | raw quote backslash _ ih =>
    cases second with
    | nil => exact absurd (List.cons.inj same).1 quote
    | raw _ _ second =>
      obtain ⟨rfl, later⟩ := List.cons.inj same
      obtain ⟨rfl, rest⟩ := ih second later
      exact ⟨rfl, rest⟩
    | escaped _ => exact absurd (List.cons.inj same).1 backslash
  | escaped _ ih =>
    cases second with
    | nil => cases (List.cons.inj same).1
    | raw _ backslash _ => exact absurd (List.cons.inj same).1.symm backslash
    | escaped second =>
      obtain ⟨rfl, later⟩ := List.cons.inj (List.cons.inj same).2
      obtain ⟨rfl, rest⟩ := ih second later
      exact ⟨rfl, rest⟩

theorem scan {t : List Char} (quoted : Quoted t) (depth : Nat) (bar : Bool) :
    Scan.scan ⟨.lit, depth, bar⟩ t = some ⟨.lit, depth, bar⟩ := by
  induction quoted with
  | nil => rfl
  | raw quote backslash _ ih =>
    rw [scan_cons]
    simpa [step, quote, backslash] using ih
  | escaped _ ih =>
    rw [scan_cons]
    exact ih

end Quoted

theorem quoted_hex {digits : List Char} (hex : digits.all Json.isHex = true) : Quoted digits := by
  refine .of_raw fun c member => ?_
  have digit := List.all_eq_true.mp hex c member
  constructor
  · rintro rfl
    cases digit
  · rintro rfl
    cases digit

theorem Escape.quoted {c : Char} (escape : Escape c x) : Quoted x := by
  cases escape with
  | short _ => exact .escaped .nil
  | code _ hex _ => exact .escaped (quoted_hex hex)

theorem LitText.quoted {t : List Char} (text : LitText s t) : Quoted t := by
  induction text with
  | nil => exact .nil
  | raw quote backslash _ _ ih => exact .raw quote backslash ih
  | escape escape _ ih => exact escape.quoted.append ih

theorem ClsChar.scan {c : Char} (char : ClsChar c x) (depth : Nat) (bar : Bool) :
    Scan.scan ⟨.cls, depth, bar⟩ x = some ⟨.cls, depth, bar⟩ := by
  cases char with
  | raw close backslash _ => simp [scan_cons, step, close, backslash]
  | escape escape =>
    cases escape with
    | short _ => rfl
    | @code marker digits _ hex _ =>
      show Scan.scan ⟨.cls, depth, bar⟩ digits = _
      refine scan_of_still fun c member => ?_
      have digit := List.all_eq_true.mp hex c member
      have close : c ≠ ']' := by
        rintro rfl
        cases digit
      have backslash : c ≠ '\\' := by
        rintro rfl
        cases digit
      simp [step, close, backslash]

theorem ClsText.scan {rs : List (Char × Option Char)} {t : List Char} (text : ClsText rs t)
    (depth : Nat) (bar : Bool) : Scan.scan ⟨.cls, depth, bar⟩ t = some ⟨.cls, depth, bar⟩ := by
  induction text with
  | nil => rfl
  | single char _ _ ih => rw [scan_append, char.scan, Option.bind_some, ih]
  | range low high _ ih =>
    rw [List.append_assoc, scan_append, low.scan, Option.bind_some, List.cons_append, scan_cons]
    show Scan.scan ⟨.cls, depth, bar⟩ _ = _
    rw [scan_append, high.scan, Option.bind_some, ih]

section

variable {isBlank : Char → Bool}

theorem scan_plain {p : Char → Bool} (solid : ∀ c ∈ "\"[()|:".toList, p c = false) {t : List Char}
    (all : ∀ c ∈ t, p c = true) (depth : Nat) (bar : Bool) :
    Scan.scan ⟨.out, depth, bar⟩ t = some ⟨.out, depth, bar⟩ := by
  refine scan_of_still fun c member => ?_
  have unmarked : c ∉ "\"[()|:".toList := by
    intro marked
    have inside := all c member
    rw [solid c marked] at inside
    cases inside
  have other : c ≠ '"' ∧ c ≠ '[' ∧ c ≠ '(' ∧ c ≠ ')' ∧ c ≠ '|' ∧ c ≠ ':' := by
    simpa [not_or] using unmarked
  simp [step, other]

variable {b : List Char}

theorem scan_blank (blanks : Blanks isBlank) (blank : b.all isBlank = true) (depth : Nat)
    (bar : Bool) : Scan.scan ⟨.out, depth, bar⟩ b = some ⟨.out, depth, bar⟩ := by
  refine scan_plain (fun c marked => blanks.mark c ?_) (List.all_eq_true.mp blank) depth bar
  have listed : ∀ c ∈ "\"[()|:".toList, c ∈ "\"[]().*+?|:".toList := by decide
  exact listed c marked

variable {name : List Char}

theorem IsName.scan (isName : IsName name) (depth : Nat) (bar : Bool) :
    Scan.scan ⟨.out, depth, bar⟩ name = some ⟨.out, depth, bar⟩ :=
  scan_plain (by decide) isName.2 depth bar

theorem Spells.scan (blanks : Blanks isBlank) {l : Level} {e : Expr} {t : List Char}
    (spells : Spells isBlank l e t) (depth : Nat) (bar : Bool)
    (settled : l = .alternatives → 0 < depth ∨ bar = true) :
    Scan.scan ⟨.out, depth, bar⟩ t = some ⟨.out, depth, bar⟩ := by
  induction spells generalizing depth bar with
  | lit text =>
    rw [List.cons_append, scan_cons]
    show Scan.scan ⟨.lit, depth, bar⟩ _ = _
    rw [scan_append, text.quoted.scan]
    rfl
  | @cls negated rs t text head =>
    have start : Scan.scan ⟨.cls, depth, bar⟩ (if negated then ['^'] else []) =
        some ⟨.cls, depth, bar⟩ := by
      cases negated <;> rfl
    rw [List.append_assoc, List.cons_append, scan_cons]
    show Scan.scan ⟨.cls, depth, bar⟩ _ = _
    rw [scan_append, start, Option.bind_some, scan_append, text.scan]
    rfl
  | any => rfl
  | ref isName => exact isName.scan depth bar
  | group _ ih =>
    rw [List.cons_append, scan_cons]
    show Scan.scan ⟨.out, depth + 1, bar⟩ _ = _
    rw [scan_append, ih (depth + 1) bar fun _ => .inl depth.succ_pos]
    rfl
  | atom _ ih => exact ih depth bar nofun
  | @rep op e t b _ blank ih =>
    have sign : Scan.scan ⟨.out, depth, bar⟩ [op.char] = some ⟨.out, depth, bar⟩ := by
      cases op <;> rfl
    rw [scan_append, scan_append, ih depth bar nofun, Option.bind_some, scan_blank blanks blank,
      Option.bind_some, sign]
  | one blank _ blank' ih =>
    rw [scan_append, scan_append, scan_blank blanks blank, Option.bind_some, ih depth bar nofun,
      Option.bind_some, scan_blank blanks blank']
  | cons blank _ _ _ ih ih' =>
    rw [scan_append, scan_append, scan_blank blanks blank, Option.bind_some, ih depth bar nofun,
      Option.bind_some, ih' depth bar nofun]
  | empty blank => exact scan_blank blanks blank depth bar
  | items _ ih => exact ih depth bar nofun
  | last _ ih => exact ih depth bar nofun
  | more _ _ ih ih' =>
    have told : (bar || depth == 0) = bar := by
      rcases settled rfl with inside | told
      · simp [Nat.ne_of_gt inside]
      · simp [told]
    rw [scan_append, ih depth bar nofun, Option.bind_some, scan_cons]
    show Scan.scan ⟨.out, depth, bar || depth == 0⟩ _ = _
    rw [told, ih' depth bar fun _ => settled rfl]

theorem Spells.scan_alt (blanks : Blanks isBlank) {e f : Expr}
    (spells : Spells isBlank .alternatives (.alt e f) t) :
    Scan.scan {} t = some { bar := true } := by
  cases spells with
  | last spells =>
    cases spells with
    | items spells =>
      cases spells with
      | one _ item _ =>
        cases item with
        | atom atom => cases atom
  | more first second =>
    rw [scan_append, first.scan blanks 0 false nofun, Option.bind_some, scan_cons]
    exact second.scan blanks 0 true fun _ => .inr rfl

theorem Spells.alternative (blanks : Blanks isBlank) {e : Expr} {t : List Char}
    (spells : Spells isBlank .alternatives e t)
    (single : ∀ s, Scan.scan {} t = some s → s.bar = false) : Spells isBlank .alternative e t := by
  cases spells with
  | last spells => exact spells
  | more first second => cases single _ (Spells.more first second |>.scan_alt blanks)

/-! ### The first item -/

/-- Something follows that is not blank and does not repeat what is before it. -/
def Goes (isBlank : Char → Bool) (rest : List Char) : Prop :=
  ∃ b c r, rest = b ++ c :: r ∧ b.all isBlank = true ∧ isBlank c = false ∧ c ∉ ['*', '+', '?']

theorem blanks_unique {b' s' : List Char} (blank : b.all isBlank = true)
    (blank' : b'.all isBlank = true) (solid : ∀ c, s.head? = some c → isBlank c = false)
    (solid' : ∀ c, s'.head? = some c → isBlank c = false) (same : b ++ s = b' ++ s') :
    b = b' ∧ s = s' := by
  have take {b s : List Char} (blank : b.all isBlank = true)
      (solid : ∀ c, s.head? = some c → isBlank c = false) :
      (b ++ s).takeWhile isBlank = b ∧ (b ++ s).dropWhile isBlank = s := by
    have all := List.all_eq_true.mp blank
    have ended : s.takeWhile isBlank = [] ∧ s.dropWhile isBlank = s := by
      cases s with
      | nil => exact ⟨rfl, rfl⟩
      | cons c s => simp [solid c rfl]
    rw [List.takeWhile_append_of_pos all, List.dropWhile_append_of_pos all, ended.1, ended.2]
    simp
  have first := take blank solid
  have second := take blank' solid'
  rw [same] at first
  exact ⟨first.1.symm.trans second.1, first.2.symm.trans second.2⟩

variable {u : List Char}

theorem Goes.not_rep (blanks : Blanks isBlank) {op : Op}
    (blank : b.all isBlank = true) : ¬ Goes isBlank (b ++ op.char :: u) := by
  rintro ⟨b', c, r, same, blank', solid, other⟩
  have sign : isBlank op.char = false := blanks.mark _ (by cases op <;> decide)
  have rest := (blanks_unique blank blank' (by simpa using sign) (by simpa using solid) same).2
  obtain rfl := (List.cons.inj rest).1
  cases op <;> simp [Op.char] at other

theorem Goes.not_blank {d : List Char} (blank : d.all isBlank = true) : ¬ Goes isBlank d := by
  rintro ⟨b, c, r, rfl, -, solid, -⟩
  rw [List.all_eq_true.mp blank c (by simp)] at solid
  cases solid

variable {e : Expr}

section

variable (blanks : Blanks isBlank)

include blanks

variable {rest : List Char}

section

variable {l : Level} (spells : Spells isBlank l e t) (level : l = .atom ∨ l = .item)

include spells level

theorem Spells.item_lit (same : t ++ u = '"' :: x ++ '"' :: rest) (quoted : Quoted x)
    (goes : Goes isBlank rest) : ∃ s, e = .lit s ∧ LitText s x ∧ u = rest := by
  induction spells generalizing u with
  | @lit s t text =>
    have inner : t ++ '"' :: u = x ++ '"' :: rest := by simpa using same
    obtain ⟨rfl, rfl⟩ := text.quoted.unique quoted inner
    exact ⟨s, rfl, text, rfl⟩
  | cls _ _ => cases (List.cons.inj same).1
  | any => cases (List.cons.inj same).1
  | @ref name isName =>
    obtain ⟨c, name, rfl⟩ := List.exists_cons_of_ne_nil isName.1
    obtain rfl : c = '"' := (List.cons.inj same).1
    cases isName.2 '"' List.mem_cons_self
  | group _ => cases (List.cons.inj same).1
  | atom _ ih => exact ih (.inl rfl) same
  | rep _ blank ih =>
    rw [List.append_assoc, List.append_assoc] at same
    obtain ⟨_, -, -, rfl⟩ := ih (.inr rfl) same
    exact absurd goes (Goes.not_rep blanks blank)
  | _ => simp at level

theorem Spells.item_ref (same : t ++ u = name ++ rest) (isName : IsName name)
    (goes : Goes isBlank rest) (ends : ∀ c, rest.head? = some c → isNameChar c = false)
    (boundary : ∀ n, e = .ref n → ∀ c, u.head? = some c → isNameChar c = false) :
    e = .ref name ∧ u = rest := by
  have first : ∃ c s, name = c :: s ∧ isNameChar c = true := by
    obtain ⟨c, s, rfl⟩ := List.exists_cons_of_ne_nil isName.1
    exact ⟨c, s, rfl, isName.2 c List.mem_cons_self⟩
  induction spells generalizing u with
  | lit _ =>
    obtain ⟨c, s, rfl, named⟩ := first
    obtain rfl : '"' = c := (List.cons.inj same).1
    cases named
  | cls _ _ =>
    obtain ⟨c, s, rfl, named⟩ := first
    obtain rfl : '[' = c := (List.cons.inj same).1
    cases named
  | any =>
    obtain ⟨c, s, rfl, named⟩ := first
    obtain rfl : '.' = c := (List.cons.inj same).1
    cases named
  | @ref other isOther =>
    obtain ⟨rfl, rfl⟩ := blanks_unique (List.all_eq_true.mpr isOther.2)
      (List.all_eq_true.mpr isName.2) (boundary other rfl) ends same
    exact ⟨rfl, rfl⟩
  | group _ =>
    obtain ⟨c, s, rfl, named⟩ := first
    obtain rfl : '(' = c := (List.cons.inj same).1
    cases named
  | atom _ ih => exact ih (.inl rfl) same boundary
  | @rep op e t b _ blank ih =>
    rw [List.append_assoc, List.append_assoc] at same
    have apart (n : List Char) (_ : e = .ref n) (c : Char)
        (head : (b ++ ([op.char] ++ u)).head? = some c) : isNameChar c = false := by
      refine (Bool.not_eq_true _).mp fun named => ?_
      cases b with
      | nil =>
        obtain rfl : op.char = c := by simpa using head
        cases op <;> cases named
      | cons a b =>
        obtain rfl : a = c := by simpa using head
        rw [List.all_cons, Bool.and_eq_true] at blank
        rw [blanks.name a named] at blank
        cases blank.1
    obtain ⟨-, rfl⟩ := ih (.inr rfl) same apart
    exact absurd goes (Goes.not_rep blanks blank)
  | _ => simp at level

end

theorem Spells.first {e : Expr} (spells : Spells isBlank .items e (b ++ s))
    (blank : b.all isBlank = true) (solid : ∀ c, s.head? = some c → isBlank c = false) :
    ∃ e₀ t u, Spells isBlank .item e₀ t ∧ t ++ u = s ∧
      (u.all isBlank = true ∧ e = e₀ ∨ ∃ f, e = .seq e₀ f ∧ Spells isBlank .items f u ∧
        ∀ n, e₀ = .ref n → ∀ c, u.head? = some c → isNameChar c = false) := by
  have begins {t : List Char} (u : List Char) (framed : Framed isBlank t) (c : Char)
      (head : (t ++ u).head? = some c) : isBlank c = false := by
    rw [List.head?_append_of_ne_nil _ framed.nonempty] at head
    exact framed.first c head
  generalize text : b ++ s = w at spells
  cases spells with
  | @one _ b' t d blank' item ending =>
    rw [List.append_assoc] at text
    obtain ⟨rfl, rfl⟩ := blanks_unique blank blank' solid (begins d (item.item_framed blanks)) text
    exact ⟨e, t, d, item, rfl, .inl ⟨ending, rfl⟩⟩
  | @cons e₀ f b' t u blank' item rest boundary =>
    rw [List.append_assoc] at text
    obtain ⟨rfl, rfl⟩ := blanks_unique blank blank' solid (begins u (item.item_framed blanks)) text
    exact ⟨e₀, t, u, item, rfl, .inr ⟨f, rfl, rest, boundary⟩⟩

theorem Spells.first_lit (spells : Spells isBlank .items e (b ++ ('"' :: x ++ '"' :: rest)))
    (blank : b.all isBlank = true) (quoted : Quoted x) (goes : Goes isBlank rest) :
    ∃ s f, e = .seq (.lit s) f ∧ LitText s x ∧ Spells isBlank .items f rest := by
  have solid (c : Char) (head : ('"' :: x ++ '"' :: rest).head? = some c) : isBlank c = false := by
    obtain rfl : '"' = c := by simpa using head
    exact blanks.mark _ (by decide)
  obtain ⟨e₀, t, u, item, same, ending⟩ := spells.first blanks blank solid
  obtain ⟨s, rfl, text, rfl⟩ := item.item_lit blanks (.inr rfl) same quoted goes
  rcases ending with ⟨ending, -⟩ | ⟨f, rfl, rest, -⟩
  · exact absurd goes (Goes.not_blank ending)
  · exact ⟨s, f, rfl, text, rest⟩

theorem Spells.first_ref (spells : Spells isBlank .items e (b ++ (name ++ rest)))
    (blank : b.all isBlank = true) (isName : IsName name) (goes : Goes isBlank rest)
    (ends : ∀ c, rest.head? = some c → isNameChar c = false) :
    ∃ f, e = .seq (.ref name) f ∧ Spells isBlank .items f rest := by
  have solid (c : Char) (head : (name ++ rest).head? = some c) : isBlank c = false := by
    rw [List.head?_append_of_ne_nil _ isName.1] at head
    exact blanks.name c (isName.2 c (List.mem_of_mem_head? head))
  obtain ⟨e₀, t, u, item, same, ending⟩ := spells.first blanks blank solid
  rcases ending with ⟨ending, -⟩ | ⟨f, rfl, later, boundary⟩
  · -- behind the last item there are blanks only
    have apart (n : List Char) (_ : e₀ = .ref n) (c : Char) (head : u.head? = some c) :
        isNameChar c = false := by
      refine (Bool.not_eq_true _).mp fun named => ?_
      have space := List.all_eq_true.mp ending c (List.mem_of_mem_head? head)
      rw [blanks.name c named] at space
      cases space
    obtain ⟨-, rfl⟩ := item.item_ref blanks (.inr rfl) same isName goes ends apart
    exact absurd goes (Goes.not_blank ending)
  · obtain ⟨rfl, rfl⟩ := item.item_ref blanks (.inr rfl) same isName goes ends boundary
    exact ⟨f, rfl, later⟩

theorem Spells.only_ref (spells : Spells isBlank .items e name)
    (isName : IsName name) : e = .ref name := by
  have item {l : Level} {e : Expr} {t : List Char} (spells : Spells isBlank l e t)
      (level : l = .atom ∨ l = .item) (named : ∀ c ∈ t, isNameChar c = true) : e = .ref t := by
    induction spells with
    | lit _ => cases named '"' (by simp)
    | cls _ _ => cases named '[' (by simp)
    | any => cases named '.' (by simp)
    | ref _ => rfl
    | group _ => cases named '(' (by simp)
    | atom _ ih => exact ih (.inl rfl) named
    | @rep op _ _ _ _ _ =>
      have sign := named op.char (by simp)
      cases op <;> cases sign
    | _ => simp at level
  have solid (c : Char) (head : name.head? = some c) : isBlank c = false :=
    blanks.name c (isName.2 c (List.mem_of_mem_head? head))
  obtain ⟨e₀, t, u, first, rfl, ending⟩ := Spells.first (b := []) blanks spells rfl solid
  have ref := item first (.inr rfl) fun c member => isName.2 c (List.mem_append_left u member)
  have named (c : Char) (head : u.head? = some c) : isNameChar c = true :=
    isName.2 c (List.mem_append_right t (List.mem_of_mem_head? head))
  rcases ending with ⟨blank, rfl⟩ | ⟨f, -, later, boundary⟩
  · cases u with
    | nil => rw [ref, List.append_nil]
    | cons c u =>
      have space := List.all_eq_true.mp blank c List.mem_cons_self
      rw [blanks.name c (named c rfl)] at space
      cases space
  · cases u with
    | nil =>
      obtain ⟨b, t', text, -, nonempty, -⟩ := later.trimStart blanks
      exact absurd (List.append_eq_nil_iff.mp text.symm).2 nonempty
    | cons c u =>
      have ended := boundary t ref c rfl
      rw [named c rfl] at ended
      cases ended

end

section

variable {first : List Char} {rest : List (List Char)} (framed : Framed isBlank first)
  (each : ∀ line ∈ rest, ∃ b t, line = b ++ t ∧ Framed isBlank t)

include framed each

theorem Framed.lines : Framed isBlank (['\n'].intercalate (first :: rest)) := by
  induction rest generalizing first with
  | nil => simpa using framed
  | cons line rest ih =>
    obtain ⟨b, t, rfl, inner⟩ := each line List.mem_cons_self
    have later := ih inner fun line member => each line (List.mem_cons_of_mem _ member)
    have joined : ['\n'].intercalate (first :: (b ++ t) :: rest) =
        first ++ '\n' :: b ++ ['\n'].intercalate (t :: rest) := by
      cases rest <;> simp
    rw [joined]
    exact framed.append ('\n' :: b) later

theorem contentLines_intercalate (oneLine : ∀ line ∈ first :: rest, '\n' ∉ line) :
    contentLines isBlank (['\n'].intercalate (first :: rest)) =
      ((first :: rest).map (trim isBlank)).filter isContent := by
  have whole := trim_framed (b := []) (d := []) (framed.lines each) rfl rfl
  rw [List.nil_append, List.append_nil] at whole
  rw [contentLines, whole, List.splitOn_intercalate '\n' oneLine (List.cons_ne_nil first rest)]

end

theorem foldl_joinLine {body : List Char} (nonempty : body ≠ []) (lines : List (List Char)) :
    lines.foldl joinLine body = body ++ lines.flatMap fun line => '\n' :: line := by
  induction lines generalizing body with
  | nil => simp
  | cons line lines ih =>
    rw [List.foldl_cons, joinLine, if_neg nonempty, ih (by simp)]
    simp

theorem Rule.line_unique (blanks : Blanks isBlank) {r : Rule isBlank} {gap first : List Char}
    (isName : IsName name) (blank : gap.all isBlank = true)
    (same : r.name ++ r.gap ++ "::=".toList ++ r.first = name ++ gap ++ "::=".toList ++ first) :
    r.name = name ∧ r.first = first := by
  have apart {gap : List Char} (blank : gap.all isBlank = true) (rest : List Char) (c : Char)
      (head : (gap ++ ("::=".toList ++ rest)).head? = some c) : isNameChar c = false := by
    refine (Bool.not_eq_true _).mp fun named => ?_
    cases gap with
    | nil =>
      obtain rfl : ':' = c := by simpa using head
      cases named
    | cons a gap =>
      obtain rfl : a = c := by simpa using head
      rw [List.all_cons, Bool.and_eq_true, blanks.name a named] at blank
      cases blank.1
  have solid (rest : List Char) (c : Char) (head : ("::=".toList ++ rest).head? = some c) :
      isBlank c = false := by
    obtain rfl : ':' = c := by simpa using head
    exact blanks.mark _ (by decide)
  simp only [List.append_assoc] at same
  obtain ⟨named, later⟩ := blanks_unique (List.all_eq_true.mpr r.isName.2)
    (List.all_eq_true.mpr isName.2) (apart r.gapBlank r.first) (apart blank first) same
  obtain ⟨-, sign⟩ := blanks_unique r.gapBlank blank (solid r.first) (solid first) later
  exact ⟨named, List.append_cancel_left sign⟩

end

end DistLLM.Library.Gbnf
