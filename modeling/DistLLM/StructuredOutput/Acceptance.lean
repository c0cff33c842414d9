import DistLLM.StructuredOutput.Steps

/-!
# The texts the constraint accepts

The done state takes no further character, so a text is accepted where it ends with its value: no
whitespace behind a container, a string or a literal, and one character of it behind a number.
-/
namespace DistLLM.StructuredOutput

open Library

/-- A complete JSON text without whitespace behind it, but for the one character that ends a
number. -/
def EndedText (text : List Char) : Prop :=
  ∃ s, Ws text s ∧ (Json .closed s [] ∨ ∃ c, Number s [c] ∧ isWs c = true)

theorem rawTab_cons {quoting : Quoting} {c : Char} {s : List Char}
    (tabs : rawTab quoting (c :: s) = false) :
    (quoting = .outside ∨ c ≠ '\t') ∧ rawTab (quoting.next c) s = false := by
  simp only [rawTab, Bool.or_eq_false_iff, decide_eq_false_iff_not, not_and_or, not_not] at tabs
  exact tabs

theorem Phase.expects_nil (p : Phase) : p.config.state = .done ↔ p.expects [] := by
  have value (k : List Marker) : ¬ ValueIn k [] := by
    rintro (⟨t, ⟨⟩, -⟩ | ⟨t, number, -⟩)
    exact number
  have inString (escaped : Bool) (L : List Char → Prop) : ¬ InString escaped L [] := by
    cases escaped with
    | true => exact id
    | false => rintro ⟨t, ⟨⟩, -⟩
  cases p with
  | ended k => cases k with
    | nil => simp [config, enclosingAfterValue, expects, After]
    | cons marker k => cases marker <;>
        simp [config, enclosingAfterValue, expects, After, GoesOn]
  | number k => cases k with
    | nil => simp [config, expects, AfterNumber]
    | cons marker k => cases marker <;> simp [config, expects, AfterNumber, After, GoesOn]
  | _ => simp [config, expects, AfterKey, value, inString]

/-- From each phase, fed to the end, the constraint is done iff the text was one the phase
expects. -/
theorem feed_iff (p : Phase) (text : List Char)
    (letters : ∀ c ∈ text, isAscii c = true ∨ isWs c = true)
    (tabs : rawTab p.quoting text = false) :
    (∃ m, p.config.feed text = some m ∧ m.state = .done) ↔ p.expects text := by
  induction text generalizing p with
  | nil => simp [JSONSchemaConstraint.feed, p.expects_nil]
  | cons c text ih =>
    obtain ⟨letter, later⟩ := List.forall_mem_cons.mp letters
    obtain ⟨tab, tabs⟩ := rawTab_cons tabs
    obtain ⟨q, advances⟩ | stuck := phase_step p letter tab
    · rw [advances.quoting] at tabs
      simp only [JSONSchemaConstraint.feed, advances.valid, advances.transition, if_true]
      rw [ih q later tabs, advances.expects]
    · -- the character is rejected, and no text of the language begins with it
      simp [JSONSchemaConstraint.feed, stuck.valid, stuck.expects]

theorem endsDone_exists (text : List Char) : endsDone text = true
      ↔ ∃ m, Phase.start.config.feed text = some m ∧ m.state = .done := by
  simp only [endsDone, Option.any_eq_true, decide_eq_true_eq]
  exact Iff.rfl

/-- The constraint ends in the done state on exactly the JSON texts that end where they are
complete. -/
theorem endsDone_iff (text : List Char) (letters : ∀ c ∈ text, isAscii c = true ∨ isWs c = true)
    (tabs : rawTab .outside text = false) : endsDone text = true ↔ EndedText text := by
  have start : Phase.start.expects text ↔ EndedText text := by
    refine exists_congr fun s => and_congr_right' (or_congr ?_ ?_)
    · simp [Before, After]
    · constructor
      · rintro ⟨_, number, c, space, rfl⟩
        exact ⟨c, number, space⟩
      · rintro ⟨c, number, space⟩
        exact ⟨[c], number, c, space, rfl⟩
  rw [endsDone_exists, feed_iff .start text letters tabs, start]

/-- A member whose value has a bracket in a string. -/
theorem endsDone_iff_member : endsDone [' ', '{', '"', ']', '"', ':', '4', '2', '}'] = true
      ↔ EndedText [' ', '{', '"', ']', '"', ':', '4', '2', '}'] :=
  endsDone_iff _ (by simp [isAscii]) (by decide)

/-- More than one character of whitespace behind a number. -/
theorem endsDone_trailing : ¬ ∀ text : List Char, (∀ c ∈ text, isAscii c = true ∨ isWs c = true) →
      (endsDone text = true ↔ CompleteText text) := by
  intro always
  have complete : CompleteText ['1', ' ', ' '] :=
    ⟨_, .stop _, .inr ⟨' ', [' '], ⟨rfl, .stop _⟩, rfl, .skip rfl (.stop _)⟩⟩
  have done := (always ['1', ' ', ' '] (by simp [isAscii])).mpr complete
  exact absurd done (by decide)

end DistLLM.StructuredOutput
