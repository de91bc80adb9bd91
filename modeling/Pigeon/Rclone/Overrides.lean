import Pigeon.Rclone.Config

/-! # Overrides of secrets

The variable that overrides a secret is named after its alias, and two aliases can share one. Which pairs do is settled
character by character.
-/
namespace Pigeon.Rclone

open Library Keyring

set_option autoImplicit false

/-- The same letter or digit but for its case, or neither of them a letter or a digit. -/
def SameLetter (c d : Char) : Prop := c.toUpper = d.toUpper ∨ c.isAlphanum = false ∧ d.isAlphanum = false

instance (c d : Char) : Decidable (SameLetter c d) := inferInstanceAs (Decidable (_ ∨ _))

/-- The aliases are of one length, and the same letter by letter. -/
def Clash (first second : Text) : Prop := List.Forall₂ SameLetter first second

/-- What is set for one alias is not seen by the other, nor by its sections of the config. -/
structure Isolated (set read : Text) : Prop where
  resolved : ∀ (env : Environment) (value stored : Text),
    resolveSecret (Function.update env (envVarName set) (some value)) read stored = resolveSecret env read stored
  sections : ∀ (env : Environment) (value : Text) (config : BucketConfig), config.aliasName = read →
    configSections (Function.update env (envVarName set) (some value)) config = configSections env config

/-! ## The name of the variable -/

theorem isAlphanum_toUpper (c : Char) : c.toUpper.isAlphanum = c.isAlphanum := by
  cases hLower : c.isLower with
  | true =>
    have hAlpha : c.isAlpha = true := by rw [Char.isAlpha, hLower, Bool.or_true]
    rw [Char.isAlphanum, Char.isAlphanum, Char.isAlpha_toUpper_eq_isAlpha, hAlpha, Bool.true_or, Bool.true_or]
  | false => rw [Char.toUpper_eq_of_not_isLower (Bool.eq_false_iff.mp hLower)]

theorem envVarChar_of_isAlphanum {c : Char} (h : c.isAlphanum = true) : envVarChar c = c.toUpper := by
  have hUpper := (isAlphanum_toUpper c).trans h
  change (if c.toUpper.isAlphanum || c.toUpper == '_' then c.toUpper else '_') = _
  rw [hUpper, Bool.true_or, if_pos rfl]

theorem envVarChar_of_not_isAlphanum {c : Char} (h : c.isAlphanum = false) : envVarChar c = '_' := by
  change (if c.toUpper.isAlphanum || c.toUpper == '_' then c.toUpper else '_') = _
  split
  · rename_i hKept
    rw [isAlphanum_toUpper, h, Bool.false_or] at hKept
    exact beq_iff_eq.mp hKept
  · rfl

theorem envVarChar_ne {c d : Char} (hc : c.isAlphanum = true) (hd : d.isAlphanum = false) :
    envVarChar c ≠ envVarChar d ∧ ¬ SameLetter c d := by
  have hUpper := (isAlphanum_toUpper c).trans hc
  constructor
  · rw [envVarChar_of_isAlphanum hc, envVarChar_of_not_isAlphanum hd]
    intro hUnderscore
    rw [hUnderscore] at hUpper
    revert hUpper
    decide
  · rintro (hSame | ⟨hNone, -⟩)
    · rw [hSame, isAlphanum_toUpper, hd] at hUpper
      cases hUpper
    · rw [hc] at hNone
      cases hNone

theorem SameLetter.symm {c d : Char} (h : SameLetter c d) : SameLetter d c := by
  rcases h with hSame | ⟨hc, hd⟩
  · exact .inl hSame.symm
  · exact .inr ⟨hd, hc⟩

theorem envVarChar_eq_iff (c d : Char) : envVarChar c = envVarChar d ↔ SameLetter c d := by
  cases hc : c.isAlphanum with
  | true =>
    cases hd : d.isAlphanum with
    | true =>
      rw [envVarChar_of_isAlphanum hc, envVarChar_of_isAlphanum hd]
      exact ⟨.inl, fun hSame => hSame.resolve_right fun hNone => Bool.false_ne_true (hNone.1.symm.trans hc)⟩
    | false =>
      obtain ⟨hName, hLetter⟩ := envVarChar_ne hc hd
      exact iff_of_false hName hLetter
  | false =>
    cases hd : d.isAlphanum with
    | true =>
      obtain ⟨hName, hLetter⟩ := envVarChar_ne hd hc
      exact iff_of_false hName.symm fun hSame => hLetter hSame.symm
    | false =>
      rw [envVarChar_of_not_isAlphanum hc, envVarChar_of_not_isAlphanum hd]
      exact iff_of_true rfl (.inr ⟨hc, hd⟩)

theorem envVarName_eq_iff (first second : Text) : envVarName first = envVarName second ↔ Clash first second := by
  unfold envVarName
  rw [List.append_cancel_left_eq, ← List.forall₂_eq_eq_eq, List.forall₂_map_left_iff, List.forall₂_map_right_iff, Clash]
  simp only [envVarChar_eq_iff]

/-! ## What an override reaches -/

theorem isolated_of_ne {set read : Text} (h : envVarName read ≠ envVarName set) : Isolated set read := by
  have hResolved (env : Environment) (value stored : Text) :
      resolveSecret (Function.update env (envVarName set) (some value)) read stored = resolveSecret env read stored := by
    rw [resolveSecret, resolveSecret, Function.update_of_ne h]
  refine ⟨hResolved, ?_⟩
  rintro env value config rfl
  rw [configSections, configSections, hResolved]

theorem not_isolated_of_eq {set read : Text} (h : envVarName read = envVarName set) : ¬ Isolated set read := by
  intro hIsolated
  have hSame := hIsolated.resolved (fun _ => none) ['x'] []
  rw [resolveSecret, resolveSecret, h, Function.update_self] at hSame
  cases hSame

def teamBucket (aliasName : Text) : Entry := .bucket ⟨aliasName, [], [], [], []⟩

end Pigeon.Rclone
