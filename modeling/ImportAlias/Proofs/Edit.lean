import ImportAlias.Edit
import Mathlib.Tactic.SplitIfs

/-! Which alias a resolver gives a specifier, and when a second round gives none. -/
namespace ImportAlias.Resolver

variable {ε : Type} {resolve : Resolver ε} {threshold : Nat} {s : Specifier} {a : Text}

theorem choose_eq_some : resolve.choose threshold s = some a ↔
    threshold < s.climbDepth ∧ resolve s = .ok (some a) ∧ a ≠ s := by
  unfold choose Specifier.exceeds
  simp only [decide_eq_true_eq]
  constructor
  · intro h
    split_ifs at h with hd
    cases hr : resolve s with
    | error e => simp [hr] at h
    | ok o =>
      cases o with
      | none => simp [hr] at h
      | some b =>
        simp only [hr] at h
        split_ifs at h with he
        obtain rfl : b = a := Option.some.inj h
        exact ⟨hd, rfl, he⟩
  · rintro ⟨hd, hr, hne⟩
    simp [hd, hr, hne]

/-- An alias differs from what it replaces. -/
theorem choose_ne_some_self (resolve : Resolver ε) {threshold : Nat} (s : Specifier) :
    resolve.choose threshold s ≠ some s := fun h => (choose_eq_some.mp h).2.2 rfl

theorem choose_eq_none_of_shallow (h : s.climbDepth ≤ threshold) :
    resolve.choose threshold s = none := by
  have hd : ¬ threshold < s.climbDepth := by omega
  simp [choose, Specifier.exceeds, hd]

/-- Aliases that climb no further than the threshold are not replaced again. -/
theorem choose_getD (h : ∀ s a, resolve s = .ok (some a) → Specifier.climbDepth a ≤ threshold)
    (s : Specifier) : resolve.choose threshold ((resolve.choose threshold s).getD s) = none := by
  cases hs : resolve.choose threshold s with
  | none => simpa using hs
  | some a => exact choose_eq_none_of_shallow (h s a (choose_eq_some.mp hs).2.1)

end ImportAlias.Resolver
