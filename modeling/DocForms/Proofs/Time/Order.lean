import DocForms.Time
import Mathlib.Order.Defs.LinearOrder

namespace DocForms.Instant

theorem before_iff {a b : Instant} :
    a.before b = true ↔ a.seconds < b.seconds ∨ a.seconds = b.seconds ∧ a.nanos < b.nanos := by
  simp [before]

theorem not_before_iff {a b : Instant} :
    a.before b = false ↔ b.seconds < a.seconds ∨ a.seconds = b.seconds ∧ b.nanos ≤ a.nanos := by
  rw [Bool.eq_false_iff, Ne, before_iff]
  omega

theorem before_irrefl (a : Instant) : a.before a = false :=
  not_before_iff.mpr (.inr ⟨rfl, Nat.le_refl _⟩)

theorem before_asymm {a b : Instant} (h : a.before b = true) : b.before a = false := by
  rw [before_iff] at h
  rw [not_before_iff]
  omega

instance : LinearOrder Instant where
  le a b := b.before a = false
  lt a b := a.before b = true
  le_refl := before_irrefl
  le_trans a b c hab hbc := by
    rw [not_before_iff] at hab hbc ⊢
    omega
  lt_iff_le_not_ge a b := by
    rw [not_before_iff, not_before_iff, before_iff]
    omega
  le_antisymm a b hab hba := by
    cases a
    cases b
    rw [not_before_iff] at hab hba
    simp only [mk.injEq] at hab hba ⊢
    omega
  le_total a b := by
    rw [not_before_iff, not_before_iff]
    omega
  toDecidableEq := inferInstance
  toDecidableLE a b := inferInstanceAs (Decidable (b.before a = false))
  toDecidableLT a b := inferInstanceAs (Decidable (a.before b = true))

end DocForms.Instant
