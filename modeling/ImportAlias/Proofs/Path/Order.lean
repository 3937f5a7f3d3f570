import ImportAlias.Path
import Mathlib.Data.List.Lex

/-! The order of paths. It is the lexicographic order of their components, so two paths of which
neither comes first have the same components. -/
namespace ImportAlias.Path

/-- Lists over a strict total order are strictly and totally ordered. -/
theorem isStrictTotalOrder_lex {α : Type} {r : α → α → Prop} [IsStrictTotalOrder α r] :
    IsStrictTotalOrder (List α) (List.Lex r) :=
  { isStrictWeakOrder_of_isOrderConnected with }

namespace Component

/-- Characters by code point. -/
def Precedes (a b : Char) : Prop := a.toNat < b.toNat

instance : IsStrictTotalOrder Char Precedes where
  irrefl a := Nat.lt_irrefl a.toNat
  trans a b c := Nat.lt_trans (n := a.toNat) (m := b.toNat) (k := c.toNat)
  trichotomous a b h h' := by
    unfold Precedes at h h'
    exact Char.toNat_inj.mp (by omega)

theorem nameLt_iff {s t : Text} : nameLt s t = true ↔ List.Lex Precedes s t := by
  fun_induction nameLt s t with
  | case1 s => simp
  | case2 b t => simp
  | case3 a s b t ih =>
    simp only [Bool.or_eq_true, Bool.and_eq_true, decide_eq_true_eq, beq_iff_eq, ih,
      List.cons_lex_cons_iff, Precedes, Char.toNat_inj]

instance : IsStrictTotalOrder Component fun a b => a.lt b = true :=
  have hnames : IsStrictTotalOrder Text (List.Lex Precedes) := isStrictTotalOrder_lex
  { irrefl := by
      intro a
      cases a with
      | normal n => simpa [lt, nameLt_iff] using hnames.irrefl n
      | _ => simp [lt]
    trans := by
      intro a b c hab hbc
      cases a <;> cases b <;> cases c <;> simp_all [lt, rank, nameLt_iff]
      exact hnames.trans _ _ _ hab hbc
    trichotomous := by
      intro a b hab hba
      cases a <;> cases b <;> simp_all [lt, rank, nameLt_iff]
      exact hnames.trichotomous _ _ hab hba }

end Component

theorem ltGo_iff {as bs : List Component} :
    lt.go as bs = true ↔ List.Lex (fun a b => Component.lt a b = true) as bs := by
  fun_induction lt.go as bs with
  | case1 as => simp
  | case2 b bs => simp
  | case3 a as b bs ih =>
    simp only [Bool.or_eq_true, Bool.and_eq_true, beq_iff_eq, ih, List.cons_lex_cons_iff]

instance : IsStrictOrder Path fun p q => p.lt q = true :=
  have hlists := isStrictTotalOrder_lex (r := fun a b => Component.lt a b = true)
  { irrefl := fun p => by simpa only [lt, ltGo_iff] using hlists.irrefl p.components
    trans := fun p q s => by
      simpa only [lt, ltGo_iff] using hlists.trans p.components q.components s.components }

/-- What lies between two paths is above the first or below the second. -/
theorem lt_or_lt {p s : Path} (h : p.lt s = true) (q : Path) : p.lt q = true ∨ q.lt s = true := by
  simp only [lt, ltGo_iff] at h ⊢
  exact IsOrderConnected.conn _ _ _ h

/-- Two paths of which neither comes first differ in their separators at most. -/
theorem components_eq_of_not_lt {p q : Path} (h : ¬p.lt q = true) (h' : ¬q.lt p = true) :
    p.components = q.components := by
  simp only [lt, ltGo_iff] at h h'
  exact isStrictTotalOrder_lex.trichotomous _ _ h h'

end ImportAlias.Path
