import ExtensionCompiler.Ty.Basic

set_option autoImplicit false

/-! # Equality of types

Equality of types is decidable: `Ty.beq` compares every field, and `Ty.beq_iff_eq` says that it
decides equality. -/

namespace ExtensionCompiler.Ty

mutual

/-- Compares two types field by field. -/
def beq : Ty → Ty → Bool
  | primitive k, primitive k' => decide (k = k')
  | pointer b d, pointer b' d' => b.beq b' && decide (d = d')
  | array b n, array b' n' => b.beq b' && decide (n = n')
  | aggregate k n c s, aggregate k' n' c' s' =>
    decide (k = k') && decide (n = n') && decide (c = c') && decide (s = s')
  | aliased n c t, aliased n' c' t' => decide (n = n') && decide (c = c') && t.beq t'
  | function n c ps r, function n' c' ps' r' =>
    decide (n = n') && decide (c = c') && beqAll ps ps' && r.beq r'
  | object, object => true
  | pending n, pending n' => decide (n = n')
  | _, _ => false

/-- Compares two lists of types, one by one. -/
def beqAll : List Ty → List Ty → Bool
  | [], [] => true
  | t :: ts, t' :: ts' => t.beq t' && beqAll ts ts'
  | _, _ => false

end

mutual

theorem beq_iff_eq : (a b : Ty) → (a.beq b = true ↔ a = b)
  | primitive k, b => by cases b <;> simp [beq]
  | pointer t d, b => by
    cases b with
    | pointer t' d' => simp [beq, beq_iff_eq t t']
    | _ => simp [beq]
  | array t n, b => by
    cases b with
    | array t' n' => simp [beq, beq_iff_eq t t']
    | _ => simp [beq]
  | aggregate k n c s, b => by cases b <;> simp [beq, and_assoc]
  | aliased n c t, b => by
    cases b with
    | aliased n' c' t' => simp [beq, beq_iff_eq t t', and_assoc]
    | _ => simp [beq]
  | function n c ps r, b => by
    cases b with
    | function n' c' ps' r' =>
      simp [beq, beqAll_iff_eq ps ps', beq_iff_eq r r', and_assoc]
    | _ => simp [beq]
  | object, b => by cases b <;> simp [beq]
  | pending n, b => by cases b <;> simp [beq]

theorem beqAll_iff_eq : (as bs : List Ty) → (beqAll as bs = true ↔ as = bs)
  | [], bs => by cases bs <;> simp [beqAll]
  | t :: ts, bs => by
    cases bs with
    | nil => simp [beqAll]
    | cons t' ts' => simp [beqAll, beq_iff_eq t t', beqAll_iff_eq ts ts']

end

instance : DecidableEq Ty := fun a b => decidable_of_iff (a.beq b = true) (beq_iff_eq a b)

end ExtensionCompiler.Ty
