import Mathlib
/-!
# Computations with checked side conditions

A computation yields a value and whether every condition it was asked to check
on the way held. It goes on after a failed check, as a program does after a
read outside of a buffer.
-/

namespace Mmix

/-- A value and whether all checks passed. -/
structure Checked (α : Type) where
  val : α
  ok : Bool

namespace Checked

variable {α β : Type}

instance : Monad Checked where
  pure a := ⟨a, true⟩
  bind x f := ⟨(f x.val).val, x.ok && (f x.val).ok⟩

/-- Check a condition. -/
def check (P : Prop) [Decidable P] : Checked Unit := ⟨(), decide P⟩

@[simp] theorem val_pure (a : α) : (pure a : Checked α).val = a := rfl

@[simp] theorem ok_pure (a : α) : (pure a : Checked α).ok = true := rfl

@[simp] theorem val_bind (x : Checked α) (f : α → Checked β) : (x >>= f).val = (f x.val).val := rfl

@[simp] theorem ok_bind (x : Checked α) (f : α → Checked β) :
    (x >>= f).ok = (x.ok && (f x.val).ok) := rfl

@[simp] theorem ok_check (P : Prop) [Decidable P] : (check P).ok = decide P := rfl

@[simp] theorem val_ite (P : Prop) [Decidable P] (x y : Checked α) :
    (if P then x else y).val = if P then x.val else y.val := apply_ite ..

@[simp] theorem ok_ite (P : Prop) [Decidable P] (x y : Checked α) :
    (if P then x else y).ok = if P then x.ok else y.ok := apply_ite ..

end Checked

end Mmix
