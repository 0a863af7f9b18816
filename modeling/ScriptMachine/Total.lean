/-!
# Totals

The sum of a measure over the elements of a list.
-/

namespace ScriptMachine

def total {α : Type} (measure : α → Nat) : List α → Nat
  | [] => 0
  | a :: rest => measure a + total measure rest

variable {α : Type} (measure : α → Nat)

@[simp] theorem total_nil : total measure [] = 0 := rfl

@[simp] theorem total_cons (a : α) (rest : List α) :
    total measure (a :: rest) = measure a + total measure rest := rfl

@[simp] theorem total_append (xs ys : List α) :
    total measure (xs ++ ys) = total measure xs + total measure ys := by
  induction xs with
  | nil => simp
  | cons a xs ih => simp [ih, Nat.add_assoc]

end ScriptMachine
