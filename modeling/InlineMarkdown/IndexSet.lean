/-! Finite sets of indices, held as the binary digits of one number. -/
namespace InlineMarkdown

/-- A set of natural numbers: `n` is in it when digit `n` is set. -/
structure IndexSet where
  digits : Nat := 0
deriving DecidableEq, Repr, Inhabited

namespace IndexSet

def contains (s : IndexSet) (n : Nat) : Bool := s.digits.testBit n

def insert (s : IndexSet) (n : Nat) : IndexSet := ⟨s.digits ||| 1 <<< n⟩

@[simp] theorem contains_empty (n : Nat) : contains {} n = false := by simp [contains]

@[simp] theorem contains_insert (s : IndexSet) (m n : Nat) :
    (s.insert m).contains n = (decide (m = n) || s.contains n) := by
  simp only [contains, insert, Nat.testBit_or, Nat.one_shiftLeft, Nat.testBit_two_pow, Bool.or_comm]

end IndexSet
end InlineMarkdown
