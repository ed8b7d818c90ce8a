/-!
# Bits of a packed value

A packed integer travels as a few synced booleans, at least one and at most
seven.

Results:
* `lt_two_pow_bitsFor`: the bits are enough for every value up to the bound.
* `bitsFor_minimal`: one bit less would not be, except that one is the least.
* `spelled_bitsOf`: the bits of a value spell it.
-/
namespace AvatarBits

/-! Powers are those of the core library here, whatever else is imported. -/
attribute [local instance (2000)] instPowNat

/-- Greatest bound that can be packed. -/
def maxBound : Nat := 127

/-- Bits for the values from zero to a bound. -/
def bitsFor (bound : Int) : Nat :=
  if bound ≤ 1 then 1
  else if bound ≤ 3 then 2
  else if bound ≤ 7 then 3
  else if bound ≤ 15 then 4
  else if bound ≤ 31 then 5
  else if bound ≤ 63 then 6
  else 7

theorem lt_two_pow_bitsFor {bound : Nat} (h : bound ≤ maxBound) :
    bound < 2 ^ bitsFor bound := by
  unfold maxBound at h; unfold bitsFor; repeat' split
  all_goals omega

theorem bitsFor_minimal {bound : Nat} (h : 1 < bitsFor bound) :
    2 ^ (bitsFor bound - 1) ≤ bound := by
  revert h; unfold bitsFor; repeat' split
  all_goals omega

theorem bitsFor_pos (bound : Int) : 0 < bitsFor bound := by
  unfold bitsFor; repeat' split
  all_goals omega

theorem bitsFor_le (bound : Int) : bitsFor bound ≤ 7 := by
  unfold bitsFor; repeat' split
  all_goals omega

/-- Name of the boolean that carries a bit of a parameter. -/
def bitName (parameter : String) (bit : Nat) : String := s!"{parameter}.bit_{bit}"

/-- The lowest bits of a value, least significant first. -/
def bitsOf (width value : Nat) : List Bool := (List.range width).map value.testBit

/-- The value that bits spell, least significant first. -/
def spelled : List Bool → Nat
  | [] => 0
  | b :: bs => b.toNat + 2 * spelled bs

theorem spelled_bitsOf (width value : Nat) : spelled (bitsOf width value) = value % 2 ^ width := by
  unfold bitsOf
  induction width generalizing value with
  | zero => simp [spelled, Nat.mod_one]
  | succ w ih =>
    have h : (List.range (w + 1)).map value.testBit
        = value.testBit 0 :: (List.range w).map (value / 2).testBit := by
      rw [List.range_succ_eq_map, List.map_cons, List.map_map]
      congr 1
      apply List.map_congr_left
      intro k _
      simp [Nat.testBit_succ]
    rw [h, spelled, ih, Nat.pow_succ', Nat.mod_mul, Nat.testBit_zero]
    rcases Nat.mod_two_eq_zero_or_one value with h2 | h2 <;> simp [h2]

end AvatarBits
