import AvatarBits.Proofs.Codec.Descent

/-!
# Leaves on the way

Only leaves write, so what a run leaves behind is decided by the leaves on its
way. The encode tree enters the leaf of the number it reads and no other. The
decode tree enters that leaf too, but before it goes back to the root it follows
the digits of the number below the place where it stood, and may find a leaf
there (`Codec.stray`).

* `Codec.shown`: the value of the last leaf that was entered.

Results:
* `Codec.leaves_route_encode`, `Codec.leaves_route_decode`: the leaves on a way.
* `Codec.shown_route_of_le`: every way for a number within the bound shows that number in the end.
* `Codec.shown_route_encode`, `Codec.shown_route_decode`: what ways for other numbers show.
-/
namespace AvatarBits

/-! Powers are those of the core library here, whatever else is imported. -/
attribute [local instance (2000)] instPowNat

namespace Codec

open Place (spanning)

/-- The leaves on a way down: that of the number, if it has one. -/
theorem leaves_path (c : Codec) (m k : Nat) : (c.path m k).filter (·.level = 0)
    = if 0 < k ∧ m ≤ c.bound then [⟨0, m⟩] else [] := by
  induction k with
  | zero => rfl
  | succ k ih =>
    have hlo := Place.spanning_lo_le m k
    unfold path
    by_cases h : (spanning m k).lo ≤ c.bound
    · rw [if_pos h, List.filter_cons, ih]
      cases k with
      | zero =>
        have hm : m ≤ c.bound := by simpa [Place.spanning_zero, Place.lo, Place.span] using h
        simp [Place.spanning_zero, hm]
      | succ k => simp
    · rw [if_neg h, if_neg (by omega)]
      rfl

section
variable {c : Codec} {role : Role} {x : Int} {p : Place}

theorem leaves_dive (c : Codec) (role : Role) (x : Int) (p : Place) :
    (c.dive role x p).filter (·.level = 0) = ((aim role x p).map fun m =>
      if 0 < p.level ∧ m ≤ c.bound then [(⟨0, m⟩ : Place)] else []).getD [] := by
  unfold dive
  cases aim role x p with
  | none => rfl
  | some m => exact c.leaves_path m p.level

/-- The leaves on a way: one below the place where it starts, then one below the root. -/
theorem leaves_route (c : Codec) (role : Role) (x : Int) (p : Place) :
    (c.route role x p).filter (·.level = 0) = (c.dive role x p).filter (·.level = 0)
      ++ if p.Covers x ∨ p.level = c.depth then []
        else (c.dive role x c.root).filter (·.level = 0) := by
  have hr : ¬ (decide (c.root.level = 0) = true) := by
    have := c.depth_pos
    rw [root_level, decide_eq_true_eq]
    omega
  unfold route
  rw [List.filter_append]
  split
  · rfl
  · rw [List.filter_cons, if_neg hr]

/-- The leaf of the number is entered from every place over it but itself. -/
theorem leaves_dive_of_covers (h : p.Covers x) : (c.dive role x p).filter (·.level = 0)
    = if x ≤ c.bound ∧ p ≠ ⟨0, x.toNat⟩ then [⟨0, x.toNat⟩] else [] := by
  have hn := covers_toNat h
  have hl : 0 < p.level ↔ p ≠ ⟨0, x.toNat⟩ := by
    rw [← hn] at h
    have ho := Place.covers_iff_eq_spanning.1 h
    refine ⟨fun hp e => ?_, fun hne => Nat.pos_of_ne_zero fun h0 => hne ?_⟩
    · rw [e] at hp
      exact Nat.lt_irrefl 0 hp
    · rw [h0, Place.spanning_zero] at ho
      exact ho
  have hb : x ≤ c.bound ↔ x.toNat ≤ c.bound := by omega
  rw [leaves_dive, aim_of_covers h, Option.map_some, Option.getD_some]
  simp only [hl, hb, and_comm]

theorem leaves_dive_root (hx : c.Readable role x) : (c.dive role x c.root).filter (·.level = 0)
    = if 0 ≤ x ∧ x ≤ c.bound then [⟨0, x.toNat⟩] else [] := by
  by_cases h : c.root.Covers x
  · have hne : c.root ≠ ⟨0, x.toNat⟩ := by
      intro e
      have hd := c.depth_pos
      rw [← c.root_level, e] at hd
      exact Nat.lt_irrefl 0 hd
    have h0 := ((c.covers_root_iff x).1 h).1
    rw [leaves_dive_of_covers h]
    simp only [hne, h0, ne_eq, not_false_eq_true, and_true, true_and]
  · cases role with
    | decode => exact absurd (readable_covers_root hx) h
    | encode =>
      rw [leaves_dive, show aim .encode x c.root = none from if_neg h, if_neg fun hc => h ?_]
      · rfl
      · obtain ⟨b, rfl⟩ := Int.eq_ofNat_of_zero_le hc.1
        exact covers_root_of_le (Int.ofNat_le.1 hc.2)

theorem ne_leaf_of_not_covers (hx : 0 ≤ x) (h : ¬ p.Covers x) : p ≠ ⟨0, x.toNat⟩ := fun e => h (by
  rw [e, Place.Covers, Place.span, Nat.pow_zero]
  show x / 1 = (x.toNat : Int)
  rw [Int.ediv_one]
  omega)

/-- Of the leaves, the encode tree enters only that of the number it reads. -/
theorem leaves_route_encode (hp : c.Has p) : (c.route .encode x p).filter (·.level = 0)
    = if 0 ≤ x ∧ x ≤ c.bound ∧ p ≠ ⟨0, x.toNat⟩ then [⟨0, x.toNat⟩] else [] := by
  rw [leaves_route]
  by_cases h : p.Covers x
  · have h0 := Int.natCast_nonneg x.toNat
    rw [covers_toNat h] at h0
    rw [if_pos (Or.inl h), List.append_nil, leaves_dive_of_covers h]
    simp only [h0, true_and]
  · rw [leaves_dive, show aim .encode x p = none from if_neg h]
    by_cases hl : p.level = c.depth
    · rw [if_pos (Or.inr hl), if_neg fun hc => h ?_]
      · rfl
      · rw [eq_root hp hl]
        obtain ⟨b, rfl⟩ := Int.eq_ofNat_of_zero_le hc.1
        exact covers_root_of_le (Int.ofNat_le.1 hc.2.1)
    · have hx : c.Readable .encode x := trivial
      rw [if_neg (not_or.2 ⟨h, hl⟩), leaves_dive_root hx]
      by_cases hc : 0 ≤ x ∧ x ≤ c.bound
      · rw [if_pos hc, if_pos ⟨hc.1, hc.2, ne_leaf_of_not_covers hc.1 h⟩]
        rfl
      · rw [if_neg hc, if_neg fun hc' => hc ⟨hc'.1, hc'.2.1⟩]
        rfl

/-- The leaf that the decode tree enters below a place that is not over the number. -/
def stray (c : Codec) (b : Nat) (p : Place) : Option Nat :=
  if 0 < p.level ∧ ¬ p.Covers b ∧ p.lo + b % p.span ≤ c.bound then some (p.lo + b % p.span)
  else none

/-- The decode tree enters a stray leaf, if there is one, and the leaf of the number. -/
theorem leaves_route_decode (hp : c.Has p) {b : Nat} (hb : b < 2 ^ c.width) :
    (c.route .decode b p).filter (·.level = 0)
      = ((c.stray b p).map (Place.mk 0)).toList
        ++ if b ≤ c.bound ∧ p ≠ ⟨0, b⟩ then [⟨0, b⟩] else [] := by
  have hx : c.Readable .decode (b : Int) := ⟨Int.natCast_nonneg b, Int.ofNat_lt.2 hb⟩
  rw [leaves_route]
  unfold stray
  by_cases h : p.Covers (b : Int)
  · rw [if_pos (Or.inl h), List.append_nil, leaves_dive_of_covers h]
    simp only [h, not_true_eq_false, false_and, and_false, if_false, Int.ofNat_le,
      Int.toNat_natCast]
    rfl
  · have hl : p.level ≠ c.depth := fun hl => h (eq_root hp hl ▸ readable_covers_root hx)
    have hne := ne_leaf_of_not_covers hx.1 h
    rw [if_neg (not_or.2 ⟨h, hl⟩), leaves_dive_root hx, leaves_dive]
    congr 1
    · show (if 0 < p.level ∧ p.lo + b % p.span ≤ c.bound then [(⟨0, _⟩ : Place)] else []) = _
      by_cases hc : 0 < p.level ∧ p.lo + b % p.span ≤ c.bound
      · rw [if_pos hc, if_pos ⟨hc.1, h, hc.2⟩]
        rfl
      · rw [if_neg hc, if_neg fun hc' => hc ⟨hc'.1, hc'.2.2⟩]
        rfl
    · rw [Int.toNat_natCast] at hne ⊢
      simp only [hx.1, hne, ne_eq, not_false_eq_true, and_true, true_and, Int.ofNat_le]

/-- What is shown after some places have been entered: the last leaf, or what was shown before. -/
def shown (y : Int) (ps : List Place) : Int :=
  ps.foldl (fun y q => if q.level = 0 then (q.index : Int) else y) y

theorem shown_eq (y : Int) (ps : List Place) :
    shown y ps = (ps.filter (·.level = 0)).foldl (fun _ q => (q.index : Int)) y := by
  simp only [shown, List.foldl_filter, decide_eq_true_eq]

/-- A way for a number within the bound shows it in the end. -/
theorem shown_route_of_le (hp : c.Has p) (hx : c.Readable role x) {y : Int}
    (hl : p.level = 0 → y = p.index) (h0 : 0 ≤ x) (hb : x ≤ c.bound) :
    shown y (c.route role x p) = x := by
  obtain ⟨b, rfl⟩ := Int.eq_ofNat_of_zero_le h0
  have hy : p = ⟨0, b⟩ → y = b := fun e => by rw [hl (by rw [e]), e]
  rw [shown_eq]
  cases role with
  | encode =>
    rw [leaves_route_encode hp, Int.toNat_natCast]
    by_cases hpb : p = ⟨0, b⟩
    · rw [if_neg fun hc => hc.2.2 hpb]
      exact hy hpb
    · rw [if_pos ⟨h0, hb, hpb⟩]
      rfl
  | decode =>
    have hs : p = ⟨0, b⟩ → c.stray b p = none := fun e =>
      if_neg fun hc => Nat.lt_irrefl 0 (by rw [e] at hc; exact hc.1)
    rw [leaves_route_decode hp (Int.ofNat_lt.1 hx.2), List.foldl_append]
    by_cases hpb : p = ⟨0, b⟩
    · rw [if_neg fun hc => hc.2 hpb, hs hpb]
      exact hy hpb
    · rw [if_pos ⟨Int.ofNat_le.1 hb, hpb⟩]
      rfl

/-- For any other number the encode tree goes on showing what it showed. -/
theorem shown_route_encode (hp : c.Has p) {y : Int} (h : ¬ (0 ≤ x ∧ x ≤ c.bound)) :
    shown y (c.route .encode x p) = y := by
  rw [shown_eq, leaves_route_encode hp, if_neg fun hc => h ⟨hc.1, hc.2.1⟩]
  rfl

/-- For a number beyond the bound the decode tree shows the stray leaf, if there is one. -/
theorem shown_route_decode (hp : c.Has p) {b : Nat} (hb : b < 2 ^ c.width) (h : ¬ b ≤ c.bound)
    {y : Int} : shown y (c.route .decode b p) = ((c.stray b p).map Int.ofNat).getD y := by
  rw [shown_eq, leaves_route_decode hp hb, if_neg fun hc => h hc.1, List.append_nil]
  cases c.stray b p <;> rfl

end

end Codec

end AvatarBits
