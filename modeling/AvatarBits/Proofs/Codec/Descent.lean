import AvatarBits.Proofs.Codec.Steering

/-!
# Ways through a tree

For a number `x`, a tree goes from the place where it stands down to the deepest
place it can reach, back to the root if that place is not over `x`, and down
again to the deepest place over `x`. The first part is where the two halves
differ: the encode tree goes down over `x` only, the decode tree follows the
digits of `x` below any place (`Codec.aim`).

* `Codec.foot`: the deepest place over a number, from some level on.
* `Codec.route`: the places entered on the way.
* `Codec.rest`: the place where the way ends.

Results:
* `Codec.walks_route`: the way is what the tree goes, from every place.
* `Codec.length_route`: it has at most twice as many steps as the tree has levels.
-/
namespace AvatarBits

/-! Powers are those of the core library here, whatever else is imported. -/
attribute [local instance (2000)] instPowNat

/-! ## Places over a number -/

/-- The place of a level over a number. -/
def Place.spanning (m k : Nat) : Place := ⟨k, m / radix ^ k⟩

namespace Place

@[simp] theorem spanning_level (m k : Nat) : (spanning m k).level = k := rfl

theorem spanning_zero (m : Nat) : spanning m 0 = ⟨0, m⟩ := by
  rw [spanning, Nat.pow_zero, Nat.div_one]

theorem spanning_index_succ (m k : Nat) :
    (spanning m k).index / radix = (spanning m (k + 1)).index := by
  simp only [spanning, Nat.pow_succ, Nat.div_div_eq_div_mul]

theorem spanning_covers (m k : Nat) : (spanning m k).Covers m :=
  (Codec.covers_natCast _ _).2 rfl

theorem covers_iff_eq_spanning {p : Place} {m : Nat} : p.Covers m ↔ p = spanning m p.level := by
  rw [Codec.covers_natCast, spanning, ← span]
  exact ⟨fun h => by rw [h], fun h => (congrArg Place.index h).symm⟩

theorem spanning_lo_le (m k : Nat) : (spanning m k).lo ≤ m := Nat.div_mul_le_self _ _

/-- What is over a place is over all that is below it. -/
theorem spanning_covers_mono {m j k : Nat} {x : Int} (hjk : j ≤ k) (h : (spanning m j).Covers x) :
    (spanning m k).Covers x := by
  obtain ⟨d, rfl⟩ := Nat.exists_eq_add_of_le hjk
  unfold Covers at h ⊢
  simp only [spanning, span, Nat.pow_add, Int.natCast_mul, ← Nat.div_div_eq_div_mul] at h ⊢
  rw [← Int.ediv_ediv_of_nonneg (by omega), h]
  rfl

theorem spanning_lo_mono {m j k : Nat} (hjk : j ≤ k) : (spanning m k).lo ≤ (spanning m j).lo := by
  have hj : (spanning m j).Covers (spanning m j).lo :=
    (Codec.covers_natCast _ _).2 (Codec.lo_div_span _)
  have hk := (covers_iff _ _).1 (spanning_covers_mono hjk hj)
  omega

end Place

namespace Codec

open Place (spanning)

/-! ## Down -/

/-- The places below a level over a number, as deep as they go. -/
def path (c : Codec) (m : Nat) : (level : Nat) → List Place
  | 0 => []
  | k + 1 => if (spanning m k).lo ≤ c.bound then spanning m k :: c.path m k else []

/-- The deepest place over a number, from a level on. -/
def foot (c : Codec) (m : Nat) : (level : Nat) → Place
  | 0 => spanning m 0
  | k + 1 => if (spanning m k).lo ≤ c.bound then c.foot m k else spanning m (k + 1)

theorem foot_eq_spanning (c : Codec) (m k : Nat) : ∃ j, j ≤ k ∧ c.foot m k = spanning m j := by
  induction k with
  | zero => exact ⟨0, Nat.le_refl 0, rfl⟩
  | succ k ih =>
    unfold foot
    split
    · obtain ⟨j, hj, e⟩ := ih
      exact ⟨j, Nat.le_succ_of_le hj, e⟩
    · exact ⟨k + 1, Nat.le_refl _, rfl⟩

theorem foot_lo_le {c : Codec} {m k : Nat} (h : (spanning m k).lo ≤ c.bound) :
    (c.foot m k).lo ≤ c.bound := by
  induction k with
  | zero => exact h
  | succ k ih =>
    unfold foot
    split
    · exact ih ‹_›
    · exact h

/-- The deepest place does not depend on where the search for it starts. -/
theorem foot_of_le {c : Codec} {m j k : Nat} (h : (spanning m j).lo ≤ c.bound) (hjk : j ≤ k) :
    c.foot m k = c.foot m j := by
  induction k with
  | zero => rw [Nat.le_zero.1 hjk]
  | succ k ih =>
    rcases Nat.le_succ_iff.1 hjk with hk | rfl
    · simp [foot, if_pos (Nat.le_trans (Place.spanning_lo_mono hk) h), ih hk]
    · rfl

theorem foot_of_le_bound {c : Codec} {m k : Nat} (h : m ≤ c.bound) : c.foot m k = ⟨0, m⟩ := by
  rw [foot_of_le (j := 0) (Nat.le_trans (Place.spanning_lo_le m 0) h) (Nat.zero_le k), foot,
    Place.spanning_zero]

theorem length_path_le (c : Codec) (m k : Nat) : (c.path m k).length ≤ k := by
  induction k with
  | zero => exact Nat.le_refl 0
  | succ k ih =>
    unfold path
    split
    · exact Nat.succ_le_succ ih
    · exact Nat.zero_le _

/-! ## Walks -/

/-- A tree goes through places, one after another. -/
inductive Walks (c : Codec) (role : Role) (x : Int) : Place → List Place → Place → Prop
  | nil (p : Place) : Walks c role x p [] p
  | cons {p q r : Place} {qs : List Place} (hn : c.next? role x p = some q)
      (ht : Walks c role x q qs r) : Walks c role x p (q :: qs) r

theorem Walks.append {c : Codec} {role : Role} {x : Int} {p q r : Place} {ps qs : List Place}
    (h : c.Walks role x p ps q) (h' : c.Walks role x q qs r) : c.Walks role x p (ps ++ qs) r := by
  induction h with
  | nil => exact h'
  | cons hn _ ih => exact .cons hn (ih h')

section
variable {c : Codec} {role : Role} {x : Int}

theorem next?_of_child {p q : Place} (hq : q ∈ c.children p) (ha : role.Aims x q)
    (hu : ∀ r ∈ c.children p, role.Aims x r → r = q) : c.next? role x p = some q := by
  unfold next?
  cases hf : (c.children p).find? fun r => decide (role.Aims x r) with
  | none => exact absurd (decide_eq_true ha) (List.find?_eq_none.1 hf q hq)
  | some r =>
    have hr : decide (role.Aims x r) = true :=
      List.find?_some (p := fun r => decide (role.Aims x r)) hf
    rw [hu r (List.mem_of_find?_eq_some hf) (of_decide_eq_true hr)]
    rfl

theorem next?_of_no_child {p : Place} (h : ∀ q ∈ c.children p, ¬ role.Aims x q) :
    c.next? role x p = if p.level < c.depth ∧ ¬ p.Covers x then some c.root else none := by
  have hf : (c.children p).find? (fun q => decide (role.Aims x q)) = none :=
    List.find?_eq_none.2 fun q hq ha => h q hq (of_decide_eq_true ha)
  rw [next?, hf]
  rfl

/-- Below a place over `m`, a tree that reads `x` aims for the places over `m`. -/
def Steers (role : Role) (x : Int) (m k : Nat) : Prop :=
  ∀ q : Place, q.level < k → q.index / radix = m / radix ^ (q.level + 1) →
    (role.Aims x q ↔ q = spanning m q.level)

theorem Steers.mono {m j k : Nat} (h : Steers role x m k) (hjk : j ≤ k) : Steers role x m j :=
  fun q hq => h q (Nat.lt_of_lt_of_le hq hjk)

theorem Steers.child {m k : Nat} (h : Steers role x m (k + 1)) {q : Place}
    (hq : q ∈ c.children (spanning m (k + 1))) : role.Aims x q ↔ q = spanning m k := by
  obtain ⟨hl, hi, -⟩ := mem_children.1 hq
  obtain rfl : q.level = k := Nat.succ.inj hl
  exact h q (Nat.lt_succ_self _) hi

/-- Steered by `x`, a tree goes down over `m` as deep as it can. -/
theorem walks_path {m k : Nat} (h : Steers role x m k) :
    c.Walks role x (spanning m k) (c.path m k) (c.foot m k) := by
  induction k with
  | zero => exact .nil _
  | succ k ih =>
    unfold path foot
    by_cases hb : (spanning m k).lo ≤ c.bound
    · rw [if_pos hb, if_pos hb]
      have hm : spanning m k ∈ c.children (spanning m (k + 1)) :=
        mem_children.2 ⟨rfl, Place.spanning_index_succ m k, hb⟩
      exact .cons (next?_of_child hm ((h.child hm).2 rfl) fun r hr ha => (h.child hr).1 ha)
        (ih (h.mono (Nat.le_succ k)))
    · rw [if_neg hb, if_neg hb]
      exact .nil _

/-- Nothing below the deepest place is aimed for. -/
theorem foot_stuck {m k : Nat} (h : Steers role x m k) :
    ∀ q ∈ c.children (c.foot m k), ¬ role.Aims x q := by
  induction k with
  | zero => intro q hq; cases hq
  | succ k ih =>
    unfold foot
    by_cases hb : (spanning m k).lo ≤ c.bound
    · rw [if_pos hb]
      exact ih (h.mono (Nat.le_succ k))
    · rw [if_neg hb]
      intro q hq ha
      rw [(h.child hq).1 ha] at hq
      exact hb (mem_children.1 hq).2.2

end

/-! ## The way for a number -/

/-- The number that a tree goes down over from a place: the encode tree only over what it reads; the
decode tree takes the digits below the place from what it reads. -/
def aim : Role → Int → Place → Option Nat
  | .encode, x, p => if p.Covers x then some x.toNat else none
  | .decode, x, p => some (p.lo + (x % (p.span : Int)).toNat)

/-- The places entered on the way down from a place. -/
def dive (c : Codec) (role : Role) (x : Int) (p : Place) : List Place :=
  ((aim role x p).map fun m => c.path m p.level).getD []

/-- Where the way down from a place ends. -/
def bottom (c : Codec) (role : Role) (x : Int) (p : Place) : Place :=
  ((aim role x p).map fun m => c.foot m p.level).getD p

/-- The places entered on the whole way. -/
def route (c : Codec) (role : Role) (x : Int) (p : Place) : List Place :=
  c.dive role x p ++
    if p.Covers x ∨ p.level = c.depth then [] else c.root :: c.dive role x c.root

/-- Where the way ends: at the deepest place over the number, or at the root. -/
def rest (c : Codec) (x : Int) : Place :=
  if c.root.Covers x then c.foot x.toNat c.depth else c.root

/-- What a tree can read: the bits spell no more than they can. -/
def Readable (c : Codec) : Role → Int → Prop
  | .encode, _ => True
  | .decode, x => 0 ≤ x ∧ x < (2 ^ c.width : Nat)

theorem Reads.readable {c : Codec} {role : Role} {s : Store} {x : Int} (h : c.Reads role s x) :
    c.Readable role x := by
  cases role with
  | encode => trivial
  | decode =>
    obtain ⟨b, rfl, hb, -⟩ := h
    exact ⟨Int.natCast_nonneg b, Int.ofNat_lt.2 hb⟩

theorem covers_root_iff (c : Codec) (x : Int) :
    c.root.Covers x ↔ 0 ≤ x ∧ x < (radix ^ c.depth : Nat) := by
  have h : (0 : Int) < (radix ^ c.depth : Nat) := Int.natCast_pos.2 (Nat.pow_pos (by decide))
  simp only [Place.covers_iff, Place.hi, Place.lo, root, Place.span, Nat.zero_mul, Nat.zero_add]
  omega

theorem readable_covers_root {c : Codec} {x : Int} (h : c.Readable .decode x) :
    c.root.Covers x := by
  have := c.two_pow_width_le
  exact (c.covers_root_iff x).2 ⟨h.1, Int.lt_of_lt_of_le h.2 (Int.ofNat_le.2 this)⟩

section
variable {c : Codec} {role : Role} {x : Int} {p : Place}

theorem aim_of_covers (h : p.Covers x) : aim role x p = some x.toNat := by
  cases role with
  | encode => exact if_pos h
  | decode =>
    have h1 := Int.emod_add_mul_ediv x p.span
    have h2 := Int.emod_nonneg x (b := p.span) (by have := p.span_pos; omega)
    rw [h, Int.mul_comm, ← Int.natCast_mul, ← Place.lo] at h1
    refine congrArg some ?_
    generalize x % (p.span : Int) = r at h1 h2
    omega

theorem covers_toNat (h : p.Covers x) : (x.toNat : Int) = x := by
  have := ((Place.covers_iff _ _).1 h).1
  omega

/-- Numbers that agree below a place agree in every digit there. -/
theorem digit_eq {m n j k : Nat} (hjk : j < k) (h : m % radix ^ k = n % radix ^ k) :
    m / radix ^ j % radix = n / radix ^ j % radix := by
  have hd : radix ^ (j + 1) ∣ radix ^ k := Nat.pow_dvd_pow _ hjk
  have hn : ∀ n : Nat, n / radix ^ j % radix = n % radix ^ k % radix ^ (j + 1) / radix ^ j :=
    fun n => by rw [Nat.mod_mod_of_dvd n hd, Nat.pow_succ, Nat.mod_mul_right_div_self]
  rw [hn, hn, h]

/-- A tree is steered down by what it aims for. -/
theorem steers_aim (hx : c.Readable role x) {m : Nat} (hm : aim role x p = some m) :
    spanning m p.level = p ∧ Steers role x m p.level := by
  cases role with
  | encode =>
    by_cases hc : p.Covers x
    · obtain rfl : x.toNat = m := Option.some.inj ((if_pos hc).symm.trans hm)
      have hn := covers_toNat hc
      rw [← hn] at hc
      refine ⟨(Place.covers_iff_eq_spanning.1 hc).symm, ?_⟩
      intro q _ _
      rw [← Place.covers_iff_eq_spanning, hn]
      exact Iff.rfl
    · cases (if_neg hc).symm.trans hm
  | decode =>
    obtain ⟨b, rfl⟩ := Int.eq_ofNat_of_zero_le hx.1
    obtain rfl : p.lo + b % p.span = m := Option.some.inj hm
    have hs := p.span_pos
    have hlt := Nat.mod_lt b hs
    have hmod : (p.lo + b % p.span) % p.span = b % p.span := by
      rw [Place.lo, Nat.mul_add_mod_self_right, Nat.mod_mod]
    have hdiv : (p.lo + b % p.span) / p.span = p.index := by
      rw [Place.lo, Nat.mul_comm, Nat.mul_add_div hs, Nat.div_eq_of_lt hlt, Nat.add_zero]
    refine ⟨?_, fun q hq hi => ?_⟩
    · rw [spanning, ← Place.span, hdiv]
    · have hdig := digit_eq hq (m := p.lo + b % p.span) (n := b) hmod
      rw [Nat.pow_succ, ← Nat.div_div_eq_div_mul] at hi
      rw [aims_natCast, ← Place.covers_iff_eq_spanning, covers_natCast, Place.span, ← hdig]
      simp only [radix] at hi ⊢
      omega

theorem walks_dive (hx : c.Readable role x) :
    c.Walks role x p (c.dive role x p) (c.bottom role x p) := by
  unfold dive bottom
  cases hm : aim role x p with
  | none => exact .nil p
  | some m =>
    obtain ⟨ho, hs⟩ := steers_aim hx hm
    have hw := walks_path (c := c) hs
    rw [ho] at hw
    exact hw

theorem covers_of_child {q : Place} (hq : q ∈ c.children p) (h : q.Covers x) : p.Covers x := by
  obtain ⟨hl, hi, -⟩ := mem_children.1 hq
  obtain ⟨l, i⟩ := p
  have hn := covers_toNat h
  have ho := Place.spanning_index_succ x.toNat q.level
  rw [← hn] at h ⊢
  rw [← Place.covers_iff_eq_spanning.1 h, hi] at ho
  obtain rfl : q.level + 1 = l := hl
  obtain rfl : i = _ := ho
  exact Place.spanning_covers _ _

/-- At the end of the way down nothing more is aimed for. -/
theorem bottom_stuck (hx : c.Readable role x) :
    ∀ q ∈ c.children (c.bottom role x p), ¬ role.Aims x q := by
  unfold bottom
  cases hm : aim role x p with
  | some m => exact foot_stuck (steers_aim hx hm).2
  | none =>
    cases role with
    | decode => cases hm
    | encode =>
      intro q hq hc
      cases (if_pos (covers_of_child hq hc)).symm.trans hm

theorem bottom_of_covers (hp : c.Has p) (h : p.Covers x) : c.bottom role x p = c.rest x := by
  have hn := covers_toNat h
  have hc := h
  rw [← hn] at hc
  have ho := Place.covers_iff_eq_spanning.1 hc
  have hr : c.root.Covers x := by
    rw [ho] at h
    have hb := Place.spanning_covers_mono hp.1 h
    have hl : (spanning x.toNat c.depth).lo ≤ c.bound :=
      Nat.le_trans (Place.spanning_lo_mono hp.1) (ho ▸ hp.2)
    rw [eq_root (p := spanning x.toNat c.depth) ⟨Nat.le_refl _, hl⟩ rfl] at hb
    exact hb
  rw [bottom, aim_of_covers h, rest, if_pos hr, foot_of_le (ho ▸ hp.2) hp.1]
  rfl

theorem rest_covers (h : c.root.Covers x) : (c.rest x).Covers x := by
  obtain ⟨j, -, e⟩ := c.foot_eq_spanning x.toNat c.depth
  have hc := Place.spanning_covers x.toNat j
  rw [covers_toNat h] at hc
  rw [rest, if_pos h, e]
  exact hc

theorem has_rest (c : Codec) (x : Int) : c.Has (c.rest x) := by
  unfold rest
  by_cases h : c.root.Covers x
  · rw [if_pos h]
    obtain ⟨j, hj, e⟩ := c.foot_eq_spanning x.toNat c.depth
    rw [← covers_toNat h] at h
    have ho : c.root = spanning x.toNat c.depth := Place.covers_iff_eq_spanning.1 h
    refine ⟨by rw [e]; exact hj, foot_lo_le ?_⟩
    rw [← ho]
    exact c.has_root.2
  · rw [if_neg h]
    exact c.has_root

theorem covers_root_of_le {b : Nat} (h : b ≤ c.bound) : c.root.Covers b :=
  (c.covers_root_iff b).2 ⟨Int.natCast_nonneg b,
    Int.ofNat_lt.2 (Nat.lt_of_le_of_lt h c.bound_lt_pow_depth)⟩

theorem rest_of_le {b : Nat} (h : b ≤ c.bound) : c.rest b = ⟨0, b⟩ := by
  simp [rest, if_pos (covers_root_of_le h), Int.toNat_natCast, foot_of_le_bound h]

/-- A way that ends at a leaf ends at that of the number. -/
theorem rest_leaf (h : (c.rest x).level = 0) :
    ∃ b : Nat, x = b ∧ b ≤ c.bound ∧ c.rest x = ⟨0, b⟩ := by
  have hr : c.root.Covers x := Classical.byContradiction fun hr => by
    have hd := c.depth_pos
    rw [rest, if_neg hr, root_level] at h
    omega
  have hn := covers_toNat hr
  have hc := rest_covers hr
  rw [← hn] at hc
  have ho := Place.covers_iff_eq_spanning.1 hc
  rw [hn, h, Place.spanning_zero] at ho
  have hb := (c.has_rest x).2
  rw [ho, Place.lo, Place.span, Nat.pow_zero, Nat.mul_one] at hb
  exact ⟨x.toNat, hn.symm, hb, ho⟩

/-- The way down from the root ends where every way does. -/
theorem bottom_root (hx : c.Readable role x) : c.bottom role x c.root = c.rest x := by
  by_cases h : c.root.Covers x
  · exact bottom_of_covers c.has_root h
  · cases role with
    | encode =>
      have ha : aim .encode x c.root = none := if_neg h
      rw [bottom, ha, rest, if_neg h]
      rfl
    | decode => exact absurd (readable_covers_root hx) h

/-- The way down stays below its start. -/
theorem bottom_below (hx : c.Readable role x) : (c.bottom role x p).level ≤ p.level
    ∧ ∀ y : Int, (c.bottom role x p).Covers y → p.Covers y := by
  unfold bottom
  cases hm : aim role x p with
  | none => exact ⟨Nat.le_refl _, fun _ h => h⟩
  | some m =>
    obtain ⟨j, hj, e⟩ := c.foot_eq_spanning m p.level
    rw [Option.map_some, Option.getD_some, e]
    refine ⟨hj, ?_⟩
    intro y hy
    rw [← (steers_aim hx hm).1]
    exact Place.spanning_covers_mono hj hy

/-- Nothing is left to do where a way ends. -/
theorem next?_rest (hx : c.Readable role x) : c.next? role x (c.rest x) = none := by
  have hs := bottom_stuck (c := c) (p := c.root) hx
  rw [bottom_root hx] at hs
  rw [next?_of_no_child hs]
  apply if_neg
  intro hc
  by_cases h : c.root.Covers x
  · exact hc.2 (rest_covers h)
  · rw [rest, if_neg h] at hc
    exact Nat.lt_irrefl _ hc.1

/-- The way is what the tree goes. -/
theorem walks_route (hx : c.Readable role x) (hp : c.Has p) :
    c.Walks role x p (c.route role x p) (c.rest x) := by
  have hd := walks_dive (c := c) (p := p) hx
  unfold route
  by_cases h : p.Covers x ∨ p.level = c.depth
  · rw [if_pos h, List.append_nil]
    have hb : c.bottom role x p = c.rest x := by
      rcases h with h | h
      · exact bottom_of_covers hp h
      · simp [eq_root hp h, bottom_root hx]
    rw [← hb]
    exact hd
  · rw [if_neg h]
    obtain ⟨hl, hc⟩ := bottom_below (c := c) (p := p) hx
    have hn : c.next? role x (c.bottom role x p) = some c.root := by
      rw [next?_of_no_child (bottom_stuck hx)]
      have := hp.1
      exact if_pos ⟨by omega, fun hy => h (Or.inl (hc x hy))⟩
    have hr := walks_dive (c := c) (p := c.root) hx
    rw [bottom_root hx] at hr
    exact hd.append (.cons hn hr)

theorem length_dive_le (c : Codec) (role : Role) (x : Int) (p : Place) :
    (c.dive role x p).length ≤ p.level := by
  unfold dive
  cases aim role x p with
  | none => exact Nat.zero_le _
  | some m => exact c.length_path_le m p.level

/-- A way takes at most twice as many steps as the tree has levels. -/
theorem length_route (c : Codec) (role : Role) (x : Int) {p : Place} (hp : c.Has p) :
    (c.route role x p).length ≤ 2 * c.depth := by
  have h1 := c.length_dive_le role x p
  have h2 := c.length_dive_le role x c.root
  have h3 := hp.1
  rw [root_level] at h2
  unfold route
  rw [List.length_append]
  split
  · rw [List.length_nil]; omega
  · rw [List.length_cons]; omega

theorem route_root (c : Codec) (role : Role) (x : Int) :
    c.route role x c.root = c.dive role x c.root := by
  rw [route, if_pos (Or.inr c.root_level), List.append_nil]

end

end Codec

end AvatarBits
