import AvatarBits.Codec.Tree

/-!
# Where the nodes of a codec's trees stand

Level `k` of a tree with bound `M` has the `M / 4 ^ k + 1` nodes whose least
value is at most `M`, and there are as many levels as it takes until four nodes
or fewer are left. The root counts as the one place of the level above those, so
that a walk through the tree needs no case of its own for it.

* `Codec.Has`: the places of a codec's trees, the root included.
* `Codec.number`: the position of a place's node among the nodes.

Results:
* `Codec.tiers_spec`: the levels of a tree, in closed form.
* `Codec.node_at`: the node at a place.
* `Codec.rootEdges_eq`: the edges of the root are those of its place.
-/
namespace AvatarBits

/-! Powers are those of the core library here, whatever else is imported. -/
attribute [local instance (2000)] instPowNat

namespace Codec

/-! ## Levels -/

/-- Number of nodes below a level. -/
def start (c : Codec) : Nat → Nat
  | 0 => 0
  | k + 1 => c.start k + (c.bound / radix ^ k + 1)

/-- A level. -/
def tier (c : Codec) (k : Nat) : Tier := ⟨k, c.start k, c.bound / radix ^ k + 1⟩

/-- The level below a level. -/
def below (c : Codec) : Nat → Option Tier
  | 0 => none
  | k + 1 => some (c.tier k)

/-- Number of levels, that of the root not counted. -/
def depth (c : Codec) : Nat := c.tiers.length

theorem tier_succ (c : Codec) (k : Nat) :
    (⟨(c.tier k).level + 1, (c.tier k).start + (c.tier k).count, ((c.tier k).count + 3) / radix⟩ :
      Tier) = c.tier (k + 1) := by
  have h : (c.bound / radix ^ k + 1 + 3) / radix = c.bound / radix ^ (k + 1) + 1 := by
    rw [Nat.pow_succ, ← Nat.div_div_eq_div_mul, radix]; omega
  simp only [tier, start, h]

/-- Levels go on until four nodes or fewer are left. -/
theorem tiers_tier (c : Codec) (k : Nat) : ∃ n,
    AvatarBits.tiers (c.tier k) = (List.range' k (n + 1)).map c.tier ∧
      c.bound / radix ^ (k + n) < 4 ∧ ∀ j, k ≤ j → j < k + n → 4 ≤ c.bound / radix ^ j := by
  generalize ht : c.tier k = t
  fun_induction AvatarBits.tiers t generalizing k with
  | case1 t h =>
    subst ht
    simp only [tier, radix] at h
    exact ⟨0, by simp, by simp only [radix, Nat.add_zero]; omega, fun j _ _ => by omega⟩
  | case2 t h ih =>
    subst ht
    obtain ⟨n, h1, h2, h3⟩ := ih (k + 1) (c.tier_succ k).symm
    simp only [tier, radix] at h
    refine ⟨n + 1, ?_, by rw [show k + (n + 1) = k + 1 + n by omega]; exact h2, fun j hk hj => ?_⟩
    · simp [List.range'_succ (s := k), List.map_cons, h1]
    · by_cases e : j = k
      · subst e; simp only [radix]; omega
      · exact h3 j (by omega) (by omega)

theorem tiers_spec (c : Codec) : ∃ n, c.depth = n + 1 ∧
    c.tiers = (List.range (n + 1)).map c.tier ∧
      c.bound / radix ^ n < 4 ∧ ∀ j, j < n → 4 ≤ c.bound / radix ^ j := by
  have h0 : c.tiers = AvatarBits.tiers (c.tier 0) := by
    simp only [tiers, tier, start, Nat.pow_zero, Nat.div_one]
  obtain ⟨n, h1, h2, h3⟩ := c.tiers_tier 0
  rw [Nat.zero_add] at h2 h3
  refine ⟨n, ?_, ?_, h2, fun j hj => h3 j (Nat.zero_le j) hj⟩
  · rw [depth, h0, h1]; simp
  · simp [h0, h1, List.range_eq_range']

theorem depth_pos (c : Codec) : 0 < c.depth := by
  obtain ⟨n, hd, -⟩ := c.tiers_spec; omega

theorem bound_lt_pow_depth (c : Codec) : c.bound < radix ^ c.depth := by
  obtain ⟨n, hd, -, h, -⟩ := c.tiers_spec
  rw [hd, Nat.pow_succ, Nat.mul_comm]
  exact (Nat.div_lt_iff_lt_mul (Nat.pow_pos (by decide))).1 h

theorem pow_le_bound (c : Codec) {k : Nat} (h : k + 1 < c.depth) : radix ^ (k + 1) ≤ c.bound := by
  obtain ⟨n, hd, -, -, h4⟩ := c.tiers_spec
  have := h4 k (by omega)
  rw [Nat.le_div_iff_mul_le (Nat.pow_pos (by decide))] at this
  rw [Nat.pow_succ, Nat.mul_comm]
  exact this

theorem depth_le (c : Codec) : c.depth ≤ 4 := by
  refine Nat.le_of_not_lt fun h => ?_
  have h1 := c.pow_le_bound (k := 3) (by omega)
  have h2 := c.bound_le
  simp only [radix, maxBound] at h1 h2
  omega

/-! ## Width and depth -/

theorem bound_lt_two_pow_width (c : Codec) : c.bound < 2 ^ c.width :=
  lt_two_pow_bitsFor c.bound_le

theorem two_pow_width_le (c : Codec) : 2 ^ c.width ≤ radix ^ c.depth := by
  rw [show radix = 2 ^ 2 from rfl, ← Nat.pow_mul]
  refine Nat.pow_le_pow_right (by decide) (Nat.le_of_not_lt fun h => ?_)
  have hm : 2 ^ (c.width - 1) ≤ c.bound :=
    bitsFor_minimal (by have := c.depth_pos; unfold width at h; omega)
  have hp : 2 ^ (2 * c.depth) ≤ 2 ^ (c.width - 1) := Nat.pow_le_pow_right (by decide) (by omega)
  have hb := c.bound_lt_pow_depth
  rw [show radix = 2 ^ 2 from rfl, ← Nat.pow_mul] at hb
  omega

/-- Every level but the root's has a bit of its own at least. -/
theorem two_mul_level_lt_width (c : Codec) {k : Nat} (h : k < c.depth) : 2 * k < c.width := by
  cases k with
  | zero => exact bitsFor_pos _
  | succ k =>
    have hp := c.pow_le_bound h
    have hb := c.bound_lt_two_pow_width
    rw [show radix = 2 ^ 2 from rfl, ← Nat.pow_mul] at hp
    exact (Nat.pow_lt_pow_iff_right (by decide)).1 (Nat.lt_of_le_of_lt hp hb)

/-! ## Places -/

/-- The place of the root. -/
def root (c : Codec) : Place := ⟨c.depth, 0⟩

@[simp] theorem root_level (c : Codec) : c.root.level = c.depth := rfl

/-- The places of a codec's trees. -/
def Has (c : Codec) (p : Place) : Prop := p.level ≤ c.depth ∧ p.lo ≤ c.bound

/-- The places right below a place, in order. -/
def children (c : Codec) (p : Place) : List Place :=
  match p.level with
  | 0 => []
  | k + 1 => (List.range' (radix * p.index)
      (min radix (c.bound / radix ^ k + 1 - radix * p.index))).map (Place.mk k)

theorem children_succ (c : Codec) (k i : Nat) : c.children ⟨k + 1, i⟩ =
    (List.range' (radix * i) (min radix (c.bound / radix ^ k + 1 - radix * i))).map (Place.mk k) :=
  rfl

/-- The position of a place's node among the nodes. -/
def number (c : Codec) (p : Place) : Nat := c.start p.level + p.index

theorem has_root (c : Codec) : c.Has c.root := ⟨Nat.le_refl _, by simp [root, Place.lo]⟩

theorem eq_root {c : Codec} {p : Place} (hp : c.Has p) (h : p.level = c.depth) : p = c.root := by
  obtain ⟨l, i⟩ := p
  obtain rfl : l = c.depth := h
  have hb := Nat.lt_of_le_of_lt hp.2 c.bound_lt_pow_depth
  simp only [Place.lo, Place.span] at hb
  have hi : i < 1 := Nat.lt_of_mul_lt_mul_right (by rwa [Nat.one_mul])
  simp [show i = 0 by omega, root]

theorem lo_le_iff (c : Codec) (k i : Nat) : (Place.mk k i).lo ≤ c.bound ↔ i ≤ c.bound / radix ^ k :=
  (Nat.le_div_iff_mul_le (Nat.pow_pos (by decide))).symm

theorem mem_children {c : Codec} {p q : Place} :
    q ∈ c.children p ↔ q.level + 1 = p.level ∧ q.index / radix = p.index ∧ q.lo ≤ c.bound := by
  obtain ⟨l, i⟩ := p
  obtain ⟨k, j⟩ := q
  rw [c.lo_le_iff]
  cases l with
  | zero => simp [children]
  | succ l =>
    simp only [children, List.mem_map, List.mem_range'_1, Place.mk.injEq, radix]
    constructor
    · rintro ⟨a, ha, rfl, rfl⟩
      omega
    · rintro ⟨hk, hj, hb⟩
      obtain rfl : k = l := by omega
      exact ⟨j, by omega, rfl, rfl⟩

/-! ## Nodes -/

theorem start_succ_le (c : Codec) {j k : Nat} (h : j < k) : c.start (j + 1) ≤ c.start k := by
  induction k with
  | zero => omega
  | succ k ih =>
    rcases Nat.lt_succ_iff_lt_or_eq.1 h with h | rfl
    · exact Nat.le_trans (ih h) (Nat.le_add_right _ _)
    · exact Nat.le_refl _

theorem nodes_getElem? (c : Codec) (role : Role) (n k : Nat) {p : Place} (hk : k ≤ p.level)
    (hn : p.level < k + n) (hb : p.lo ≤ c.bound) :
    (c.nodes role (c.below k) ((List.range' k n).map c.tier))[c.number p - c.start k]?
      = some (c.node role (c.below p.level) p.level p.index) := by
  obtain ⟨j, i⟩ := p
  rw [c.lo_le_iff] at hb
  simp only [number] at *
  induction n generalizing k with
  | zero => omega
  | succ n ih =>
    rw [List.range'_succ, List.map_cons, nodes]
    by_cases e : k = j
    · subst e
      have hi : i < (c.tier k).count := Nat.lt_succ_of_le hb
      rw [Nat.add_sub_cancel_left, List.getElem?_append_left (by simpa using hi),
        List.getElem?_map, List.getElem?_range hi]
      rfl
    · have hs := c.start_succ_le (show k < j by omega)
      have hc : c.start (k + 1) = c.start k + (c.tier k).count := rfl
      rw [List.getElem?_append_right (by simp only [List.length_map, List.length_range]; omega)]
      have h := ih (k + 1) (by omega) (by omega)
      rw [← h, hc, List.length_map, List.length_range]
      congr 1
      omega

/-- The node at a place. -/
theorem node_at (c : Codec) (role : Role) {p : Place} (hp : c.Has p) (h : p.level < c.depth) :
    (c.tree role).nodes[c.number p]? = some (c.node role (c.below p.level) p.level p.index) := by
  obtain ⟨n, hd, ht, -⟩ := c.tiers_spec
  have := c.nodes_getElem? role (n + 1) 0 (Nat.zero_le _) (by omega) hp.2
  rw [show (c.tree role).nodes = c.nodes role none c.tiers from rfl, ht, List.range_eq_range']
  exact this

/-! ## Edges -/

/-- The edge down to a place. -/
def edgeTo (c : Codec) (role : Role) (q : Place) : Edge := ⟨.node (c.number q), c.enter role q⟩

/-- The edges of a place: down first, and back to the root unless it is the root. -/
def edgesAt (c : Codec) (role : Role) (p : Place) : List Edge :=
  (c.children p).map (c.edgeTo role) ++ if p.level < c.depth then c.exits role p else []

theorem descents_eq (c : Codec) (role : Role) (p : Place) :
    c.descents role (c.below p.level) p.index = (c.children p).map (c.edgeTo role) := by
  obtain ⟨l, i⟩ := p
  cases l with
  | zero => rfl
  | succ k =>
    simp only [descents, below, children, List.map_map]
    rfl

theorem node_edges (c : Codec) (role : Role) {p : Place} (h : p.level < c.depth) :
    (c.node role (c.below p.level) p.level p.index).edges = c.edgesAt role p := by
  simp [node, edgesAt, h, c.descents_eq]

theorem edgesAt_root (c : Codec) (role : Role) :
    c.edgesAt role c.root = (c.children c.root).map (c.edgeTo role) := by
  simp only [edgesAt, root_level, Nat.lt_irrefl, if_false, List.append_nil]

/-- The edges of the root are those of its place. -/
theorem rootEdges_eq (c : Codec) (role : Role) :
    (c.tree role).rootEdges = c.edgesAt role c.root := by
  obtain ⟨n, hd, ht, hb, -⟩ := c.tiers_spec
  have hc : c.children c.root = (List.range (c.bound / radix ^ n + 1)).map (Place.mk n) := by
    rw [root, hd, children_succ, Nat.mul_zero, Nat.sub_zero, Nat.min_eq_right (by exact hb),
      ← List.range_eq_range']
  have hl : c.tiers.getLast? = some (c.tier n) := by
    rw [ht, List.range_succ, List.map_append]
    exact List.getLast?_concat
  rw [edgesAt_root, hc, List.map_map]
  simp only [tree, hl]
  rfl

end Codec

end AvatarBits
