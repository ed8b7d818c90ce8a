import AvatarBits.Analysis.Range
import AvatarBits.Proofs.Number.Whole
import Mathlib.Data.List.Induction

/-!
# Tables of bounds as tables of peaks

A bound starts at zero or above and is only raised to whole parts of numbers, so
at any time it is the greatest of the whole parts seen so far. Although the code
compares numbers and not their whole parts, nothing is lost: a whole part is a
number of the description again. A table is then a list of names and, for each
name, the numbers that it was raised by.

Results:
* `raised_peak`: raising a peak by one more number.
* `BoundTable.seeded`: seeding parameters, of which the first of each name counts.
* `BoundTable.raiseBy_ofPeaks`: raising names, in any order.
-/
namespace AvatarBits

/-! ## Peaks -/

/-- The greatest whole part among some numbers, or zero. -/
def peak : List Single → Int
  | [] => 0
  | x :: xs => max x.truncate (peak xs)

theorem peak_nonneg (xs : List Single) : 0 ≤ peak xs := by
  induction xs with
  | nil => exact Int.le_refl 0
  | cons x xs ih => simp only [peak]; omega

theorem peak_append (xs ys : List Single) : peak (xs ++ ys) = max (peak xs) (peak ys) := by
  have := peak_nonneg ys
  induction xs with
  | nil => simp only [peak, List.nil_append]; omega
  | cons x xs ih => simp only [peak, List.cons_append, ih]; omega

theorem le_peak {xs : List Single} {x : Single} (hx : x ∈ xs) : x.truncate ≤ peak xs := by
  induction xs with
  | nil => cases hx
  | cons y xs ih =>
    simp only [peak]
    rcases List.mem_cons.1 hx with rfl | hx
    · omega
    · have := ih hx; omega

/-- A peak is zero or the whole part of one of the numbers. -/
theorem peak_eq (xs : List Single) : peak xs = 0 ∨ ∃ x ∈ xs, x.truncate = peak xs := by
  induction xs with
  | nil => exact Or.inl rfl
  | cons x xs ih =>
    by_cases hx : peak xs ≤ x.truncate
    · exact Or.inr ⟨x, List.mem_cons_self, by simp only [peak]; omega⟩
    · have he : peak (x :: xs) = peak xs := by simp only [peak]; omega
      rw [he]
      exact ih.imp_right fun ⟨y, hy, hp⟩ => ⟨y, List.mem_cons_of_mem _ hy, hp⟩

/-- A peak is a number of the description. -/
theorem truncate_ofInt_peak (xs : List Single) :
    (Binary.ofInt (peak xs) : Single).truncate = peak xs := by
  rcases peak_eq xs with h | ⟨x, -, h⟩
  · rw [h]; exact Binary.truncate_ofInt (by decide)
  · rw [← h]; exact Binary.truncate_ofInt_truncate x

/-- A bound that is a peak is raised to the peak of one number more. -/
theorem raised_peak (xs : List Single) (x : Single) :
    BoundTable.raised (peak xs) x = peak (xs ++ [x]) := by
  have h := Binary.max_truncate_max (truncate_ofInt_peak xs) (peak_nonneg xs) x
  rw [peak_append]
  simp only [peak, BoundTable.raised, h]
  have := peak_nonneg xs
  omega

/-! ## First occurrences -/

/-- Of what occurs in a list, each thing once. -/
theorem nodup_eraseDups : ∀ names : List String, names.eraseDups.Nodup
  | [] => List.nodup_nil
  | n :: names => by
    rw [List.eraseDups_cons, List.nodup_cons]
    refine ⟨?_, nodup_eraseDups _⟩
    simp [List.mem_eraseDups]
termination_by names => names.length
decreasing_by exact Nat.lt_succ_of_le (List.length_filter_le _ _)

theorem eraseDups_concat (names : List String) (n : String) :
    (names ++ [n]).eraseDups
      = if n ∈ names then names.eraseDups else names.eraseDups ++ [n] := by
  rw [List.eraseDups_append]
  by_cases h : n ∈ names
  · have he : [n].removeAll names = [] := by simp [List.removeAll, h]
    rw [he, if_pos h]
    exact List.append_nil _
  · have he : [n].removeAll names = [n] := by simp [List.removeAll, h]
    rw [he, if_neg h]
    rfl

/-- Choosing names and choosing first occurrences commute. -/
theorem eraseDups_filter (p : String → Bool) (names : List String) :
    (names.filter p).eraseDups = names.eraseDups.filter p := by
  induction names using List.reverseRecOn with
  | nil => rfl
  | append_singleton names n ih =>
    rw [List.filter_append, eraseDups_concat]
    cases hp : p n with
    | false =>
      have he : [n].filter p = [] := by simp [hp]
      rw [he, List.append_nil, ih]
      split
      · rfl
      · rw [List.filter_append, he, List.append_nil]
    | true =>
      have he : [n].filter p = [n] := by simp [hp]
      rw [he, eraseDups_concat, ih]
      by_cases hm : n ∈ names
      · rw [if_pos (List.mem_filter.2 ⟨hm, hp⟩), if_pos hm]
      · rw [if_neg fun h => hm (List.mem_filter.1 h).1, if_neg hm, List.filter_append, he]

/-! ## Tables -/

/-- Of values that go with names, those of one name. -/
def valuesOf (named : List (String × Single)) (name : String) : List Single :=
  (named.filter (·.1 = name)).map Prod.snd

theorem mem_valuesOf {named : List (String × Single)} {name : String} {x : Single} :
    x ∈ valuesOf named name ↔ (name, x) ∈ named := by
  simp [valuesOf]

/-- The value that a name starts from, if a parameter is called so: the first one's default. -/
def firstDefault (parameters : List Parameter) (name : String) : List Single :=
  ((parameters.find? (·.name == name)).map Parameter.default).toList

namespace BoundTable

/-- The table of some names, each at the peak of its values. -/
def ofPeaks (names : List String) (values : String → List Single) : BoundTable :=
  ⟨names.map fun n => (n, peak (values n))⟩

/-- Raise the bounds of names, one after the other. -/
def raiseBy (t : BoundTable) (named : List (String × Single)) : BoundTable :=
  named.foldl (fun t p => t.raise p.1 p.2) t

theorem contains_ofPeaks {names : List String} {values : String → List Single} {name : String} :
    (ofPeaks names values).contains name = true ↔ name ∈ names := by
  simp [contains, ofPeaks]

theorem ofPeaks_congr {names : List String} {values values' : String → List Single}
    (h : ∀ n ∈ names, peak (values n) = peak (values' n)) :
    ofPeaks names values = ofPeaks names values' := by
  unfold ofPeaks
  rw [List.map_congr_left fun n hn => by rw [h n hn]]

theorem raise_ofPeaks (names : List String) (values : String → List Single) (name : String)
    (x : Single) : (ofPeaks names values).raise name x
      = ofPeaks names fun n => if n = name then values n ++ [x] else values n := by
  unfold raise ofPeaks
  rw [List.map_map]
  congr 1
  apply List.map_congr_left
  intro n _
  by_cases h : n = name
  · simp only [Function.comp, if_pos h, raised_peak]
  · simp only [Function.comp, if_neg h]

/-- Raising names adds to each the values that go with it. -/
theorem raiseBy_ofPeaks (names : List String) (values : String → List Single)
    (named : List (String × Single)) : (ofPeaks names values).raiseBy named
      = ofPeaks names fun n => values n ++ valuesOf named n := by
  induction named generalizing values with
  | nil => simp [raiseBy, valuesOf]
  | cons p named ih =>
    obtain ⟨m, x⟩ := p
    have hcons : (ofPeaks names values).raiseBy ((m, x) :: named)
        = ((ofPeaks names values).raise m x).raiseBy named := rfl
    rw [hcons, raise_ofPeaks, ih]
    congr 1
    funext n
    by_cases h : n = m
    · subst h; simp [valuesOf]
    · simp [valuesOf, h, Ne.symm h]

theorem seed_ofPeaks_of_mem {names : List String} {values : String → List Single} {name : String}
    (h : name ∈ names) (x : Single) : (ofPeaks names values).seed name x = ofPeaks names values :=
  if_pos (contains_ofPeaks.2 h)

theorem seed_ofPeaks_of_not_mem {names : List String} {values : String → List Single}
    {name : String} (h : name ∉ names) (x : Single) : (ofPeaks names values).seed name x
      = ofPeaks (names ++ [name]) fun n => if n = name then [x] else values n := by
  have hs : (ofPeaks names values).seed name x
      = ⟨(ofPeaks names values).entries ++ [(name, max x.truncate 0)]⟩ :=
    if_neg fun hc => h (contains_ofPeaks.1 hc)
  have hkeep : names.map (fun n => (n, peak (if n = name then [x] else values n)))
      = names.map fun n => (n, peak (values n)) := by
    apply List.map_congr_left
    intro n hn
    rw [if_neg fun (e : n = name) => h (e ▸ hn)]
  rw [hs]
  unfold ofPeaks
  rw [List.map_append, hkeep]
  simp [peak]

/-- Seeding parameters: their names in the order of first declaration, each at the first one's
default. -/
theorem seeded (parameters : List Parameter) :
    parameters.foldl (fun t p => t.seed p.name p.default) {}
      = ofPeaks (parameters.map Parameter.name).eraseDups (firstDefault parameters) := by
  induction parameters using List.reverseRecOn with
  | nil => rfl
  | append_singleton ps p ih =>
    rw [List.foldl_append, List.map_append, ih]
    simp only [List.foldl_cons, List.foldl_nil, List.map_cons, List.map_nil, eraseDups_concat]
    have hold : ∀ n ∈ ps.map Parameter.name, firstDefault (ps ++ [p]) n = firstDefault ps n := by
      intro n hn
      obtain ⟨q, hq, hqn⟩ := List.mem_map.1 hn
      have hsome : (ps.find? (·.name == n)).isSome := by
        rw [List.find?_isSome]
        exact ⟨q, hq, beq_iff_eq.2 hqn⟩
      obtain ⟨r, hr⟩ := Option.isSome_iff_exists.1 hsome
      simp only [firstDefault, List.find?_append, hr, Option.some_or]
    by_cases h : p.name ∈ ps.map Parameter.name
    · rw [seed_ofPeaks_of_mem (List.mem_eraseDups.2 h), if_pos h]
      exact ofPeaks_congr fun n hn => by rw [hold n (List.mem_eraseDups.1 hn)]
    · rw [seed_ofPeaks_of_not_mem fun hm => h (List.mem_eraseDups.1 hm), if_neg h]
      apply ofPeaks_congr
      intro n hn
      by_cases he : n = p.name
      · -- the first of its name
        have hnone : ps.find? (·.name == n) = none := by
          rw [List.find?_eq_none]
          intro q hq hqn
          exact h (List.mem_map.2 ⟨q, hq, (beq_iff_eq.1 hqn).trans he⟩)
        subst he
        simp [firstDefault, List.find?_append, hnone]
      · rcases List.mem_append.1 hn with hm | hm
        · rw [if_neg he, hold n (List.mem_eraseDups.1 hm)]
        · exact absurd (List.mem_singleton.1 hm) he

/-- The names that a limit keeps. -/
theorem prune_ofPeaks (names : List String) (values : String → List Single) (limit : Int) :
    (ofPeaks names values).prune limit
      = ofPeaks (names.filter fun n => peak (values n) ≤ limit) values := by
  unfold prune ofPeaks
  rw [List.filter_map]
  rfl

/-- The names that a limit drops, with their bounds. -/
theorem above_ofPeaks (names : List String) (values : String → List Single) (limit : Int) :
    (ofPeaks names values).above limit
      = (names.filter fun n => limit < peak (values n)).map fun n => (n, peak (values n)) := by
  unfold above ofPeaks
  rw [List.filter_map]
  rfl

end BoundTable

end AvatarBits
