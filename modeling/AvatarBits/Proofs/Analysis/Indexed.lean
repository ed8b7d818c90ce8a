import AvatarBits.Analysis.Indexed
import AvatarBits.Proofs.Analysis.Closed
import Mathlib.Data.List.Nodup

/-!
# Tables that keep their index

A table with an index does what the list of its entries does, whatever it is
asked, and its bounds are plain greatest values. Two things could go wrong. The
index is kept apart from the entries, and pruning moves those; it fits all the
same after each command. And a bound is compared as a number of limited
precision, which large integers are not; but every bound is zero or the whole
part of such a number, or the greatest word, and these come back unchanged.

* `IsBound`: what a bound can be.
* `Indexes`: an index leads from each name to its position.
* `IndexedTable.Sound`: the invariant of a table.
* `IndexedTable.Refines`: a table does what a list of greatest values does.

Results:
* `Indexes.concat`, `Indexes.positions`: how an index grows, and how it is made.
* `IndexedTable.Sound.exec`, `IndexedTable.Sound.exec_eq`: one command.
* `IndexedTable.Sound.run`, `IndexedTable.Sound.run_eq`: any number of them.
* `IndexedTable.refines_after`: every table that commands lead to refines its list.
-/
namespace AvatarBits

/-! ## Bounds -/

/-- What a bound can be: zero or more, and the whole part of the number that stands for it. The
number next to a large integer may be another one, so not every integer is a bound. -/
structure IsBound (b : Int) : Prop where
  nonneg : 0 ≤ b
  truncate_eq : (Binary.ofInt b : Single).truncate = b

namespace IsBound

theorem truncate_or_zero (x : Single) : IsBound (max x.truncate 0) := by
  rcases Int.le_total x.truncate 0 with h | h
  · rw [Int.max_eq_right h]
    exact ⟨Int.le_refl 0, Binary.truncate_ofInt (by decide)⟩
  · rw [Int.max_eq_left h]
    exact ⟨h, Binary.truncate_ofInt_truncate x⟩

variable {b : Int}

/-- A bound is raised to the greater of it and a whole part: comparing numbers in its place loses
nothing. -/
theorem raised_eq (h : IsBound b) (x : Single) : BoundTable.raised b x = max b x.truncate :=
  Binary.max_truncate_max h.truncate_eq h.nonneg x

/-- An integer that is no bound would be raised to the number next to it. -/
example : BoundTable.raised 16777219 0 = 16777220 := by decide +kernel

theorem raised (h : IsBound b) (x : Single) : IsBound (BoundTable.raised b x) := by
  rw [h.raised_eq]
  rcases Int.le_total b x.truncate with hx | hx
  · rw [Int.max_eq_right hx]
    exact ⟨Int.le_trans h.nonneg hx, Binary.truncate_ofInt_truncate x⟩
  · rw [Int.max_eq_left hx]
    exact h

end IsBound

namespace BoundTable

/-- Raise the bound of a name to a whole part if that is greater. -/
def lift (t : BoundTable) (name : String) (x : Single) : BoundTable :=
  ⟨t.entries.map fun e => (e.1, if e.1 = name then max e.2 x.truncate else e.2)⟩

theorem lift_comm (t : BoundTable) (n m : String) (x y : Single) :
    (t.lift n x).lift m y = (t.lift m y).lift n x := by
  refine congrArg mk ?_
  simp only [lift, List.map_map]
  refine List.map_congr_left fun e _ => Prod.ext rfl ?_
  simp only [Function.comp_apply]
  split <;> split <;> omega

theorem raise_eq_lift {t : BoundTable} (h : ∀ e ∈ t.entries, IsBound e.2) (name : String)
    (x : Single) : t.raise name x = t.lift name x := by
  refine congrArg mk (List.map_congr_left fun e he => ?_)
  show (if e.1 = name then (e.1, raised e.2 x) else e) = _
  rw [(h e he).raised_eq]
  split <;> rfl

/-- What is not a number raises nothing. -/
theorem lift_nan {t : BoundTable} (h : ∀ e ∈ t.entries, IsBound e.2) (name : String) :
    t.lift name .nan = t := by
  refine congrArg mk ((List.map_congr_left fun e he => ?_).trans (List.map_id _))
  have hmax : max e.2 (.nan : Single).truncate = e.2 := Int.max_eq_left (h e he).nonneg
  rw [hmax, ite_self]
  rfl

theorem mem_of_get? {t : BoundTable} {name : String} {b : Int} (h : t.get? name = some b) :
    (name, b) ∈ t.entries := by
  obtain ⟨e, he, rfl⟩ := Option.map_eq_some_iff.1 h
  have hname : e.1 = name := beq_iff_eq.1 (List.find?_eq_some_iff_append.1 he).1
  exact hname ▸ List.mem_of_find?_eq_some he

end BoundTable

/-! ## Indexes -/

/-- An index leads from each name of a list of entries to its position, and from no other name. -/
def Indexes (index : List (String × Nat)) (entries : List (String × Int)) : Prop :=
  ∀ name i, index.lookup name = some i ↔ ∃ b, entries[i]? = some (name, b)

namespace Indexes

variable {index : List (String × Nat)} {entries : List (String × Int)}

theorem nil : Indexes [] [] := fun _ _ => ⟨nofun, nofun⟩

theorem lookup_at (h : Indexes index entries) {i : Nat} {e : String × Int}
    (he : entries[i]? = some e) : index.lookup e.1 = some i :=
  (h e.1 i).2 ⟨e.2, he⟩

/-- A name stands at one position. -/
theorem eq_of_name (h : Indexes index entries) {i j : Nat} {e e' : String × Int}
    (hi : entries[i]? = some e) (hj : entries[j]? = some e') (hname : e.1 = e'.1) : i = j :=
  Option.some.inj ((h.lookup_at hi).symm.trans (hname ▸ h.lookup_at hj))

theorem nodup (h : Indexes index entries) : (entries.map Prod.fst).Nodup := by
  rw [List.Nodup, List.pairwise_map, List.pairwise_iff_getElem]
  intro i j hi hj hij hname
  exact Nat.ne_of_lt hij
    (h.eq_of_name (List.getElem?_eq_getElem hi) (List.getElem?_eq_getElem hj) hname)

theorem contains_iff (h : Indexes index entries) (name : String) :
    (index.lookup name).isSome = true ↔ ∃ e ∈ entries, e.1 = name := by
  rw [Option.isSome_iff_exists]
  constructor
  · intro ⟨i, hi⟩
    obtain ⟨b, hb⟩ := (h name i).1 hi
    exact ⟨_, List.mem_of_getElem? hb, rfl⟩
  · intro ⟨e, he, hname⟩
    obtain ⟨i, hi⟩ := List.mem_iff_getElem?.1 he
    exact ⟨i, hname ▸ h.lookup_at hi⟩

/-- An index fits however the bounds of its entries change. -/
theorem map (h : Indexes index entries) {f : String × Int → String × Int}
    (hf : ∀ e, (f e).1 = e.1) : Indexes index (entries.map f) := by
  intro n i
  rw [h n i, List.getElem?_map]
  constructor
  · intro ⟨b, hb⟩
    exact ⟨(f (n, b)).2, hb ▸ congrArg some (Prod.ext (hf (n, b)) rfl)⟩
  · intro ⟨b, hb⟩
    obtain ⟨e, he, hfe⟩ := Option.map_eq_some_iff.1 hb
    have hname : e.1 = n := (hf e).symm.trans (congrArg Prod.fst hfe)
    exact ⟨e.2, hname ▸ he⟩

/-- A new name goes to the end of the entries and to the front of the index. -/
theorem concat (h : Indexes index entries) {name : String} (hnew : ∀ e ∈ entries, e.1 ≠ name)
    (b : Int) : Indexes ((name, entries.length) :: index) (entries ++ [(name, b)]) := by
  intro n i
  have hat : (entries ++ [(name, b)])[i]?
      = if i = entries.length then some (name, b) else entries[i]? := by
    rcases Nat.lt_trichotomy i entries.length with hi | rfl | hi
    · rw [if_neg (Nat.ne_of_lt hi), List.getElem?_append_left hi]
    · rw [if_pos rfl, List.getElem?_concat_length]
    · rw [if_neg (Nat.ne_of_gt hi), List.getElem?_eq_none (Nat.le_of_lt hi),
        List.getElem?_eq_none (by simpa using Nat.succ_le_of_lt hi)]
  rw [List.lookup_cons, hat]
  by_cases hn : n = name
  · subst hn
    have hold : ∀ b', entries[i]? ≠ some (n, b') := fun b' he =>
      hnew _ (List.mem_of_getElem? he) rfl
    by_cases hi : i = entries.length
    · simp [hi]
    · simp [hi, hold, Ne.symm hi]
  · have hmiss : (n == name) = false := beq_eq_false_iff_ne.2 hn
    rw [hmiss]
    by_cases hi : i = entries.length
    · simp [hi, h n, Ne.symm hn]
    · rw [if_neg hi]
      exact h n i

theorem positions (h : (entries.map Prod.fst).Nodup) :
    Indexes (IndexedTable.positions entries) entries := by
  induction entries using List.reverseRecOn with
  | nil => exact nil
  | append_singleton entries e ih =>
    rw [List.map_append, List.nodup_append'] at h
    have hcons : IndexedTable.positions (entries ++ [e])
        = (e.1, entries.length) :: IndexedTable.positions entries := by
      simp [IndexedTable.positions, List.zipIdx_append]
    rw [hcons]
    refine (ih h.1).concat (fun x hx hname => ?_) e.2
    exact h.2.2 (List.mem_map_of_mem hx) (hname ▸ List.mem_map_of_mem List.mem_cons_self)

end Indexes

/-! ## Tables -/

namespace IndexedTable

/-- The table without its index. -/
def list (t : IndexedTable) : BoundTable := ⟨t.entries⟩

/-- An index that fits, and bounds that a table can come to. -/
structure Sound (t : IndexedTable) : Prop where
  indexes : Indexes t.index t.entries
  bounds : ∀ e ∈ t.entries, IsBound e.2

theorem sound_empty : Sound {} := ⟨.nil, nofun⟩

variable {t : IndexedTable}

/-! ### Reading -/

theorem Sound.contains_eq (h : t.Sound) (name : String) :
    t.contains name = t.list.contains name := by
  rw [Bool.eq_iff_iff, BoundTable.contains_iff]
  exact h.indexes.contains_iff name

theorem Sound.get?_eq (h : t.Sound) (name : String) : t.get? name = t.list.get? name := by
  unfold get? BoundTable.get? list
  cases hp : t.position? name with
  | none =>
    have hnone : t.entries.find? (·.1 == name) = none := by
      refine List.find?_eq_none.2 fun e he hname => ?_
      have hsome := (h.indexes.contains_iff name).2 ⟨e, he, beq_iff_eq.1 hname⟩
      exact Option.not_isSome_iff_eq_none.2 hp hsome
    rw [hnone]
    rfl
  | some i =>
    obtain ⟨b, hb⟩ := (h.indexes name i).1 hp
    obtain ⟨hi, hat⟩ := List.getElem?_eq_some_iff.1 hb
    have hfirst : t.entries.find? (·.1 == name) = some (name, b) := by
      refine List.find?_eq_some_iff_getElem.2 ⟨beq_self_eq_true name, i, hi, hat, fun j hj => ?_⟩
      have hj' := List.getElem?_eq_getElem (Nat.lt_trans hj hi)
      have hother : t.entries[j].1 ≠ name := fun hname =>
        Nat.ne_of_lt hj (h.indexes.eq_of_name hj' hb hname)
      rw [beq_eq_false_iff_ne.2 hother]
      rfl
    rw [hfirst, Option.bind_some, hb]

/-! ### Tracking -/

/-- Tracking a name in a table tracks it in the list. -/
theorem Sound.seed_eq (h : t.Sound) (name : String) (x : Single) :
    (t.seed name x).1 = !t.list.contains name
      ∧ (t.seed name x).2.list = t.list.seed name x := by
  unfold IndexedTable.seed BoundTable.seed
  rw [h.contains_eq]
  cases t.list.contains name <;> exact ⟨rfl, rfl⟩

theorem Sound.seed (h : t.Sound) (name : String) (x : Single) : (t.seed name x).2.Sound := by
  unfold IndexedTable.seed
  split
  · exact h
  · rename_i hnew
    constructor
    · refine h.indexes.concat (fun e he hname => hnew ?_) _
      exact (h.indexes.contains_iff name).2 ⟨e, he, hname⟩
    · exact List.forall_mem_append.2
        ⟨h.bounds, List.forall_mem_singleton.2 (IsBound.truncate_or_zero x)⟩

/-! ### Raising -/

/-- What stands at a name's position is what is called so. -/
theorem Sound.modify_eq (h : t.Sound) {name : String} {i : Nat} (hp : t.position? name = some i)
    (f : String × Int → String × Int) :
    t.entries.modify i f = t.entries.map fun e => if e.1 = name then f e else e := by
  refine List.ext_getElem? fun j => ?_
  rw [List.getElem?_modify, List.getElem?_map]
  cases hj : t.entries[j]? with
  | none => rfl
  | some e =>
    have hiff : i = j ↔ e.1 = name := by
      obtain ⟨b, hb⟩ := (h.indexes name i).1 hp
      constructor
      · intro hij
        rw [← hij, hb] at hj
        exact (congrArg Prod.fst (Option.some.inj hj)).symm
      · exact fun hname => h.indexes.eq_of_name hb hj hname.symm
    simp only [Option.map_eq_map, Option.map_some, hiff]

/-- Raising a name in a table raises it in the list, and the index stays as it is. -/
theorem Sound.raise_eq (h : t.Sound) (name : String) (x : Single) :
    t.raise name x
      = ((t.list.raise name x).get? name, ⟨(t.list.raise name x).entries, t.index⟩) := by
  rw [BoundTable.get?_raise, if_pos rfl, ← h.get?_eq]
  unfold IndexedTable.raise get?
  cases hp : t.position? name with
  | none =>
    have hfree : ¬ t.list.contains name = true := by
      rw [← h.contains_eq, contains, hp]
      exact nofun
    rw [BoundTable.raise_of_not_contains hfree]
    rfl
  | some i =>
    obtain ⟨b, hb⟩ := (h.indexes name i).1 hp
    have hentries : t.entries.modify i (fun e => (e.1, BoundTable.raised e.2 x))
        = (t.list.raise name x).entries := h.modify_eq hp _
    have hraised : (t.list.raise name x).entries[i]? = some (name, BoundTable.raised b x) := by
      rw [← hentries, List.getElem?_modify, hb]
      exact congrArg some (if_pos rfl)
    simp only [hraised, hb, Option.map_some, Option.bind_some, hentries]

theorem Sound.raise (h : t.Sound) (name : String) (x : Single) : (t.raise name x).2.Sound := by
  rw [h.raise_eq]
  constructor
  · refine h.indexes.map fun e => ?_
    show (if e.1 = name then (e.1, BoundTable.raised e.2 x) else e).1 = e.1
    split <;> rfl
  · intro e he
    obtain ⟨old, hold, rfl⟩ := List.mem_map.1 he
    show IsBound (if old.1 = name then (old.1, BoundTable.raised old.2 x) else old).2
    split
    · exact (h.bounds old hold).raised x
    · exact h.bounds old hold

/-! ### Pruning -/

/-- Pruning a table prunes the list. -/
theorem prune_eq (t : IndexedTable) (limit : Int) :
    t.prune limit
      = (t.list.above limit, ⟨(t.list.prune limit).entries,
        positions (t.list.prune limit).entries⟩) := by
  have habove : t.entries.filter (not ∘ fun e => decide (e.2 ≤ limit))
      = t.entries.filter fun e => decide (limit < e.2) := by
    refine List.filter_congr fun e _ => ?_
    rw [Function.comp_apply, ← decide_not]
    exact decide_eq_decide.2 Int.not_le
  unfold IndexedTable.prune
  rw [List.partition_eq_filter_filter, habove]
  rfl

theorem Sound.prune (h : t.Sound) (limit : Int) : (t.prune limit).2.Sound := by
  rw [prune_eq]
  have hsub : (t.list.prune limit).entries.Sublist t.entries := List.filter_sublist
  exact ⟨.positions ((hsub.map Prod.fst).nodup h.indexes.nodup),
    fun e he => h.bounds e (hsub.mem he)⟩

end IndexedTable

/-! ## Commands -/

/-- What a table is asked to do. -/
inductive TableCommand where
  | seed (name : String) (value : Single)
  | raise (name : String) (candidate : Single)
  | prune (limit : Int)
  | get (name : String)
  | contains (name : String)

/-- What a table answers: whether, how much, or which entries. -/
inductive TableAnswer where
  | flag (b : Bool)
  | bound (b : Option Int)
  | entries (es : List (String × Int))
  deriving DecidableEq

/-- Carry out a command on a table with an index. -/
def IndexedTable.exec (t : IndexedTable) : TableCommand → TableAnswer × IndexedTable
  | .seed name value => (.flag (t.seed name value).1, (t.seed name value).2)
  | .raise name candidate => (.bound (t.raise name candidate).1, (t.raise name candidate).2)
  | .prune limit => (.entries (t.prune limit).1, (t.prune limit).2)
  | .get name => (.bound (t.get? name), t)
  | .contains name => (.flag (t.contains name), t)

/-- Carry out a command on a list of bounds. -/
def BoundTable.exec (t : BoundTable) : TableCommand → TableAnswer × BoundTable
  | .seed name value => (.flag (!t.contains name), t.seed name value)
  | .raise name candidate => (.bound ((t.lift name candidate).get? name), t.lift name candidate)
  | .prune limit => (.entries (t.above limit), t.prune limit)
  | .get name => (.bound (t.get? name), t)
  | .contains name => (.flag (t.contains name), t)

/-- Carry out commands one after the other: the answers, and the table at the end. -/
def TableCommand.run {T : Type} (exec : T → TableCommand → TableAnswer × T) :
    T → List TableCommand → List TableAnswer × T
  | t, [] => ([], t)
  | t, c :: cs =>
    let (answer, next) := exec t c
    let (answers, last) := run exec next cs
    (answer :: answers, last)

namespace IndexedTable

variable {t : IndexedTable}

theorem Sound.exec (h : t.Sound) (c : TableCommand) : (t.exec c).2.Sound := by
  cases c with
  | seed name value => exact h.seed name value
  | raise name candidate => exact h.raise name candidate
  | prune limit => exact h.prune limit
  | get name => exact h
  | contains name => exact h

/-- A command is answered as the list answers it, and leaves the list as it leaves that. -/
theorem Sound.exec_eq (h : t.Sound) (c : TableCommand) :
    (t.exec c).map id list = t.list.exec c := by
  cases c with
  | seed name value =>
    obtain ⟨hanswer, hlist⟩ := h.seed_eq name value
    exact Prod.ext (congrArg TableAnswer.flag hanswer) hlist
  | raise name candidate =>
    rw [IndexedTable.exec, h.raise_eq, BoundTable.raise_eq_lift h.bounds]
    rfl
  | prune limit =>
    rw [IndexedTable.exec, prune_eq]
    rfl
  | get name => exact Prod.ext (congrArg TableAnswer.bound (h.get?_eq name)) rfl
  | contains name => exact Prod.ext (congrArg TableAnswer.flag (h.contains_eq name)) rfl

theorem Sound.run (h : t.Sound) (cs : List TableCommand) :
    (TableCommand.run IndexedTable.exec t cs).2.Sound := by
  induction cs generalizing t with
  | nil => exact h
  | cons c cs ih => exact ih (h.exec c)

/-- Commands are answered as the list answers them, whatever was done before. -/
theorem Sound.run_eq (h : t.Sound) (cs : List TableCommand) :
    (TableCommand.run IndexedTable.exec t cs).map id list
      = TableCommand.run BoundTable.exec t.list cs := by
  induction cs generalizing t with
  | nil => rfl
  | cons c cs ih =>
    have hrest := ih (h.exec c)
    simp only [TableCommand.run, ← h.exec_eq c]
    obtain ⟨hanswers, hlast⟩ := Prod.ext_iff.1 hrest
    exact Prod.ext (congrArg (List.cons _) hanswers) hlast

/-! ## Refinement -/

/-- A table does what the list of its entries does, which has each name once and raises bounds to
greatest values. -/
structure Refines (t : IndexedTable) : Prop where
  nodup_names : (t.entries.map Prod.fst).Nodup
  position_iff : ∀ name i, t.position? name = some i ↔ ∃ b, t.entries[i]? = some (name, b)
  nonneg : ∀ e ∈ t.entries, 0 ≤ e.2
  /-- Raising changes one bound, to the greater of it and the candidate's whole part. -/
  raise_eq : ∀ name x, t.raise name x
    = ((t.get? name).map (max · x.truncate), ⟨(t.list.lift name x).entries, t.index⟩)
  raise_nan : ∀ name, t.raise name .nan = (t.get? name, t)
  raise_untracked : ∀ name x, t.contains name = false → t.raise name x = (none, t)
  raise_comm : ∀ n x m y, ((t.raise n x).2.raise m y).2 = ((t.raise m y).2.raise n x).2
  /-- Pruning parts the entries, both in their order. -/
  prune_eq : ∀ limit, (t.prune limit).1 = t.entries.filter (limit < ·.2)
    ∧ (t.prune limit).2.entries = t.entries.filter (·.2 ≤ limit)
  /-- What is asked later is answered from the entries that are left. -/
  run_eq : ∀ limit cs,
    (TableCommand.run IndexedTable.exec (t.prune limit).2 cs).map id list
      = TableCommand.run BoundTable.exec ⟨t.entries.filter (·.2 ≤ limit)⟩ cs

theorem Sound.isBound (h : t.Sound) {name : String} {b : Int} (hb : t.get? name = some b) :
    IsBound b :=
  h.bounds _ (BoundTable.mem_of_get? (h.get?_eq name ▸ hb))

theorem Sound.raise_lift (h : t.Sound) (name : String) (x : Single) :
    t.raise name x
      = ((t.get? name).map (max · x.truncate), ⟨(t.list.lift name x).entries, t.index⟩) := by
  have hanswer : (t.list.raise name x).get? name = (t.get? name).map (max · x.truncate) := by
    rw [BoundTable.get?_raise, if_pos rfl, ← h.get?_eq]
    exact Option.map_congr fun b hb => (h.isBound hb).raised_eq x
  rw [h.raise_eq, hanswer, BoundTable.raise_eq_lift h.bounds]

theorem Sound.refines (h : t.Sound) : t.Refines where
  nodup_names := h.indexes.nodup
  position_iff := h.indexes
  nonneg e he := (h.bounds e he).nonneg
  raise_eq := h.raise_lift
  raise_nan name := by
    have hmax : (t.get? name).map (max · (.nan : Single).truncate) = t.get? name :=
      (Option.map_congr fun b hb => Int.max_eq_left (h.isBound hb).nonneg).trans Option.map_id'
    rw [h.raise_lift, hmax, BoundTable.lift_nan h.bounds]
    rfl
  raise_untracked name x hname := by
    unfold IndexedTable.raise
    rw [Option.not_isSome_iff_eq_none.1 (ne_true_of_eq_false hname)]
  raise_comm n x m y := by
    rw [(h.raise n x).raise_lift, (h.raise m y).raise_lift, h.raise_lift, h.raise_lift]
    exact congrArg (fun u : BoundTable => (⟨u.entries, t.index⟩ : IndexedTable))
      (t.list.lift_comm n m x y)
  prune_eq limit := by
    rw [IndexedTable.prune_eq]
    exact ⟨rfl, rfl⟩
  run_eq limit cs := by
    rw [(h.prune limit).run_eq, IndexedTable.prune_eq]
    rfl

/-- The table that commands lead to from an empty one. -/
def after (cs : List TableCommand) : IndexedTable := (TableCommand.run IndexedTable.exec {} cs).2

/-- **Refinement.** Every table that commands lead to refines its list of entries, and the commands
were answered as an empty list would have answered them. -/
theorem refines_after (cs : List TableCommand) :
    (after cs).Refines
      ∧ (TableCommand.run IndexedTable.exec {} cs).map id list
        = TableCommand.run BoundTable.exec {} cs :=
  ⟨(sound_empty.run cs).refines, sound_empty.run_eq cs⟩

/-- The first value of a name counts, and a name that was pruned is new again. -/
example : (TableCommand.run IndexedTable.exec {}
    [.seed "Mode" 3, .seed "Pose" 2, .seed "Mode" 9, .raise "Mode" (9 / 2), .prune 3, .get "Mode",
      .get "Pose", .seed "Mode" 1]).1
      = [.flag true, .flag true, .flag false, .bound (some 4), .entries [("Mode", 4)], .bound none,
        .bound (some 2), .flag true] := by decide +kernel

end IndexedTable

end AvatarBits
