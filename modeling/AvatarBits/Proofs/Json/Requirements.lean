import AvatarBits.Proofs.Json.Records

/-!
# What a reader asks of a value

The other way round from `Reads`: if a reader takes a value at all, then the text
has levels enough for the value, and something holds of what was written. That
too is closed under lists, options, records and tagged choices, since a member
with the name of a field is read by that field.

* `Requires`: a reader takes a value only if something holds.
* `Asks`: what the fields of a record require of members.

Results:
* `Record.requires`, `Requires.tagged`: records, and choices with a tag.
* `Requires.of_run`: whole texts.
-/
namespace AvatarBits.Json

/-- A step that has a result comes from one that had. -/
theorem exists_of_bind {ε α β : Type} {x : Except ε α} {f : α → Except ε β} {b : β}
    (h : x >>= f = .ok b) : ∃ a, x = .ok a ∧ f a = .ok b := by
  cases x with
  | error e => cases h
  | ok a => exact ⟨a, rfl, h⟩

theorem exists_of_map {ε α β : Type} {x : Except ε α} {f : α → β} {b : β}
    (h : f <$> x = .ok b) : ∃ a, x = .ok a ∧ f a = b := by
  cases x with
  | error e => cases h
  | ok a => exact ⟨a, rfl, Except.ok.inj h⟩

/-- Steps that all have a result, one for each item. -/
theorem forall_of_mapM {ε α β : Type} {f : α → Except ε β} {xs : List α} {ys : List β}
    (h : xs.mapM f = .ok ys) : ∀ x ∈ xs, ∃ y, f x = .ok y := by
  induction xs generalizing ys with
  | nil => nofun
  | cons x xs ih =>
    rw [List.mapM_cons] at h
    obtain ⟨y, hy, h⟩ := exists_of_bind h
    obtain ⟨zs, hzs, -⟩ := exists_of_bind h
    exact List.forall_mem_cons.2 ⟨⟨y, hy⟩, ih hzs⟩

theorem forall_of_foldlM {ε α β : Type} {f : β → α → Except ε β} {xs : List α} {b c : β}
    (h : xs.foldlM f b = .ok c) : ∀ x ∈ xs, ∃ p q, f p x = .ok q := by
  induction xs generalizing b with
  | nil => nofun
  | cons x xs ih =>
    rw [List.foldlM_cons] at h
    obtain ⟨q, hq, h⟩ := exists_of_bind h
    exact List.forall_mem_cons.2 ⟨⟨b, q, hq⟩, ih h⟩

/-! ## Depth -/

namespace Value

theorem depth_array_le {vs : List Value} {d : Nat} :
    (Value.array vs).depth ≤ d + 1 ↔ ∀ v ∈ vs, v.depth ≤ d := by
  refine ⟨fun h v hv => Nat.lt_succ_iff.1 (Nat.lt_of_lt_of_le (depth_lt_array hv) h), fun h => ?_⟩
  rw [depth, Nat.succ_le_succ_iff]
  induction vs with
  | nil => exact Nat.zero_le d
  | cons v vs ih =>
    rw [List.forall_mem_cons] at h
    exact Nat.max_le.2 ⟨h.1, ih h.2⟩

theorem depth_object_le {ms : List (String × Value)} {d : Nat} :
    (Value.object ms).depth ≤ d + 1 ↔ ∀ m ∈ ms, m.2.depth ≤ d := by
  refine ⟨fun h m hm => Nat.lt_succ_iff.1 (Nat.lt_of_lt_of_le (depth_lt_object hm) h), fun h => ?_⟩
  rw [depth, Nat.succ_le_succ_iff]
  induction ms with
  | nil => exact Nat.zero_le d
  | cons m ms ih =>
    rw [List.forall_mem_cons] at h
    exact Nat.max_le.2 ⟨h.1, ih h.2⟩

end Value

/-! ## Values -/

/-- A reader takes a value only where there are levels enough for it, and only if `p` holds. -/
structure Requires {α : Type} (r : Reader α) (v : Value) (p : Prop) : Prop where
  proper : v.Numerals Numeral.Proper
  only : ∀ depth x, r depth v.node = .ok x → v.depth ≤ depth ∧ p

namespace Requires

variable {α β : Type} {r : Reader α} {v : Value} {p q : Prop}

theorem imp (h : Requires r v p) (hpq : p → q) : Requires r v q where
  proper := h.proper
  only depth x hx := (h.only depth x hx).imp_right hpq

theorem map (h : Requires r v p) (f : α → β) :
    Requires (fun depth node => f <$> r depth node) v p where
  proper := h.proper
  only depth x hx := by
    obtain ⟨y, hy, -⟩ := exists_of_map hx
    exact h.only depth y hy

/-! ### Simple values -/

theorem string (s : String) : Requires r (.string s) True :=
  ⟨.string s, fun _ _ _ => ⟨Nat.zero_le _, trivial⟩⟩

theorem bool (b : Bool) : Requires r (.bool b) True :=
  ⟨.bool b, fun _ _ _ => ⟨Nat.zero_le _, trivial⟩⟩

theorem int (i : Int) : Requires r (.int i) True :=
  ⟨.number (Numeral.proper_ofInt i), fun _ _ _ => ⟨Nat.zero_le _, trivial⟩⟩

/-! ### Options and lists -/

theorem option {value : α → Value} {o : Option α} {P : α → Prop}
    (h : ∀ x ∈ o, Requires r (value x) (P x) ∧ value x ≠ .null) :
    Requires (.option r) (.option value o) (∀ x ∈ o, P x) := by
  cases o with
  | none => exact ⟨.null, fun _ _ _ => ⟨Nat.zero_le _, nofun⟩⟩
  | some x =>
    obtain ⟨hx, hv⟩ := h x rfl
    refine ⟨hx.proper, fun depth y hy => ?_⟩
    have hn := Reads.node_ne_null hv
    have hread : ∃ z, r depth (value x).node = .ok z := by
      rw [Value.option] at hy
      generalize (value x).node = n at hy hn
      cases n <;> first
        | exact absurd rfl hn
        | exact (exists_of_map hy).imp fun _ h => h.1
    obtain ⟨z, hz⟩ := hread
    exact (hx.only depth z hz).imp_right fun hp _ hm => Option.some.inj hm ▸ hp

theorem list {value : α → Value} {xs : List α} {P : α → Prop}
    (h : ∀ x ∈ xs, Requires r (value x) (P x)) :
    Requires (.list r) (.list value xs) (∀ x ∈ xs, P x) where
  proper := .array fun v hv => by
    obtain ⟨x, hx, rfl⟩ := List.mem_map.1 hv
    exact (h x hx).proper
  only depth ys hys := by
    rw [Value.list, Value.node_array, List.map_map] at hys
    cases depth with
    | zero => cases hys
    | succ d =>
      obtain ⟨zs, hzs, -⟩ := exists_of_bind hys
      have hitem : ∀ x ∈ xs, (value x).depth ≤ d ∧ P x := fun x hx => by
        obtain ⟨z, hz⟩ := forall_of_mapM hzs _ (List.mem_map_of_mem hx)
        exact (h x hx).only d z hz
      exact ⟨Value.depth_array_le.2 (List.forall_mem_map.2 fun x hx => (hitem x hx).1),
        fun x hx => (hitem x hx).2⟩

end Requires

/-! ## Records -/

/-- Where each member is read by the field of its name, there are levels enough for all of them,
and `p` holds. -/
structure Asks {α : Type} (fs : List (RecordField α)) (ms : List (String × Value)) (p : Prop) :
    Prop where
  proper : ∀ m ∈ ms, m.2.Numerals Numeral.Proper
  named : ∀ m ∈ ms, m.1 ∈ fs.map RecordField.name
  only : ∀ depth, (∀ m ∈ ms, ∀ f ∈ fs, f.name = m.1 → ∃ set, f.read depth m.2.node = .ok set) →
    (∀ m ∈ ms, m.2.depth ≤ depth) ∧ p

namespace Asks

variable {α β : Type} {fs : List (RecordField α)} {ms : List (String × Value)} {p q : Prop}

theorem nil (fs : List (RecordField α)) : Asks fs [] True :=
  ⟨nofun, nofun, fun _ _ => ⟨nofun, trivial⟩⟩

theorem imp (h : Asks fs ms p) (hpq : p → q) : Asks fs ms q where
  proper := h.proper
  named := h.named
  only depth hread := (h.only depth hread).imp_right hpq

theorem present {f : RecordField α} {v : Value} (hv : Requires f.read v p) (h : Asks fs ms q) :
    Asks (f :: fs) ((f.name, v) :: ms) (p ∧ q) where
  proper := List.forall_mem_cons.2 ⟨hv.proper, h.proper⟩
  named := List.forall_mem_cons.2
    ⟨List.mem_cons_self, fun m hm => List.mem_cons_of_mem _ (h.named m hm)⟩
  only depth hread := by
    rw [List.forall_mem_cons] at hread
    obtain ⟨set, hset⟩ := hread.1 f List.mem_cons_self rfl
    obtain ⟨hd, hp⟩ := hv.only depth set hset
    obtain ⟨hds, hq⟩ := h.only depth fun m hm g hg => hread.2 m hm g (List.mem_cons_of_mem _ hg)
    exact ⟨List.forall_mem_cons.2 ⟨hd, hds⟩, hp, hq⟩

theorem absent {f : RecordField α} (h : Asks fs ms p) : Asks (f :: fs) ms p where
  proper := h.proper
  named m hm := List.mem_cons_of_mem _ (h.named m hm)
  only depth hread := h.only depth fun m hm g hg => hread m hm g (List.mem_cons_of_mem _ hg)

theorem required {name : String} {r : Reader β} {v : Value} {set : β → α → α}
    (hv : Requires r v p) (h : Asks fs ms q) :
    Asks (.required name r set :: fs) ((name, v) :: ms) (p ∧ q) :=
  .present (f := .required name r set) (hv.map set) h

theorem optional {name : String} {r : Reader β} {v : Value} {set : β → α → α}
    (hv : Requires r v p) (h : Asks fs ms q) :
    Asks (.optional name r set :: fs) ((name, v) :: ms) (p ∧ q) :=
  .present (f := .optional name r set) (hv.map set) h

end Asks

namespace Record

variable {α : Type} {r : Record α} {ms : List (String × Value)} {p : Prop}

/-- A member that is read is read by the field of its name. -/
theorem exists_of_member (hn : (r.fields.map RecordField.name).Nodup) {depth : Nat}
    {skip : Node → Option Fault} {name : String} {node : Node} {acc acc' : α × List String}
    (h : r.member depth skip name node acc = .ok acc') {f : RecordField α} (hf : f ∈ r.fields)
    (hname : f.name = name) : ∃ set, f.read depth node = .ok set := by
  subst hname
  unfold member at h
  rw [find?_name hn hf] at h
  dsimp only at h
  split at h
  · cases h
  · obtain ⟨set, hset, -⟩ := exists_of_bind h
    exact ⟨set, hset⟩

/-- What the fields of a record ask of members holds if all of them are read. -/
theorem Asks.of_foldlM (hn : (r.fields.map RecordField.name).Nodup) (h : Asks r.fields ms p)
    {depth : Nat} {skip : Node → Option Fault} {acc acc' : α × List String}
    (hfold : ms.foldlM (fun acc m => r.member depth skip m.1 m.2.node acc) acc = .ok acc') :
    (∀ m ∈ ms, m.2.depth ≤ depth) ∧ p :=
  h.only depth fun m hm f hf hname => by
    obtain ⟨a, b, hab⟩ := forall_of_foldlM hfold m hm
    exact exists_of_member hn hab hf hname

/-- **Records.** A record is taken only if what its fields ask of the members holds. -/
theorem requires (hn : (r.fields.map RecordField.name).Nodup) (h : Asks r.fields ms p) :
    Requires r.read (.object ms) p where
  proper := .object h.proper
  only depth x hx := by
    rw [Value.node_object] at hx
    cases depth with
    | zero => cases hx
    | succ d =>
      obtain ⟨acc, hacc, -⟩ := exists_of_bind hx
      rw [members_eq_foldlM] at hacc
      obtain ⟨hd, hp⟩ := Asks.of_foldlM hn h hacc
      exact ⟨Value.depth_object_le.2 hd, hp⟩

theorem of_ofContent (hn : (r.fields.map RecordField.name).Nodup) (h : Asks r.fields ms p)
    {depth : Nat} {x : α}
    (hx : r.ofContent depth (.members (ms.map fun m => (m.1, m.2.node))) = .ok x) :
    (∀ m ∈ ms, m.2.depth ≤ depth) ∧ p := by
  obtain ⟨acc, hacc, -⟩ := exists_of_bind hx
  rw [List.foldlM_map] at hacc
  exact Asks.of_foldlM hn h hacc

end Record

/-! ## Tagged choices -/

/-- What is left beside a tag is all other members, in order. -/
theorem Content.eq_of_ofMembers {κ : Type} {name : String} {tag : Node → Except Cause κ}
    {depth : Nat} {ms : List (String × Value)} (hname : ∀ m ∈ ms, m.1 ≠ name) {found : Option κ}
    {res : Option κ × List (String × Node)}
    (h : ofMembers name tag depth (ms.map fun m => (.text (some m.1), m.2.node)) found = .ok res) :
    res = (found, ms.map fun m => (m.1, m.2.node)) := by
  induction ms generalizing res with
  | nil => exact (Except.ok.inj h).symm
  | cons m ms ih =>
    rw [List.forall_mem_cons] at hname
    rw [List.map_cons, ofMembers, if_neg hname.1] at h
    split at h
    · cases h
    · obtain ⟨res', hres, h⟩ := exists_of_bind h
      rw [ih hname.2 hres] at h
      exact (Except.ok.inj h).symm

/-- **Tagged choices.** A choice is taken only if its other members are, where its tag leads. -/
theorem Requires.tagged {κ α : Type} (next : κ → Nat → Content → Except Cause α)
    {title name word : String} {tag : Node → Except Cause κ} {k : κ} {ms : List (String × Value)}
    {p : Prop} (htag : tag (.string (some word)) = .ok k)
    (hp : ∀ m ∈ ms, m.2.Numerals Numeral.Proper) (hname : ∀ m ∈ ms, m.1 ≠ name)
    (hnext : ∀ depth x, next k depth (.members (ms.map fun m => (m.1, m.2.node))) = .ok x →
      (∀ m ∈ ms, m.2.depth ≤ depth) ∧ p) :
    Requires (fun depth node => do
      let (k, content) ← Content.split title name tag depth node
      next k (depth - 1) content) (.object ((name, .string word) :: ms)) p where
  proper := .object (List.forall_mem_cons.2 ⟨.string word, hp⟩)
  only depth x hx := by
    rw [Value.node_object] at hx
    obtain ⟨⟨k', content⟩, hsplit, hx⟩ := exists_of_bind hx
    cases depth with
    | zero => cases hsplit
    | succ d =>
      obtain ⟨res, hres, hsplit⟩ := exists_of_bind hsplit
      rw [List.map_cons, Content.ofMembers, if_pos rfl, Value.node, htag] at hres
      obtain rfl := Content.eq_of_ofMembers hname hres
      obtain ⟨rfl, rfl⟩ := Prod.mk.inj (Except.ok.inj hsplit)
      obtain ⟨hd, hp⟩ := hnext d x hx
      exact ⟨Value.depth_object_le.2 (List.forall_mem_cons.2 ⟨Nat.zero_le d, hd⟩), hp⟩

/-! ## Whole texts -/

section
variable {α : Type} {r : Reader α} {v : Value} {t : String} (ht : Document.scan t = ⟨v.node, none⟩)
include ht

/-- A text that shows a value that a reader gives back is read so. -/
theorem Reads.run_of_scan {x : α} (h : Reads r v x) (hd : v.depth ≤ maxDepth) :
    r.run t = .ok x := by
  simp only [Reader.run, ht, h.read maxDepth (Nat.le_refl _) hd]
  rfl

/-- **Texts.** A text that shows a value is taken only if the value nests no deeper than a text may,
and only if what the reader requires holds. -/
theorem Requires.of_run {p : Prop} (h : Requires r v p) {x : α} (hx : r.run t = .ok x) :
    v.depth ≤ maxDepth ∧ p := by
  rw [Reader.run, ht] at hx
  obtain ⟨y, hy, -⟩ := exists_of_bind hx
  exact h.only maxDepth y hy

end

end AvatarBits.Json
