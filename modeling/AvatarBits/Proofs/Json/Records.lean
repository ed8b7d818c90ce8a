import AvatarBits.Json.Reader
import AvatarBits.Proofs.Json.Text

/-!
# Shapes that are read back

A reader gives back what was written if it does at every depth that the value
needs. That is closed under lists, options, records and tagged choices: a record
is read back if each member that is written is the next field's and a field
whose member is left out is neither needed nor changed.

* `Value.depth`: the levels that a value nests.
* `Reads`: a reader gives back a value.
* `Fills`: members that fill a record, field by field.

Results:
* `Record.reads`: records.
* `Reads.tagged`: choices with a tag.
* `Reads.run_text`: whole texts.
-/
namespace AvatarBits.Json

/-! ## Depth -/

namespace Value

mutual

/-- Levels that a value nests: a container has one more than what is in it. -/
def depth : Value → Nat
  | .array vs => depthItems vs + 1
  | .object ms => depthMembers ms + 1
  | _ => 0

/-- Levels of the deepest item. -/
def depthItems : List Value → Nat
  | [] => 0
  | v :: vs => max (depth v) (depthItems vs)

/-- Levels of the deepest member. -/
def depthMembers : List (String × Value) → Nat
  | [] => 0
  | (_, v) :: ms => max (depth v) (depthMembers ms)

end

theorem depth_lt_array {v : Value} {vs : List Value} (h : v ∈ vs) :
    v.depth < (Value.array vs).depth := by
  rw [depth, Nat.lt_succ_iff]
  induction vs with
  | nil => cases h
  | cons w vs ih =>
    rw [depthItems]
    rcases List.mem_cons.1 h with rfl | h
    · exact Nat.le_max_left _ _
    · exact Nat.le_trans (ih h) (Nat.le_max_right _ _)

theorem depth_lt_object {m : String × Value} {ms : List (String × Value)} (h : m ∈ ms) :
    m.2.depth < (Value.object ms).depth := by
  rw [depth, Nat.lt_succ_iff]
  induction ms with
  | nil => cases h
  | cons w ms ih =>
    rw [depthMembers]
    rcases List.mem_cons.1 h with rfl | h
    · exact Nat.le_max_left _ _
    · exact Nat.le_trans (ih h) (Nat.le_max_right _ _)

/-- Where there are levels enough for an array, one fewer is enough for its items. -/
theorem exists_of_depth_array {vs : List Value} {depth : Nat} (h : (Value.array vs).depth ≤ depth) :
    ∃ d, depth = d + 1 ∧ ∀ v ∈ vs, v.depth ≤ d := by
  refine ⟨depth - 1, ?_, fun v hv => ?_⟩
  · rw [Value.depth] at h
    omega
  · have := depth_lt_array hv
    omega

/-- Where there are levels enough for an object, one fewer is enough for its members. -/
theorem exists_of_depth_object {ms : List (String × Value)} {depth : Nat}
    (h : (Value.object ms).depth ≤ depth) : ∃ d, depth = d + 1 ∧ ∀ m ∈ ms, m.2.depth ≤ d := by
  refine ⟨depth - 1, ?_, fun m hm => ?_⟩
  · rw [Value.depth] at h
    omega
  · have := depth_lt_object hm
    omega

theorem node_array (vs : List Value) : (Value.array vs).node = .array (vs.map node) none := by
  rw [node]
  congr
  induction vs with
  | nil => rfl
  | cons v vs ih => rw [nodes, ih, List.map_cons]

theorem node_object (ms : List (String × Value)) :
    (Value.object ms).node = .object (ms.map fun m => (.text (some m.1), m.2.node)) none := by
  rw [node]
  congr
  induction ms with
  | nil => rfl
  | cons m ms ih => rw [members, ih, List.map_cons]

end Value

/-! ## Values that are read whole -/

/-- A numeral that a text takes and whose number is in range. -/
structure Numeral.Sound (n : Numeral) : Prop extends n.Proper where
  inRange : n.read ≠ none

theorem wholeItems?_eq_none (depth : Nat) {ns : List Node}
    (h : ∀ n ∈ ns, n.wholeFault? depth = none) : Node.wholeItems? depth ns = none := by
  induction ns with
  | nil => rfl
  | cons n ns ih =>
    rw [Node.wholeItems?, h n List.mem_cons_self, ih fun m hm => h m (List.mem_cons_of_mem _ hm)]
    rfl

theorem wholeMembers?_eq_none (depth : Nat) {ms : List (String × Value)}
    (h : ∀ m ∈ ms, m.2.node.wholeFault? depth = none) :
    Node.wholeMembers? depth (ms.map fun m => (.text (some m.1), m.2.node)) = none := by
  induction ms with
  | nil => rfl
  | cons n ms ih =>
    rw [List.map_cons, Node.wholeMembers?, h n List.mem_cons_self,
      ih fun m hm => h m (List.mem_cons_of_mem _ hm)]
    rfl

/-- A value that is read whole has no fault. -/
theorem Value.Numerals.wholeFault?_eq_none {v : Value} (h : v.Numerals Numeral.Sound) {depth : Nat}
    (hd : v.depth ≤ depth) : v.node.wholeFault? depth = none := by
  induction h generalizing depth with
  | null => rfl
  | bool b => rfl
  | @number n h =>
    have := h.inRange
    cases hr : n.read with
    | none => exact absurd hr this
    | some x => simp [node, Node.wholeFault?, hr]
  | string s => rfl
  | @array vs _ ih =>
    obtain ⟨d, rfl, hvs⟩ := exists_of_depth_array hd
    have hitems : ∀ n ∈ vs.map node, n.wholeFault? d = none := fun n hn => by
      obtain ⟨v, hv, rfl⟩ := List.mem_map.1 hn
      exact ih v hv (hvs v hv)
    rw [node_array]
    simp [Node.wholeFault?, wholeItems?_eq_none d hitems]
  | @object ms _ ih =>
    obtain ⟨d, rfl, hms⟩ := exists_of_depth_object hd
    have hmembers : ∀ m ∈ ms, m.2.node.wholeFault? d = none := fun m hm => ih m hm (hms m hm)
    rw [node_object]
    simp [Node.wholeFault?, wholeMembers?_eq_none d hmembers]

/-! ## Readers -/

/-- A value with sound numerals gives `x` back, wherever a text has levels enough for it. -/
structure Reads {α : Type} (r : Reader α) (v : Value) (x : α) : Prop where
  sound : v.Numerals Numeral.Sound
  read : ∀ depth ≤ maxDepth, v.depth ≤ depth → r depth v.node = .ok x

namespace Reads

variable {α β : Type} {r : Reader α} {v : Value} {x : α}

theorem map (h : Reads r v x) (f : α → β) :
    Reads (fun depth node => f <$> r depth node) v (f x) where
  sound := h.sound
  read depth hd hv := by rw [h.read depth hd hv]; rfl

/-! ### Simple values -/

theorem string (s : String) : Reads .string (.string s) s := ⟨.string s, fun _ _ _ => rfl⟩

theorem bool (b : Bool) : Reads .bool (.bool b) b := ⟨.bool b, fun _ _ _ => rfl⟩

theorem choice {choices : List (String × α)} {name : String} (h : choices.lookup name = some x) :
    Reads (.choice choices) (.string name) x where
  sound := .string name
  read depth _ _ := by
    simp only [Value.node, Reader.choice, Reader.variant, h]
    rfl

/-- An integer of eight bytes is read as it was written. -/
theorem sound_int {i : Int} (h : (Numeral.ofInt i).read = some (.int i)) :
    (Value.int i).Numerals Numeral.Sound :=
  .number ⟨Numeral.proper_ofInt i, by simp [h]⟩

theorem word {i : Int} (h : wordMin ≤ i ∧ i ≤ wordMax) : Reads .word (.int i) i := by
  have hread : (Numeral.ofInt i).read = some (.int i) := by
    unfold wordMin wordMax at h
    exact Numeral.read_ofInt (by unfold Numeral.longTop; omega) (by unfold Numeral.longTop; omega)
  refine ⟨sound_int hread, fun depth _ _ => ?_⟩
  simp only [Value.int, Value.node, Reader.word, Node.found, hread]
  exact if_pos h

theorem index {i : Nat} (h : i < Numeral.longTop) : Reads .index (.int i) i := by
  have hread : (Numeral.ofInt i).read = some (.int i) := Numeral.read_ofInt h (by omega)
  refine ⟨sound_int hread, fun depth _ _ => ?_⟩
  simp only [Value.int, Value.node, Reader.index, Node.found, hread, bind, Except.bind,
    if_pos (Int.natCast_nonneg i)]
  rfl

/-! ### Options and lists -/

theorem node_ne_null (hv : v ≠ .null) : v.node ≠ .null := by
  cases v <;> simp_all [Value.node]

theorem option_some (h : Reads r v x) (hv : v ≠ .null) : Reads (.option r) v (some x) where
  sound := h.sound
  read depth hd hv' := by
    have hr := (h.map some).read depth hd hv'
    have hn := node_ne_null hv
    generalize v.node = n at hr hn
    cases n <;> first | exact hr | exact absurd rfl hn

theorem option {value : α → Value} (o : Option α)
    (h : ∀ x ∈ o, Reads r (value x) x ∧ value x ≠ .null) :
    Reads (.option r) (.option value o) o := by
  cases o with
  | none => exact ⟨.null, fun _ _ _ => rfl⟩
  | some x => exact (h x rfl).1.option_some (h x rfl).2

theorem mapM_map_ok {ν : Type} {f : ν → Except Cause α} {g : α → ν} {xs : List α}
    (h : ∀ x ∈ xs, f (g x) = .ok x) : (xs.map g).mapM f = .ok xs := by
  induction xs with
  | nil => rfl
  | cons x xs ih =>
    rw [List.map_cons, List.mapM_cons, h x List.mem_cons_self,
      ih fun y hy => h y (List.mem_cons_of_mem _ hy)]
    rfl

theorem list {value : α → Value} (xs : List α) (h : ∀ x ∈ xs, Reads r (value x) x) :
    Reads (.list r) (.list value xs) xs where
  sound := .array fun v hv => by
    obtain ⟨x, hx, rfl⟩ := List.mem_map.1 hv
    exact (h x hx).sound
  read depth hd hv := by
    obtain ⟨d, rfl, hvs⟩ := Value.exists_of_depth_array hv
    have hitems : (xs.map (Value.node ∘ value)).mapM (r d) = .ok xs := mapM_map_ok fun x hx =>
      (h x hx).read d (by omega) (hvs _ (List.mem_map_of_mem hx))
    rw [Value.list, Value.node_array, List.map_map]
    simp only [Reader.list, hitems]
    rfl

end Reads

/-! ## Records -/

/-- Members fill a record field by field, in order; a field that is not needed may be left out. -/
inductive Fills {α : Type} : List (RecordField α) → List (String × Value) → α → α → Prop
  | nil (x : α) : Fills [] [] x x
  | present {f : RecordField α} {fs : List (RecordField α)} {v : Value}
    {ms : List (String × Value)} {set : α → α} {x y : α} :
    Reads f.read v set → Fills fs ms (set x) y → Fills (f :: fs) ((f.name, v) :: ms) x y
  | absent {f : RecordField α} {fs : List (RecordField α)} {ms : List (String × Value)} {x y : α} :
    f.needed = false → Fills fs ms x y → Fills (f :: fs) ms x y

namespace Fills

variable {α β : Type} {fs : List (RecordField α)} {ms : List (String × Value)} {x y : α}

theorem required {name : String} {r : Reader β} {v : Value} {b : β} {set : β → α → α}
    (hv : Reads r v b) (h : Fills fs ms (set b x) y) :
    Fills (.required name r set :: fs) ((name, v) :: ms) x y :=
  .present (f := .required name r set) (hv.map set) h

theorem optional {name : String} {r : Reader β} {v : Value} {b : β} {set : β → α → α}
    (hv : Reads r v b) (h : Fills fs ms (set b x) y) :
    Fills (.optional name r set :: fs) ((name, v) :: ms) x y :=
  .present (f := .optional name r set) (hv.map set) h

theorem sound (h : Fills fs ms x y) : ∀ m ∈ ms, m.2.Numerals Numeral.Sound := by
  induction h with
  | nil => nofun
  | present hv _ ih => exact List.forall_mem_cons.2 ⟨hv.sound, ih⟩
  | absent _ _ ih => exact ih

theorem name_mem (h : Fills fs ms x y) : ∀ m ∈ ms, m.1 ∈ fs.map RecordField.name := by
  induction h with
  | nil => nofun
  | present _ _ ih =>
    exact List.forall_mem_cons.2 ⟨List.mem_cons_self, fun m hm => List.mem_cons_of_mem _ (ih m hm)⟩
  | absent _ _ ih => exact fun m hm => List.mem_cons_of_mem _ (ih m hm)

end Fills

namespace Record

variable {α : Type} {r : Record α} {ms : List (String × Value)} {x y : α}

/-- A field is found by its name if no two fields share one. -/
theorem find?_name {fs : List (RecordField α)} (hn : (fs.map RecordField.name).Nodup)
    {f : RecordField α} (hf : f ∈ fs) : fs.find? (·.name == f.name) = some f := by
  induction fs with
  | nil => cases hf
  | cons g fs ih =>
    rw [List.map_cons, List.nodup_cons] at hn
    rcases List.mem_cons.1 hf with rfl | hf
    · simp
    · have hne : g.name ≠ f.name := fun e => hn.1 (e ▸ List.mem_map_of_mem hf)
      rw [List.find?_cons_of_neg (by simpa using hne)]
      exact ih hn.2 hf

/-- Reading has come to some fields: none of those ahead has been seen, and each of the others that
is needed has. -/
structure Ahead (r : Record α) (fs : List (RecordField α)) (seen : List String) : Prop where
  sublist : fs.Sublist r.fields
  unseen : ∀ f ∈ fs, f.name ∉ seen
  needed : ∀ f ∈ r.fields, f.needed = true → f ∈ fs ∨ f.name ∈ seen

namespace Ahead

variable {f : RecordField α} {fs : List (RecordField α)} {seen : List String}

theorem start (r : Record α) : r.Ahead r.fields [] :=
  ⟨List.Sublist.refl _, fun _ _ => List.not_mem_nil, fun _ hf _ => .inl hf⟩

/-- The next field is read. -/
theorem next (h : r.Ahead (f :: fs) seen) (hn : (r.fields.map RecordField.name).Nodup) :
    r.Ahead fs (f.name :: seen) where
  sublist := List.sublist_of_cons_sublist h.sublist
  unseen g hg hmem := by
    have hnodup := (h.sublist.map RecordField.name).nodup hn
    rw [List.map_cons, List.nodup_cons] at hnodup
    rcases List.mem_cons.1 hmem with e | hmem
    · exact hnodup.1 (e ▸ List.mem_map_of_mem hg)
    · exact h.unseen g (List.mem_cons_of_mem _ hg) hmem
  needed g hg hnd := by
    rcases h.needed g hg hnd with hmem | hmem
    · rcases List.mem_cons.1 hmem with rfl | hmem
      · exact .inr List.mem_cons_self
      · exact .inl hmem
    · exact .inr (List.mem_cons_of_mem _ hmem)

/-- The next field is passed over. -/
theorem skip (h : r.Ahead (f :: fs) seen) (hf : f.needed = false) : r.Ahead fs seen where
  sublist := List.sublist_of_cons_sublist h.sublist
  unseen g hg := h.unseen g (List.mem_cons_of_mem _ hg)
  needed g hg hnd := by
    refine (h.needed g hg hnd).imp_left fun hmem => ?_
    rcases List.mem_cons.1 hmem with rfl | hmem
    · rw [hf] at hnd
      cases hnd
    · exact hmem

theorem member_eq (h : r.Ahead (f :: fs) seen) (hn : (r.fields.map RecordField.name).Nodup)
    {depth : Nat} {node : Node} {set : α → α} (hread : f.read depth node = .ok set)
    (skip : Node → Option Fault) (x : α) :
    r.member depth skip f.name node (x, seen) = .ok (set x, f.name :: seen) := by
  have hfind := find?_name hn (h.sublist.subset List.mem_cons_self)
  have hnew : seen.contains f.name = false := by simpa using h.unseen f List.mem_cons_self
  simp only [member, hfind, hnew, hread, Bool.false_eq_true, if_false]
  rfl

theorem finish_eq (h : r.Ahead [] seen) (x : α) : r.finish (x, seen) = .ok x := by
  have habsent : r.absent? seen = none := by
    simp only [absent?, Option.map_eq_none_iff, List.find?_eq_none]
    intro f hf
    simpa using fun hnd => (h.needed f hf hnd).resolve_left List.not_mem_nil
  simp only [finish, habsent]
  rfl

end Ahead

/-- Members that fill the fields ahead are read, and then no field is ahead. -/
theorem foldlM_member (hn : (r.fields.map RecordField.name).Nodup) {depth : Nat}
    (hd : depth ≤ maxDepth) (skip : Node → Option Fault) {fs : List (RecordField α)}
    (h : Fills fs ms x y) (hms : ∀ m ∈ ms, m.2.depth ≤ depth) {seen : List String}
    (ha : r.Ahead fs seen) : ∃ seen', r.Ahead [] seen'
      ∧ ms.foldlM (fun acc m => r.member depth skip m.1 m.2.node acc) (x, seen)
        = .ok (y, seen') := by
  induction h generalizing seen with
  | nil x => exact ⟨seen, ha, rfl⟩
  | @present f fs v ms set x y hv _ ih =>
    rw [List.forall_mem_cons] at hms
    have hmember := ha.member_eq hn (hv.read depth hd hms.1) skip x
    obtain ⟨seen', ha', hfold⟩ := ih hms.2 (ha.next hn)
    refine ⟨seen', ha', ?_⟩
    rw [List.foldlM_cons, hmember]
    exact hfold
  | absent hf _ ih => exact ih hms (ha.skip hf)

/-- Members that fill a record make it. -/
theorem finish_fills (hn : (r.fields.map RecordField.name).Nodup) (h : Fills r.fields ms r.blank x)
    {depth : Nat} (hd : depth ≤ maxDepth) (hms : ∀ m ∈ ms, m.2.depth ≤ depth)
    (skip : Node → Option Fault) :
    (ms.foldlM (fun acc m => r.member depth skip m.1 m.2.node acc) (r.blank, []) >>= r.finish)
      = .ok x := by
  obtain ⟨seen, ha, hfold⟩ := foldlM_member hn hd skip h hms (.start r)
  rw [hfold]
  exact ha.finish_eq x

theorem members_eq_foldlM (depth : Nat) (ms : List (String × Value)) (acc : α × List String) :
    r.members depth (ms.map fun m => (.text (some m.1), m.2.node)) acc
      = ms.foldlM (fun acc m => r.member depth Node.skipFault? m.1 m.2.node acc) acc := by
  induction ms generalizing acc with
  | nil => rfl
  | cons m ms ih =>
    rw [List.map_cons, members, List.foldlM_cons]
    congr
    exact funext ih

/-- **Records.** A record is read back from members that fill it. -/
theorem reads (hn : (r.fields.map RecordField.name).Nodup) (h : Fills r.fields ms r.blank x) :
    Reads r.read (.object ms) x where
  sound := .object h.sound
  read depth hd hv := by
    obtain ⟨d, rfl, hms⟩ := Value.exists_of_depth_object hv
    rw [Value.node_object, read, members_eq_foldlM]
    exact finish_fills hn h (by omega) hms _

theorem ofContent_fills (hn : (r.fields.map RecordField.name).Nodup)
    (h : Fills r.fields ms r.blank x) {depth : Nat} (hd : depth ≤ maxDepth)
    (hms : ∀ m ∈ ms, m.2.depth ≤ depth) :
    r.ofContent depth (.members (ms.map fun m => (m.1, m.2.node))) = .ok x := by
  rw [ofContent, List.foldlM_map]
  exact finish_fills hn h hd hms _

end Record

/-! ## Tagged choices -/

/-- Members other than the tag are kept in order. -/
theorem Content.ofMembers_eq {κ : Type} {name : String} (tag : Node → Except Cause κ) {depth : Nat}
    {ms : List (String × Value)} (hs : ∀ m ∈ ms, m.2.Numerals Numeral.Sound)
    (hms : ∀ m ∈ ms, m.2.depth ≤ depth) (hname : ∀ m ∈ ms, m.1 ≠ name) (found : Option κ) :
    ofMembers name tag depth (ms.map fun m => (.text (some m.1), m.2.node)) found
      = .ok (found, ms.map fun m => (m.1, m.2.node)) := by
  induction ms with
  | nil => rfl
  | cons m ms ih =>
    rw [List.forall_mem_cons] at hs hms hname
    rw [List.map_cons, ofMembers]
    simp only [hname.1, if_false, hs.1.wholeFault?_eq_none hms.1, ih hs.2 hms.2 hname.2]
    rfl

/-- A choice is parted into what its tag says and the other members. -/
theorem Content.split_object {κ : Type} {title name word : String} {tag : Node → Except Cause κ}
    {k : κ} {ms : List (String × Value)} (htag : tag (.string (some word)) = .ok k)
    (hs : ∀ m ∈ ms, m.2.Numerals Numeral.Sound) (hname : ∀ m ∈ ms, m.1 ≠ name) {depth : Nat}
    (hms : ∀ m ∈ ms, m.2.depth ≤ depth) :
    split title name tag (depth + 1) (Value.object ((name, .string word) :: ms)).node
      = .ok (k, .members (ms.map fun m => (m.1, m.2.node))) := by
  have hparts : ofMembers name tag depth (((name, Value.string word) :: ms).map fun m =>
      (.text (some m.1), m.2.node)) none = .ok (some k, ms.map fun m => (m.1, m.2.node)) := by
    rw [List.map_cons, ofMembers, ← ofMembers_eq tag hs hms hname (some k)]
    simp only [if_true, Value.node, htag]
    rfl
  rw [Value.node_object, split, hparts]
  rfl

/-- **Tagged choices.** A choice is read back from its tag and its other members if what its tag
says makes it of them. -/
theorem Reads.tagged {κ α : Type} (next : κ → Nat → Content → Except Cause α)
    {title name word : String} {tag : Node → Except Cause κ} {k : κ} {ms : List (String × Value)}
    {x : α} (htag : tag (.string (some word)) = .ok k) (hs : ∀ m ∈ ms, m.2.Numerals Numeral.Sound)
    (hname : ∀ m ∈ ms, m.1 ≠ name)
    (hnext : ∀ depth ≤ maxDepth, (∀ m ∈ ms, m.2.depth ≤ depth) →
      next k depth (.members (ms.map fun m => (m.1, m.2.node))) = .ok x) :
    Reads (fun depth node => do
      let (k, content) ← Content.split title name tag depth node
      next k (depth - 1) content) (.object ((name, .string word) :: ms)) x where
  sound := .object (List.forall_mem_cons.2 ⟨.string word, hs⟩)
  read depth hd hv := by
    obtain ⟨d, rfl, hms⟩ := Value.exists_of_depth_object hv
    rw [List.forall_mem_cons] at hms
    rw [Content.split_object htag hs hname hms.2]
    exact hnext d (by omega) hms.2

/-! ## Whole texts -/

/-- **Texts.** A value that a reader gives back is read back from its text. -/
theorem Reads.run_text {α : Type} {r : Reader α} {v : Value} {x : α} (h : Reads r v x)
    (hd : v.depth ≤ maxDepth) (style : Style) : r.run (v.text style) = .ok x := by
  have hscan := Document.scan_text (h.sound.mono fun _ hn => hn.toProper) style
  simp only [Reader.run, hscan, h.read maxDepth (Nat.le_refl _) hd]
  rfl

end AvatarBits.Json
