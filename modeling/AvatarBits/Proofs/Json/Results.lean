import AvatarBits.Proofs.Json.Requirements

/-!
# What readers give

A property of everything that a reader gives, whatever node it is shown: lists
and options have it item by item, and a record has it if its blank has it and no
field loses it, whether it is read from an object or from an array.

* `Gives`: all that a reader gives has a property.
* `Keeps`: reading fields keeps a property of the record.

Results:
* `Gives.index`, `Gives.word`: positions fit eight bytes, words four.
* `Record.gives`: records.
-/
namespace AvatarBits

namespace Numeral

theorem int?_lt {n : Numeral} {i : Int} (h : n.int? = some i) : i < longTop := by
  have hsig : (absorb 0 n.whole).1 < longTop := absorb_lt (by decide) n.whole
  unfold int? at h
  split at h
  · next sig _ _ hab =>
    rw [hab] at hsig
    split at h
    · split at h
      · obtain rfl := Option.some.inj h
        omega
      · cases h
    · obtain rfl := Option.some.inj h
      exact Int.ofNat_lt.2 hsig
  · cases h

/-- An integer of a numeral fits eight bytes. -/
theorem lt_of_read {n : Numeral} {i : Int} (h : n.read = some (.int i)) : i < longTop := by
  unfold read at h
  split at h
  · next hi =>
    cases h
    exact int?_lt hi
  · simp at h

end Numeral

namespace Json

/-- All that a reader gives has a property. -/
def Gives {α : Type} (r : Reader α) (P : α → Prop) : Prop :=
  ∀ depth node x, r depth node = .ok x → P x

/-- Reading any of some fields keeps a property of the record. -/
def Keeps {α : Type} (P : α → Prop) (fs : List (RecordField α)) : Prop :=
  ∀ f ∈ fs, Gives f.read fun set => ∀ x, P x → P (set x)

/-- Outputs of steps that all have one. -/
theorem exists_of_mem_mapM {ε α β : Type} {f : α → Except ε β} {xs : List α} {ys : List β}
    (h : xs.mapM f = .ok ys) : ∀ y ∈ ys, ∃ x ∈ xs, f x = .ok y := by
  induction xs generalizing ys with
  | nil => exact Except.ok.inj h ▸ nofun
  | cons x xs ih =>
    rw [List.mapM_cons] at h
    obtain ⟨y, hy, h⟩ := exists_of_bind h
    obtain ⟨zs, hzs, h⟩ := exists_of_bind h
    obtain rfl := Except.ok.inj h
    refine List.forall_mem_cons.2 ⟨⟨x, List.mem_cons_self, hy⟩, fun z hz => ?_⟩
    obtain ⟨w, hw, he⟩ := ih hzs z hz
    exact ⟨w, List.mem_cons_of_mem _ hw, he⟩

/-! ## Numbers -/

/-- An integer that stands at a node fits eight bytes. -/
theorem Node.lt_of_found {node : Node} {i : Int} (h : node.found = .ok (.number (.int i))) :
    i < Numeral.longTop := by
  cases node with
  | number n =>
    rw [found] at h
    cases hr : n.read with
    | none => simp [hr] at h
    | some m =>
      rw [hr] at h
      cases h
      exact Numeral.lt_of_read hr
  | string s => cases s <;> cases h
  | _ => cases h

namespace Gives

variable {α β : Type} {r : Reader α} {P Q : α → Prop}

theorem index : Gives .index (· < Numeral.longTop) := by
  intro depth node x h
  obtain ⟨found, hfound, h⟩ := exists_of_bind h
  split at h
  · split at h
    · have hlt := Node.lt_of_found hfound
      obtain rfl := Except.ok.inj h
      omega
    · cases h
  · cases h

theorem word : Gives .word fun i => wordMin ≤ i ∧ i ≤ wordMax := by
  intro depth node x h
  obtain ⟨found, -, h⟩ := exists_of_bind h
  split at h
  · split at h
    · next hi => exact Except.ok.inj h ▸ hi
    · cases h
  · cases h

/-! ## Options and lists -/

theorem option (h : Gives r P) : Gives (.option r) fun o => ∀ x ∈ o, P x := by
  intro depth node o ho
  unfold Reader.option at ho
  split at ho
  · exact Except.ok.inj ho ▸ nofun
  · obtain ⟨x, hx, rfl⟩ := exists_of_map ho
    rintro _ ⟨⟩
    exact h _ _ x hx

theorem list (h : Gives r P) : Gives (.list r) fun xs => ∀ x ∈ xs, P x := by
  intro depth node xs hxs
  unfold Reader.list at hxs
  split at hxs
  · split at hxs
    · cases hxs
    · obtain ⟨ys, hys, hxs⟩ := exists_of_bind hxs
      split at hxs
      · cases hxs
      · obtain rfl := Except.ok.inj hxs
        intro y hy
        obtain ⟨n, -, hn⟩ := exists_of_mem_mapM hys y hy
        exact h _ _ _ hn
  · cases hxs

end Gives

/-! ## Records -/

namespace Keeps

variable {α β : Type} {P : α → Prop} {Q : β → Prop} {fs : List (RecordField α)} {name : String}
  {needed : Bool} {r : Reader β} {set : β → α → α}

theorem nil : Keeps P [] := nofun

/-- A field whose value matters. -/
theorem given (hr : Gives r Q) (hset : ∀ b x, Q b → P x → P (set b x)) (h : Keeps P fs) :
    Keeps P (⟨name, needed, fun depth node => set <$> r depth node⟩ :: fs) := by
  refine List.forall_mem_cons.2 ⟨fun depth node f hf x hx => ?_, h⟩
  obtain ⟨b, hb, rfl⟩ := exists_of_map hf
  exact hset b x (hr _ _ b hb) hx

/-- A field whose value does not matter. -/
theorem any (hset : ∀ b x, P x → P (set b x)) (h : Keeps P fs) :
    Keeps P (⟨name, needed, fun depth node => set <$> r depth node⟩ :: fs) :=
  given (Q := fun _ => True) (fun _ _ _ _ => trivial) (fun b x _ => hset b x) h

end Keeps

namespace Record

variable {α : Type} {r : Record α} {P : α → Prop} {depth : Nat}

/-- Reading one member keeps what every field keeps. -/
theorem keeps_member (hf : Keeps P r.fields) {skip : Node → Option Fault} {name : String}
    {node : Node} {acc acc' : α × List String} (h : r.member depth skip name node acc = .ok acc')
    (hp : P acc.1) : P acc'.1 := by
  unfold member at h
  split at h
  · split at h
    · cases h
    · exact Except.ok.inj h ▸ hp
  · next field hfind =>
    split at h
    · cases h
    · obtain ⟨set, hset, h⟩ := exists_of_bind h
      exact Except.ok.inj h ▸ hf field (List.mem_of_find?_eq_some hfind) _ _ set hset _ hp

theorem keeps_members (hf : Keeps P r.fields) {ms : List (Key × Node)}
    {acc acc' : α × List String} (h : r.members depth ms acc = .ok acc') (hp : P acc.1) :
    P acc'.1 := by
  fun_induction members r depth ms acc with
  | case1 => exact Except.ok.inj h ▸ hp
  | case2 | case3 => cases h
  | case4 acc name node ms ih =>
    obtain ⟨next, hnext, h⟩ := exists_of_bind h
    exact ih next h (keeps_member hf hnext hp)

theorem keeps_items {fs : List (RecordField α)} (hf : Keeps P fs) {ns : List Node}
    {x : α} {res : α × List (RecordField α) × List Node} (h : items depth fs ns x = .ok res)
    (hp : P x) : P res.1 := by
  induction fs generalizing ns x with
  | nil => exact Except.ok.inj h ▸ hp
  | cons f fs ih =>
    cases ns with
    | nil => exact Except.ok.inj h ▸ hp
    | cons n ns =>
      obtain ⟨set, hset, h⟩ := exists_of_bind h
      exact ih (List.forall_mem_cons.1 hf).2 h (hf f List.mem_cons_self _ _ set hset x hp)

/-- **Records.** A record has a property that its blank has and that no field loses. -/
theorem gives (hb : P r.blank) (hf : Keeps P r.fields) : Gives r.read P := by
  intro depth node x h
  unfold read at h
  split at h <;> try contradiction
  · obtain ⟨acc, hacc, h⟩ := exists_of_bind h
    split at h
    · cases h
    · unfold finish at h
      split at h
      · cases h
      · exact Except.ok.inj h ▸ keeps_members hf hacc hb
  · obtain ⟨⟨y, fields, extra⟩, hitems, h⟩ := exists_of_bind h
    have hy : P y := keeps_items hf hitems hb
    dsimp only at h
    split at h
    · cases h
    · cases h
    · split at h
      · cases h
      · exact Except.ok.inj h ▸ hy

end Record

/-- What a reader gives of a text. -/
theorem Gives.of_run {α : Type} {r : Reader α} {P : α → Prop} (h : Gives r P) {text : String}
    {x : α} (hx : r.run text = .ok x) : P x := by
  obtain ⟨y, hy, hx⟩ := exists_of_bind hx
  split at hx
  · cases hx
  · exact Except.ok.inj hx ▸ h _ _ y hy

end Json

end AvatarBits
