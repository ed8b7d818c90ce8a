import AvatarBits.Proofs.Codec.Leaves

/-!
# Running a layer that hosts a tree

An instance that stands at a place of the tree goes the whole way for the number
it reads in one run, whatever it went before. What it leaves in its store is what
the leaves on the way write, and none of that is what the tree reads.

* `Codec.Stands`: where an instance stands; before its first run, at the root it will choose.
* `Codec.At`: what every run keeps of an instance.

Results:
* `Layer.Hosts.run_eq`: a run, from every place and for every number.
* `Layer.Hosts.run_at`: where it ends, and what is shown there.
* `Codec.reads_deposit`: a tree does not write what it reads.
* `Codec.spells_deposit`, `Codec.get?_deposit_parameter`: what a leaf of either tree writes.
-/
namespace AvatarBits

/-! Powers are those of the core library here, whatever else is imported. -/
attribute [local instance (2000)] instPowNat

/-! ## Writes -/

namespace Store

theorem get?_writeAll_of_not_mem (s : Store) {ws : List (String × Single)} {n : String}
    (h : ∀ w ∈ ws, w.1 ≠ n) : (s.writeAll ws).get? n = s.get? n := by
  induction ws generalizing s with
  | nil => rfl
  | cons w ws ih =>
    show ((s.write w.1 w.2).writeAll ws).get? n = _
    rw [ih _ fun v hv => h v (List.mem_cons_of_mem _ hv), get?_write,
      if_neg (h w List.mem_cons_self).symm]

theorem get?_writeAll_of_mem {s : Store} {ws : List (String × Single)} {n : String} {x : Single}
    {v : ParamValue} (hs : s.get? n = some v) (hm : (n, x) ∈ ws)
    (hu : ∀ w ∈ ws, w.1 = n → w.2 = x) : (s.writeAll ws).get? n = some (v.withNumber x) := by
  have hi : (v.withNumber x).withNumber x = v.withNumber x := by cases v <;> rfl
  induction ws generalizing s v with
  | nil => cases hm
  | cons w ws ih =>
    have hu' : ∀ w ∈ ws, w.1 = n → w.2 = x := fun u hw => hu u (List.mem_cons_of_mem _ hw)
    show ((s.write w.1 w.2).writeAll ws).get? n = _
    by_cases hw : w.1 = n
    · have hg : (s.write w.1 w.2).get? n = some (v.withNumber x) := by
        rw [get?_write, if_pos hw.symm, hu w List.mem_cons_self hw, hw, hs, Option.getD_some]
      by_cases hr : (n, x) ∈ ws
      · simp [ih hg hr hu' (by rw [hi, hi]), hi]
      · rw [get?_writeAll_of_not_mem _ fun u hmem he => hr ?_, hg]
        rw [← he, ← hu' u hmem he]
        exact hmem
    · have hg : (s.write w.1 w.2).get? n = some v := by
        simp [get?_write, if_neg (Ne.symm hw), hs]
      refine ih hg ((List.mem_cons.1 hm).resolve_left fun e => hw ?_) hu' hi
      simp [← e]

end Store

namespace Codec

/-- The names that a tree writes. -/
def outputs (c : Codec) : Role → List String
  | .encode => c.bits
  | .decode => [c.parameter]

theorem mem_bits {c : Codec} {n : String} :
    n ∈ c.bits ↔ ∃ k, k < c.width ∧ bitName c.parameter k = n := by
  simp only [bits, List.mem_map, List.mem_range]

theorem parameter_not_mem_bits (c : Codec) : c.parameter ∉ c.bits := by
  intro h
  obtain ⟨k, -, e⟩ := mem_bits.1 h
  exact bitName_ne_parameter _ _ e

theorem isLocal_not_mem_bits (c : Codec) : isLocalName ∉ c.bits := by
  intro h
  obtain ⟨k, -, e⟩ := mem_bits.1 h
  exact bitName_ne_isLocal _ _ e

theorem leafWrites_outputs {c : Codec} {role : Role} {v : Nat} {w : String × Single}
    (h : w ∈ c.leafWrites role v) : w.1 ∈ c.outputs role := by
  cases role with
  | encode =>
    obtain ⟨k, hk, rfl⟩ := List.mem_map.1 h
    exact mem_bits.2 ⟨k, List.mem_range.1 hk, rfl⟩
  | decode =>
    rw [List.mem_singleton.1 h]
    exact List.mem_singleton.2 rfl

section
variable {c : Codec} {role : Role} {s : Store} {x : Int} {p : Place}

/-- A tree writes nothing but its outputs. -/
theorem get?_deposit {n : String} (h : n ∉ c.outputs role) :
    (c.deposit role s p).get? n = s.get? n := by
  unfold deposit
  split
  · exact Store.get?_writeAll_of_not_mem _ fun w hw e => h (e ▸ leafWrites_outputs hw)
  · rfl

theorem get?_foldl_deposit {ps : List Place} {n : String} (h : n ∉ c.outputs role) :
    (ps.foldl (c.deposit role) s).get? n = s.get? n := by
  induction ps generalizing s with
  | nil => rfl
  | cons p ps ih => rw [List.foldl_cons, ih, get?_deposit h]

/-- A tree does not write what it reads. -/
theorem reads_deposit (h : c.Reads role s x) : c.Reads role (c.deposit role s p) x := by
  cases role with
  | encode =>
    have h : s.get? c.parameter = some (.int x) := h
    show (c.deposit .encode s p).get? c.parameter = _
    rw [get?_deposit c.parameter_not_mem_bits, h]
  | decode =>
    obtain ⟨b, rfl, hb, hs⟩ := h
    refine ⟨b, rfl, hb, ?_⟩
    intro k hk
    rw [get?_deposit fun hm => bitName_ne_parameter _ _ (List.mem_singleton.1 hm), hs k hk]

theorem reads_foldl_deposit (h : c.Reads role s x) (ps : List Place) :
    c.Reads role (ps.foldl (c.deposit role) s) x := by
  induction ps generalizing s with
  | nil => exact h
  | cons p ps ih => exact ih (reads_deposit h)

theorem deposit_root : c.deposit role s c.root = s := by
  have := c.depth_pos
  exact if_neg fun h => by have := h.1; rw [root_level] at this; omega

/-- A leaf of the decode tree writes its value. -/
theorem get?_deposit_parameter {y : Int} (hp : c.Has p) (h0 : p.level = 0)
    (hs : s.get? c.parameter = some (.int y)) :
    (c.deposit .decode s p).get? c.parameter = some (.int p.index) := by
  have hb : p.index ≤ c.bound := by
    have := hp.2
    simpa only [Place.lo, Place.span, h0, Nat.pow_zero, Nat.mul_one] using this
  have hm := c.bound_le
  have hw : (c.parameter, .ofInt p.index) ∈ c.leafWrites .decode p.index :=
    List.mem_singleton.2 rfl
  have hu : ∀ w ∈ c.leafWrites .decode p.index, w.1 = c.parameter → w.2 = .ofInt p.index :=
    fun w hw _ => by rw [List.mem_singleton.1 hw]
  unfold maxBound at hm
  rw [deposit, if_pos ⟨h0, fun e => absurd e (by decide)⟩,
    Store.get?_writeAll_of_mem hs hw hu, ParamValue.withNumber, Binary.truncate_ofInt (by omega)]

/-- A leaf of the encode tree writes the bits of its value on the wearer's own instance. -/
theorem spells_deposit {y : Nat} (h0 : p.level = 0) (hi : s.isSet isLocalName = true)
    (hs : c.Spells s y) : c.Spells (c.deposit .encode s p) p.index := by
  intro k hk
  have ht : ((p.index.testBit k).toNat : Int).natAbs < 16777216 := by
    cases p.index.testBit k <;> decide
  have hw : (bitName c.parameter k, .ofInt (p.index.testBit k).toNat)
      ∈ c.leafWrites .encode p.index := List.mem_map.2 ⟨k, List.mem_range.2 hk, rfl⟩
  have hu : ∀ w ∈ c.leafWrites .encode p.index, w.1 = bitName c.parameter k →
      w.2 = .ofInt (p.index.testBit k).toNat := by
    intro w hw e
    obtain ⟨j, -, rfl⟩ := List.mem_map.1 hw
    simp [bitName_inj.1 e]
  rw [deposit, if_pos ⟨h0, fun _ => hi⟩, Store.get?_writeAll_of_mem (hs k hk) hw hu,
    ParamValue.withNumber, Binary.isZero_ofInt ht]
  cases p.index.testBit k <;> rfl

/-- What a store shows of a codec on one side: the number that the bits spell on the wearer's own
instance, the parameter elsewhere. -/
def Shows (c : Codec) : Role → Store → Int → Prop
  | .encode, s, y => ∃ b : Nat, y = b ∧ c.Spells s b
  | .decode, s, y => s.get? c.parameter = some (.int y)

theorem shows_deposit {y : Int} (hp : c.Has p)
    (hi : role = .encode → s.isSet isLocalName = true) (h : c.Shows role s y) :
    c.Shows role (c.deposit role s p) (if p.level = 0 then (p.index : Int) else y) := by
  by_cases h0 : p.level = 0
  · rw [if_pos h0]
    cases role with
    | encode =>
      obtain ⟨b, -, hs⟩ := h
      exact ⟨p.index, rfl, spells_deposit h0 (hi rfl) hs⟩
    | decode => exact get?_deposit_parameter hp h0 h
  · rw [if_neg h0, deposit, if_neg fun hc => h0 hc.1]
    exact h

theorem isSet_deposit (hn : isLocalName ∉ c.outputs role) :
    (c.deposit role s p).isSet isLocalName = s.isSet isLocalName := by
  simp [Store.isSet, get?_deposit hn]

theorem shows_foldl {y : Int} {ps : List Place} (hps : ∀ p ∈ ps, c.Has p)
    (hn : isLocalName ∉ c.outputs role) (hi : role = .encode → s.isSet isLocalName = true)
    (h : c.Shows role s y) : c.Shows role (ps.foldl (c.deposit role) s) (shown y ps) := by
  induction ps generalizing s y with
  | nil => exact h
  | cons p ps ih =>
    have hi' : role = .encode → (c.deposit role s p).isSet isLocalName = true := by
      intro e
      simp [isSet_deposit hn, hi e]
    exact ih (fun q hq => hps q (List.mem_cons_of_mem _ hq)) hi'
      (shows_deposit (hps p List.mem_cons_self) hi h)

end

end Codec

/-! ## Runs -/

namespace Codec

/-- An instance stands at a place. One that has not run yet stands at the root that its layer will
choose for it. -/
def Stands (c : Codec) (role : Role) (base : Nat) (i : Instance) (p : Place) : Prop :=
  i.started = true ∧ i.current = c.address role base p
    ∨ i.started = false ∧ p = c.root ∧
      ∃ v, i.store.get? isLocalName = some v ∧ v.isSet = decide (role = .encode)

/-- An instance after a run: where it stands and what it has stored. -/
def arrived (c : Codec) (role : Role) (base : Nat) (x : Int) (p : Place) (s : Store) :
    Instance where
  current := c.address role base (c.rest x)
  started := true
  store := (c.route role x p).foldl (c.deposit role) s

/-- An instance on one side stands at a place and shows a number, which is that of the place if the
place is a leaf. -/
structure At (c : Codec) (role : Role) (base : Nat) (i : Instance) (p : Place) (y : Int) :
    Prop where
  has : c.Has p
  stands : c.Stands role base i p
  side : ∃ v, i.store.get? isLocalName = some v ∧ v.isSet = decide (role = .encode)
  shows : c.Shows role i.store y
  leaf : p.level = 0 → y = p.index

/-- A tree goes through places, one after another, for what a store holds. -/
inductive Strides (c : Codec) (role : Role) (s : Store) : Place → List Place → Place → Prop
  | nil (p : Place) : Strides c role s p [] p
  | cons {p q r : Place} {qs : List Place} (hn : c.step? role s p = some q)
      (ht : Strides c role s q qs r) : Strides c role s p (q :: qs) r

theorem Strides.append {c : Codec} {role : Role} {s : Store} {p q r : Place} {ps qs : List Place}
    (h : c.Strides role s p ps q) (h' : c.Strides role s q qs r) :
    c.Strides role s p (ps ++ qs) r := by
  induction h with
  | nil => exact h'
  | cons hn _ ih => exact .cons hn (ih h')

theorem has_of_step? {c : Codec} {role : Role} {s : Store} {p q : Place} (hp : c.Has p)
    (h : c.step? role s p = some q) : c.Has q := by
  rcases Option.or_eq_some_iff.1 h with h | ⟨-, h⟩
  · exact has_of_mem_children hp (List.mem_of_find?_eq_some h)
  · split at h
    · cases h
      exact c.has_root
    · cases h

theorem Walks.strides {c : Codec} {role : Role} {s : Store} {x : Int} (hr : c.Reads role s x)
    {p q : Place} {ps : List Place} (h : c.Walks role x p ps q) (hp : c.Has p) :
    c.Strides role s p ps q := by
  induction h with
  | nil p => exact .nil p
  | cons hn _ ih => exact .cons ((step?_eq hr hp).trans hn) (ih (has_of_next? hp hn))

theorem not_output_of_enter {c : Codec} {role : Role} {p : Place} {k : Condition}
    (hk : k ∈ c.enter role p) : k.parameter ∉ c.outputs role := by
  cases role with
  | encode =>
    have hp : k.parameter = c.parameter := by
      simp only [enter, value] at hk
      split at hk <;> simp at hk
      · rw [hk]
      · rcases hk with rfl | rfl <;> rfl
    rw [hp]
    exact c.parameter_not_mem_bits
  | decode =>
    have hb : ∃ j, k.parameter = bitName c.parameter j := by
      rcases List.mem_cons.1 hk with rfl | hk
      · exact ⟨_, rfl⟩
      · split at hk
        · rw [List.mem_singleton.1 hk]
          exact ⟨_, rfl⟩
        · cases hk
    obtain ⟨j, hj⟩ := hb
    exact fun hm => bitName_ne_parameter _ _ (hj.symm.trans (List.mem_singleton.1 hm))

theorem not_output_of_leave {c : Codec} {role : Role} {p : Place} {k : Condition}
    (hk : k ∈ c.leave role p) : k.parameter ∉ c.outputs role := by
  cases role with
  | encode =>
    have hp : k.parameter = c.parameter := by
      simp only [leave, value] at hk
      split at hk <;> simp at hk
      · rw [hk]
      · rcases hk with rfl | rfl <;> rfl
    rw [hp]
    exact c.parameter_not_mem_bits
  | decode =>
    obtain ⟨j, -, rfl⟩ := List.mem_map.1 hk
    exact fun hm => bitName_ne_parameter _ _ (List.mem_singleton.1 hm)

/-- Where a tree goes does not depend on what it writes. -/
theorem step?_congr {c : Codec} {role : Role} {s t : Store}
    (h : ∀ n, n ∉ c.outputs role → t.get? n = s.get? n) (p : Place) :
    c.step? role t p = c.step? role s p := by
  have hh : ∀ k : Condition, k.parameter ∉ c.outputs role → k.holds t = k.holds s := fun k hk => by
    simp only [Condition.holds, h _ hk]
  have he : ∀ q, (c.enter role q).all (·.holds t) = (c.enter role q).all (·.holds s) := by
    intro q
    rw [Bool.eq_iff_iff, List.all_eq_true, List.all_eq_true]
    exact forall₂_congr fun k hk => by rw [hh k (not_output_of_enter hk)]
  have hl : (c.leave role p).any (·.holds t) = (c.leave role p).any (·.holds s) := by
    rw [Bool.eq_iff_iff, List.any_eq_true, List.any_eq_true]
    exact exists_congr fun k => and_congr_right fun hk => by rw [hh k (not_output_of_leave hk)]
  simp only [step?, he, hl]

theorem has_of_walks {c : Codec} {role : Role} {x : Int} {p q : Place} {ps : List Place}
    (h : c.Walks role x p ps q) (hp : c.Has p) : ∀ r ∈ ps, c.Has r := by
  induction h with
  | nil => intro r hr; cases hr
  | cons hn _ ih =>
    intro r hr
    rcases List.mem_cons.1 hr with rfl | hr
    · exact has_of_next? hp hn
    · exact ih (has_of_next? hp hn) r hr

theorem reads_arrived {c : Codec} {role : Role} {b : Nat} {x : Int} {p : Place} {s : Store}
    (h : c.Reads role s x) : c.Reads role (c.arrived role b x p s).store x :=
  reads_foldl_deposit h _

end Codec

namespace Layer

theorem Begins.enter_default {l : Layer} (h : l.Begins) (i : Instance) :
    (Machine.ofLayer l).enter l.defaultState i = ({ i with current := Scaffold.entry }, none) := by
  rw [h.default_eq]
  exact Machine.enter_silent h.entry_at rfl i

theorem Begins.next?_entry {l : Layer} (h : l.Begins) {i : Instance}
    (hi : i.current = Scaffold.entry) {role : Role} {v : ParamValue}
    (hv : i.store.get? isLocalName = some v) (hr : v.isSet = decide (role = .encode)) :
    (Machine.ofLayer l).next? i = some (Scaffold.rootOf role) := by
  have h3 := h.length_ge
  have hz : v.toSingle.isZero = !decide (role = .encode) := by
    simp [← hr, ParamValue.isSet, Bool.not_not]
  have h1 : Condition.holds ⟨.isSet, isLocalName, 0⟩ i.store = decide (role = .encode) := by
    simp only [Condition.holds, hv, ConditionMode.test, hz, Bool.not_not]
  have h2 : Condition.holds ⟨.notSet, isLocalName, 0⟩ i.store = !decide (role = .encode) := by
    simp only [Condition.holds, hv, ConditionMode.test, hz]
  rw [Machine.next?_eq, hi, h.choice, if_pos (by unfold Scaffold.entry; omega)]
  cases role <;>
    simp only [List.find?_cons, LayerTransition.enabled, List.all_cons, List.all_nil, h1, h2,
      Bool.and_true] <;> rfl

namespace Hosts

variable {l : Layer} {c : Codec} {role : Role} {base : Nat} (h : l.Hosts c role base)
include h

theorem fires_strides {s : Store} {p q : Place} {ps : List Place} (hw : c.Strides role s p ps q)
    (hp : c.Has p) {i : Instance} (hi : i.current = c.address role base p)
    (hs : ∀ n, n ∉ c.outputs role → i.store.get? n = s.get? n) :
    (Machine.ofLayer l).Fires i (ps.map (c.address role base))
      { i with current := c.address role base q, store := ps.foldl (c.deposit role) i.store } := by
  induction hw generalizing i with
  | nil p =>
    rw [← hi]
    exact .nil i
  | @cons p q r qs hn _ ih =>
    have hq := Codec.has_of_step? hp hn
    refine .cons ?_ (h.enter_eq hq i)
      (ih hq (i := { i with current := c.address role base q, store := c.deposit role i.store q })
        rfl fun n hn => (Codec.get?_deposit hn).trans (hs n hn))
    rw [h.next?_step hp hi, Codec.step?_congr hs, hn]
    rfl

theorem fires_walks {x : Int} {p q : Place} {ps : List Place} (hw : c.Walks role x p ps q)
    (hp : c.Has p) {i : Instance} (hi : i.current = c.address role base p)
    (hr : c.Reads role i.store x) :
    (Machine.ofLayer l).Fires i (ps.map (c.address role base))
      { i with current := c.address role base q, store := ps.foldl (c.deposit role) i.store } :=
  h.fires_strides (hw.strides hr hp) hp hi fun _ _ => rfl

theorem next?_rest {x : Int} {i : Instance} (hi : i.current = c.address role base (c.rest x))
    (hr : c.Reads role i.store x) : (Machine.ofLayer l).next? i = none := by
  rw [h.next?_eq (c.has_rest x) hi hr, Codec.next?_rest hr.readable]
  rfl

/-- **One run.** From every place and for every number an instance goes the whole way, in at most
twice as many steps as the tree has levels. -/
theorem run_eq {i : Instance} {p : Place} (hp : c.Has p) (hs : c.Stands role base i p) {x : Int}
    (hr : c.Reads role i.store x) : ∃ n, n ≤ 2 * c.depth
      ∧ (Machine.ofLayer l).run i = (c.arrived role base x p i.store, .ok n)
      ∧ (Machine.ofLayer l).entered i
        = (if i.started then [] else [Scaffold.entry, Scaffold.rootOf role])
          ++ (c.route role x p).map (c.address role base) := by
  have hw := Codec.walks_route hr.readable hp
  have hn := h.next?_rest (i := c.arrived role base x p i.store) rfl (Codec.reads_arrived hr)
  have hd := c.depth_le
  have hlim : 2 * 3 + 8 ≤ (Machine.ofLayer l).limit := by
    have := h.length_ge
    simp only [Machine.limit, Machine.ofLayer, List.size_toArray]
    omega
  rcases hs with ⟨hst, hi⟩ | ⟨hst, rfl, v, hv, hsv⟩
  · have hlen := c.length_route role x hp
    have hf := h.fires_walks hw hp hi hr
    rw [hst] at hf
    obtain ⟨h1, h2⟩ := Machine.run_of_fires hst hf hn (by rw [List.length_map]; omega)
    refine ⟨_, ?_, h1, by rw [h2, if_pos hst]; rfl⟩
    rw [List.length_map]
    exact hlen
  · have hlen := c.length_dive_le role x c.root
    rw [← c.route_root, Codec.root_level] at hlen
    have hpos := c.depth_pos
    -- the first state and the choice of a root come before the way
    let i₀ : Instance := { i with current := Scaffold.entry, started := true }
    let i₁ : Instance := { i with current := Scaffold.rootOf role, started := true }
    have he : (Machine.ofLayer l).enter l.defaultState { i with started := true } = (i₀, none) :=
      h.enter_default _
    have hroot : (Machine.ofLayer l).enter (Scaffold.rootOf role) i₀ = (i₁, none) := by
      have := h.enter_eq c.has_root i₀
      rw [Codec.deposit_root, Codec.address_root] at this
      exact this
    have hf := (Machine.Fires.single (h.next?_entry (i := i₀) rfl hv hsv) hroot).append
      (h.fires_walks hw c.has_root (i := i₁) (c.address_root role base).symm hr)
    obtain ⟨h1, h2⟩ := Machine.first_run_of_fires hst he hf hn
      (by rw [List.length_append, List.length_map, List.length_singleton]; omega)
    refine ⟨_, ?_, h1, ?_⟩
    · rw [List.length_append, List.length_map, List.length_singleton]
      omega
    · rw [h2, if_neg (by rw [hst]; decide)]
      show l.defaultState :: _ = _
      rw [h.default_eq]
      rfl

/-- **Where a run ends.** Whatever an instance did before, it ends a run at the place that the
number calls for and shows the last leaf on the way. -/
theorem run_at (hn : isLocalName ∉ c.outputs role) {i : Instance} {p : Place} {y : Int}
    (ha : c.At role base i p y) {x : Int} (hr : c.Reads role i.store x) :
    ∃ n, n ≤ 2 * c.depth ∧ (Machine.ofLayer l).run i = (c.arrived role base x p i.store, .ok n)
      ∧ c.At role base (c.arrived role base x p i.store) (c.rest x)
          (Codec.shown y (c.route role x p)) := by
  obtain ⟨n, hle, hrun, -⟩ := h.run_eq ha.has ha.stands hr
  obtain ⟨v, hv, hvs⟩ := ha.side
  have hi : role = .encode → i.store.isSet isLocalName = true := by
    intro e
    rw [Store.isSet, hv, Option.any_some, hvs, e]
    rfl
  refine ⟨n, hle, hrun, c.has_rest x, Or.inl ⟨rfl, rfl⟩, ⟨v, ?_, hvs⟩,
    Codec.shows_foldl (Codec.has_of_walks (Codec.walks_route hr.readable ha.has) ha.has) hn hi
      ha.shows, ?_⟩
  · simp [Codec.arrived, Codec.get?_foldl_deposit hn, hv]
  · intro h0
    obtain ⟨b, rfl, hb, hrest⟩ := Codec.rest_leaf h0
    rw [hrest]
    exact Codec.shown_route_of_le ha.has hr.readable ha.leaf (Int.natCast_nonneg b)
      (Int.ofNat_le.2 hb)

end Hosts

end Layer

end AvatarBits
