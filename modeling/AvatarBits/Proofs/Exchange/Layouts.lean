import AvatarBits.Proofs.Codec.Settling

/-!
# One layer or two

The two layouts of a codec do the same. An instance of the fused layer and
instances of the two split layers are given the same values and run at the same
times. As long as none has been told its side, all wait. The run on which they
are told it takes each of them to the root of that side, and from then on the
fused layer and the split layer that has this side's tree go through the same
places, while the other split layer stays at a root with nothing below it. Later
changes of the mark make no difference to where an instance is.

* `Store.give`, `given`: the values that were given, without any writes of layers.
* `Codec.Lockstep`: how the three instances stand to each other.

Results:
* `Codec.Lockstep.give`, `Codec.Lockstep.run`: events keep them in lockstep.
* `Codec.fused_split`: the fused layer and the split layers, after any events.
-/
namespace AvatarBits

/-! ## What is given -/

/-- A store after an event, if nothing but the event writes. -/
def Store.give (s : Store) : Event → Store
  | .set name v => s.set name v
  | .run => s

/-- What an instance has been given. -/
def given (es : List Event) : Store := es.foldl Store.give {}

/-- A name that is only given integers holds one or nothing. -/
theorem int_of_given {es : List Event} {name : String}
    (h : ∀ v, .set name v ∈ es → ∃ x, v = .int x) {s : Store}
    (hs : ∀ v, s.get? name = some v → ∃ x, v = .int x) :
    ∀ v, (es.foldl Store.give s).get? name = some v → ∃ x, v = .int x := by
  induction es generalizing s with
  | nil => exact hs
  | cons e es ih =>
    refine ih (fun v hv => h v (List.mem_cons_of_mem _ hv)) ?_
    cases e with
    | run => exact hs
    | set n w =>
      intro v hv
      rw [Store.give, Store.get?_set] at hv
      split at hv
      · obtain rfl := Option.some.inj hv
        obtain rfl : name = n := ‹_›
        exact h _ List.mem_cons_self
      · exact hs v hv

/-! ## Split layers -/

/-- The other role. -/
def Role.other : Role → Role
  | .encode => .decode
  | .decode => .encode

namespace Codec

/-- The split layer that has a role's tree. -/
def splitLayer (c : Codec) : Role → Bool → Layer
  | .encode => c.encodeLayer
  | .decode => c.decodeLayer

section
variable (c : Codec) (wd : Bool)

theorem fusedLayer_mem : c.fusedLayer wd ∈ (c.assemble .fused wd).layers := List.mem_cons_self

theorem fusedLayer_hosts (role : Role) : ∃ base, (c.fusedLayer wd).Hosts c role base := by
  cases role
  · exact c.encoder_hosts .fused wd
  · exact c.decoder_hosts .fused wd

theorem splitLayer_hosts (role : Role) : (c.splitLayer role wd).Hosts c role 3 := by
  cases role
  · exact c.encodeLayer_hosts wd
  · exact c.decodeLayer_hosts wd

theorem splitLayer_ready (role : Role) : (c.splitLayer role.other wd).Ready role := by
  cases role
  · exact c.decodeLayer_ready wd
  · exact c.encodeLayer_ready wd

end

/-! ## Lockstep -/

/-- Three instances that have been given the same values: one of a layer with both trees, and one of
each split layer. Either all wait at the entry, or they are in the branch of one role, where the
first and the split layer of the role stand at the same place and hold the same store, while the
other split layer holds what it was given. -/
inductive Lockstep (c : Codec) (base : Role → Nat) (x : Store) (f : Instance)
    (s : Role → Instance) : Prop
  | waiting (fused : f.current = Scaffold.entry ∧ f.store = x)
    (split : ∀ role, (s role).current = Scaffold.entry ∧ (s role).store = x)
  | dispatched (role : Role) (p : Place) (has : c.Has p)
    (fused : f.started = true ∧ f.current = c.address role (base role) p)
    (same : (s role).started = true ∧ (s role).current = c.address role 3 p)
    (store : (s role).store = f.store)
    (inputs : ∀ n, n ∉ c.outputs role → f.store.get? n = x.get? n)
    (other : (s role.other).started = true ∧ (s role.other).current = Scaffold.rootOf role
      ∧ (s role.other).store = x)

namespace Lockstep

variable {c : Codec} {wd : Bool} {base : Role → Nat} {x : Store} {f : Instance}
  {s : Role → Instance}

/-- A value from outside is given to all three. -/
theorem give (h : c.Lockstep base x f s) (name : String) (v : ParamValue) :
    c.Lockstep base (x.set name v) (f.set name v) (fun role => (s role).set name v) := by
  cases h with
  | waiting fused split =>
    exact .waiting ⟨fused.1, congrArg (·.set name v) fused.2⟩
      fun role => ⟨(split role).1, congrArg (·.set name v) (split role).2⟩
  | dispatched role p has fused same store inputs other =>
    refine .dispatched role p has fused same (congrArg (·.set name v) store) (fun n hn => ?_)
      ⟨other.1, other.2.1, congrArg (·.set name v) other.2.2⟩
    rw [Instance.set, Store.get?_set, Store.get?_set, inputs n hn]

/-- What the three instances return from a run on which the first is in a branch, or goes there. -/
def Returns (role : Role) (f : Except PackError Nat) (s : Role → Except PackError Nat)
    (waits : Prop) [Decidable waits] : Prop :=
  (∃ n, f = .ok n ∧ s role = .ok n) ∧ s role.other = .ok (if waits then 1 else 0)

/-- All three run: they wait, or they are in the branch of one role from then on. -/
theorem run (hf : ∀ role, (c.fusedLayer wd).Hosts c role (base role))
    (h : c.Lockstep base x f s)
    (hx : ∀ v, x.get? c.parameter = some v → ∃ y, v = .int y) :
    let fused := Machine.ofLayer (c.fusedLayer wd)
    let split := fun role => Machine.ofLayer (c.splitLayer role wd)
    c.Lockstep base x (fused.run f).1 (fun role => ((split role).run (s role)).1)
      ∧ ((fused.run f).1.current = Scaffold.entry
        ∨ ∃ role p, c.Has p ∧ (fused.run f).1.current = c.address role (base role) p
          ∧ Returns role (fused.run f).2 (fun role => ((split role).run (s role)).2)
            ((s role.other).current = Scaffold.entry)) := by
  intro fused split
  -- whatever the tree of a role writes, what it reads is what was given
  have hco : ∀ role {t : Store}, (∀ n, n ∉ c.outputs role → t.get? n = x.get? n) →
      c.Coherent role t := by
    intro role t ht
    refine coherent fun hr v hv => hx v ?_
    rw [← ht c.parameter (hr ▸ c.parameter_not_mem_bits), hv]
  cases h with
  | waiting hfused hsplit =>
    obtain ⟨hcur, rfl⟩ := hfused
    cases hside : f.store.side? with
    | none =>
      have hrun : fused.run f = ({ f with started := true }, .ok 0) :=
        (hf .encode).toBegins.run_waiting hcur hside
      have hsrun : ∀ role, (split role).run (s role) = ({ s role with started := true }, .ok 0) :=
        fun role => (c.splitLayer_hosts wd role).toBegins.run_waiting (hsplit role).1
          ((hsplit role).2 ▸ hside)
      simp only [hrun, hsrun]
      exact ⟨.waiting ⟨hcur, rfl⟩ hsplit, Or.inl hcur⟩
    | some role =>
      obtain ⟨hsc, hss⟩ := hsplit role
      obtain ⟨hoc, hos⟩ := hsplit role.other
      obtain ⟨ps, q, hw, hq, hend, hlen⟩ :=
        exists_strides (hco role (t := f.store) fun _ _ => rfl) c.has_root
      have hrun := (hf role).run_dispatch hcur hside hw hq hend hlen
      rw [← hss] at hw hend hside
      have hsrun := (c.splitLayer_hosts wd role).run_dispatch hsc hside hw hq hend hlen
      rw [hss, ← hos] at hside
      have horun := (c.splitLayer_ready wd role).run_dispatch hoc hside
      refine ⟨.dispatched role q hq ?_ ?_ ?_ ?_ ?_, Or.inr ⟨role, q, hq, ?_, ?_, ?_⟩⟩
      · simp only [fused, hrun, and_self]
      · simp only [split, hsrun, and_self]
      · simp only [split, hsrun, fused, hrun, hss]
      · intro n hn
        simp only [fused, hrun]
        exact get?_foldl_deposit hn
      · simp only [split, horun, hos, and_self]
      · simp only [fused, hrun]
      · exact ⟨_, congrArg Prod.snd hrun, congrArg Prod.snd hsrun⟩
      · simp only [split, horun, if_pos hoc]
  | dispatched role p hp hfused hsame hstore hinputs hother =>
    obtain ⟨hfs, hfc⟩ := hfused
    obtain ⟨hss, hsc⟩ := hsame
    obtain ⟨hos, hoc, hox⟩ := hother
    obtain ⟨ps, q, hw, hq, hend, hlen⟩ := exists_strides (hco role hinputs) hp
    have hrun := (hf role).run_place hfs hw hp hq hend hlen hfc
    rw [← hstore] at hw hend
    have hsrun := (c.splitLayer_hosts wd role).run_place hss hw hp hq hend hlen hsc
    have horun := (c.splitLayer_ready wd role).run_root hos hoc
    have hne : (s role.other).current ≠ Scaffold.entry := by
      rw [hoc]
      exact (Scaffold.entry_ne_rootOf role).symm
    refine ⟨.dispatched role q hq ?_ ?_ ?_ ?_ ?_, Or.inr ⟨role, q, hq, ?_, ?_, ?_⟩⟩
    · simp only [fused, hrun, hfs, and_self]
    · simp only [split, hsrun, hss, and_self]
    · simp only [split, hsrun, fused, hrun, hstore]
    · intro n hn
      simp only [fused, hrun]
      exact (get?_foldl_deposit hn).trans (hinputs n hn)
    · simp only [split, horun]
      exact ⟨hos, hoc, hox⟩
    · simp only [fused, hrun]
    · exact ⟨_, congrArg Prod.snd hrun, congrArg Prod.snd hsrun⟩
    · simp only [split, horun, if_neg hne]

/-- Three instances stay in lockstep through any events. -/
theorem play (hf : ∀ role, (c.fusedLayer wd).Hosts c role (base role)) (es : List Event)
    (hes : ∀ v, .set c.parameter v ∈ es → ∃ y, v = .int y)
    (hx : ∀ v, x.get? c.parameter = some v → ∃ y, v = .int y) (h : c.Lockstep base x f s) :
    c.Lockstep base (es.foldl Store.give x) ((Machine.ofLayer (c.fusedLayer wd)).play es f)
      (fun role => (Machine.ofLayer (c.splitLayer role wd)).play es (s role)) := by
  induction es generalizing x f s with
  | nil => exact h
  | cons e es ih =>
    have he : ∀ v, .set c.parameter v ∈ [e] → ∃ y, v = .int y := fun v hv =>
      hes v (List.mem_cons.2 (.inl (List.mem_singleton.1 hv)))
    have hx' := int_of_given he hx
    refine ih (fun v hv => hes v (List.mem_cons_of_mem _ hv)) hx' ?_
    cases e with
    | set name v => exact h.give name v
    | run => exact (h.run hf hx).1

end Lockstep

/-! ## The layouts -/

theorem name_stateAt (c : Codec) (role : Role) (wd wd' : Bool) (p : Place) :
    (c.stateAt role wd p).name = (c.stateAt role wd' p).name := by
  unfold stateAt
  split <;> rfl

/-- A place of a role's tree is not in the other branch. -/
theorem eq_of_branch_address {c : Codec} {wd : Bool} {role role' : Role} {base : Nat}
    (hf : (c.fusedLayer wd).Hosts c role' base) {p : Place} (hp : c.Has p)
    (hb : (c.fusedLayer wd).Branch role (c.address role' base p)) : role' = role := by
  obtain ⟨t, ht, hfit⟩ := branch_fits (c.fusedLayer_mem wd) hb
  rw [hf.state_at p hp] at ht
  cases ht
  exact (c.fits_stateAt role' _ p).role_unique hfit

/-- **One layer or two.** Give an instance of the fused layer and one of each split layer the same
values, in any order and among them integers only for the parameter, and run them at the same times.
Whenever the fused layer is in the branch of a role, it stays there; it and the split layer that has
this role's tree are in states of the same name and hold the same store; the other split layer is at
the root of the role and holds what it was given. On every run that finds the fused layer in the
branch of a role or takes it there, both return the same number of transitions, and the other split
layer returns one if it was still waiting and none after. -/
theorem fused_split (c : Codec) (wd : Bool) (es : List Event)
    (hes : ∀ v, .set c.parameter v ∈ es → ∃ x, v = .int x) (role : Role) :
    let fused := Machine.ofLayer (c.fusedLayer wd)
    let same := Machine.ofLayer (c.splitLayer role wd)
    let other := Machine.ofLayer (c.splitLayer role.other wd)
    let f := fused.play es fused.start
    let s := same.play es same.start
    let o := other.play es other.start
    ((c.fusedLayer wd).Branch role f.current →
        (∃ name, fused.stateName? f = some name ∧ same.stateName? s = some name)
          ∧ s.store = f.store ∧ o.store = given es ∧ o.current = Scaffold.rootOf role
          ∧ (c.fusedLayer wd).Branch role (fused.run f).1.current)
      ∧ ((c.fusedLayer wd).Branch role (fused.run f).1.current →
        (∃ n, (fused.run f).2 = .ok n ∧ (same.run s).2 = .ok n)
          ∧ (other.run o).2 = .ok (if o.current = Scaffold.entry then 1 else 0)) := by
  intro fused same other f s o
  have hbase := fun role => c.fusedLayer_hosts wd role
  let base := fun role => (hbase role).choose
  have hf : ∀ role, (c.fusedLayer wd).Hosts c role (base role) := fun role =>
    (hbase role).choose_spec
  have hint : ∀ v, (given es).get? c.parameter = some v → ∃ x, v = .int x :=
    int_of_given hes fun v hv => by cases hv
  have hstart : c.Lockstep base {} fused.start
      (fun role => (Machine.ofLayer (c.splitLayer role wd)).start) :=
    .waiting ⟨rfl, rfl⟩ fun role => by cases role <;> exact ⟨rfl, rfl⟩
  have hlock := hstart.play hf es hes (fun v hv => by cases hv)
  have hentry : ¬ (c.fusedLayer wd).Branch role Scaffold.entry :=
    not_branch_entry (c.fusedLayer_mem wd)
  constructor
  · intro hb
    cases hlock with
    | waiting hfused _ =>
      rw [show f.current = _ from hfused.1] at hb
      exact absurd hb hentry
    | dispatched role' p hp hfused hsame hstore _ hother =>
      have hcur : f.current = c.address role' (base role') p := hfused.2
      obtain rfl := eq_of_branch_address (hf role') hp (hcur ▸ hb)
      have hscur : s.current = c.address role' 3 p := hsame.2
      refine ⟨⟨(c.stateAt role' wd p).name, ?_, ?_⟩, hstore, hother.2.2, hother.2.1, ?_⟩
      · simp only [Machine.stateName?, Layer.state?, hcur, fused, Machine.ofLayer,
          (hf role').state_at p hp, Option.map_some, c.name_stateAt role' _ wd]
      · simp only [Machine.stateName?, Layer.state?, hscur, same, Machine.ofLayer,
          (c.splitLayer_hosts wd role').state_at p hp, Option.map_some, c.name_stateAt role' _ wd]
      · rcases run_cases (c.fusedLayer_mem wd) (standing_play (c.fusedLayer_mem wd) es) with
          ⟨he, -⟩ | ⟨role'', hplace, hrun, -⟩
        · exact absurd (he ▸ hb) hentry
        · have hb'' := hplace.resolve_left fun he => hentry (he ▸ hb)
          rwa [branch_unique (c.fusedLayer_mem wd) hb hb'']
  · intro hb
    rcases (hlock.run hf hint).2 with he | ⟨role', p, hp, hcur, hret⟩
    · rw [he] at hb
      exact absurd hb hentry
    · obtain rfl := eq_of_branch_address (hf role') hp (hcur ▸ hb)
      exact hret

/-- A wearer's instance of the toggle that is told its side before its first run and loses the mark
again: the leaf of `1` has been entered in both layouts, and the next run fires nothing. -/
theorem fused_split_toggle :
    let es : List Event := toggleEvents ++ [.run, .set isLocalName (.bool false)]
    let fused := Machine.ofLayer (toggle.fusedLayer true)
    let same := Machine.ofLayer (toggle.encodeLayer true)
    (same.play es same.start).store = (fused.play es fused.start).store
      ∧ fused.stateName? (fused.play es fused.start) = some "encode_1"
      ∧ ∃ n, (fused.run (fused.play es fused.start)).2 = .ok n
        ∧ (same.run (same.play es same.start)).2 = .ok n := by
  have hes : ∀ v, .set toggle.parameter v ∈ toggleEvents ++ [.run, .set isLocalName (.bool false)] →
      ∃ x, v = .int x := by
    intro v hv
    have h : v = .int 1 := by simpa [toggleEvents, toggle, isLocalName] using hv
    exact ⟨1, h⟩
  have hleaf : (toggle.fusedLayer true).Branch .encode 4 := by
    have ht : (⟨Scaffold.localRoot, 4, [toggle.value .equals 1], 0, false⟩ : LayerTransition)
        ∈ (toggle.fusedLayer true).transitions := by decide +kernel
    exact .next ht .root
  obtain ⟨h, h'⟩ := fused_split toggle true _ hes .encode
  obtain ⟨-, hstore, -, -, hstay⟩ := h (by
    rw [show (Machine.play _ _ _).current = 4 by decide +kernel]
    exact hleaf)
  exact ⟨hstore, by decide +kernel, (h' hstay).1⟩

end Codec

end AvatarBits
