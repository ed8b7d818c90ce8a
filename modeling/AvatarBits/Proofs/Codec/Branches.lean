import AvatarBits.Proofs.Codec.Footprint
import AvatarBits.Proofs.Codec.Running
import AvatarBits.Proofs.Simulation.Playing

/-!
# The two branches of a layer

Whatever is done to an instance from outside, it stands at the entry or in one of
the two branches below the roots, and it never changes the branch. So a run
writes what the states of its branch write: bits on the wearer's own instance,
and there only while the mark of the wearer is set, the parameter everywhere
else. Nothing but these names and the mark is ever looked at.

* `Layer.Branch`: the states that can be reached from a root.
* `Machine.Touches`: a run is in a branch or goes there.
* `Codec.Keeps`: what a run in a branch does to a store.

Results:
* `Codec.branch_fits`: names and writes of a branch's states.
* `Codec.branch_unique`: no state is in both branches.
* `Codec.run_cases`: a run of an instance that has been played with.
* `Codec.run_frame`: what runs change, and what they depend on.
-/
namespace AvatarBits

/-! ## Branches -/

/-- The states that can be reached from the root of a role, itself included. -/
inductive Layer.Branch (l : Layer) (role : Role) : Nat → Prop
  | root : Branch l role (Scaffold.rootOf role)
  | next {t : LayerTransition} (ht : t ∈ l.transitions) (hs : Branch l role t.source) :
    Branch l role t.destination

/-- A run starts among some states or enters one of them. -/
def Machine.Touches (m : Machine) (i : Instance) (states : Nat → Prop) : Prop :=
  states i.current ∨ ∃ id ∈ m.entered i, states id

/-- A state of a role: it is called like a node of the role's tree or like its root, it writes the
outputs of the tree, and if that is the encode tree, on the wearer's own instance only. -/
structure Codec.Fits (c : Codec) (role : Role) (s : LayerState) : Prop where
  name : s.name = Scaffold.rootName role ∨ ∃ p, s.name = Place.name role p
  writes : ∃ ws : List (String × Single), (s.actions = ws.map fun w => .set w.1 w.2)
    ∧ ∀ w ∈ ws, w.1 ∈ c.outputs role
  localOnly : role = .encode → s.actions = [] ∨ s.localOnly = true

namespace Layer

variable {l : Layer} {c : Codec} {role : Role}

/-- Below the root of a hosted tree are its places. -/
theorem Hosts.exists_place {base : Nat} (h : l.Hosts c role base) {id : Nat}
    (hb : l.Branch role id) : ∃ p, c.Has p ∧ id = c.address role base p := by
  induction hb with
  | root => exact ⟨c.root, c.has_root, (c.address_root role base).symm⟩
  | @next t ht _ ih =>
    obtain ⟨p, hp, hs⟩ := ih
    have hm : t ∈ l.transitionsFrom (c.address role base p) :=
      List.mem_filter.2 ⟨ht, beq_iff_eq.2 hs⟩
    rw [h.edges_at p hp] at hm
    obtain ⟨e, he, rfl⟩ := List.mem_map.1 hm
    rcases List.mem_append.1 he with he | he
    · obtain ⟨q, hq, rfl⟩ := List.mem_map.1 he
      exact ⟨q, Codec.has_of_mem_children hp hq,
        (if_pos (Codec.level_lt_of_mem_children hp hq)).symm⟩
    · split at he
      · obtain ⟨k, -, rfl⟩ := List.mem_map.1 he
        exact ⟨c.root, c.has_root, (c.address_root role base).symm⟩
      · cases he

/-- Below a root that nothing leaves is nothing. -/
theorem Ready.eq_root (h : l.Ready role) {id : Nat} (hb : l.Branch role id) :
    id = Scaffold.rootOf role := by
  induction hb with
  | root => rfl
  | @next t ht _ ih =>
    have hm : t ∈ l.transitionsFrom (Scaffold.rootOf role) :=
      List.mem_filter.2 ⟨ht, beq_iff_eq.2 ih⟩
    rw [h.root_idle] at hm
    cases hm

end Layer

namespace Codec

variable {c : Codec} {role : Role}

theorem fits_idle {s : LayerState} (hn : s.name = Scaffold.rootName role) (ha : s.actions = []) :
    c.Fits role s :=
  ⟨Or.inl hn, ⟨[], ha, by simp⟩, fun _ => Or.inl ha⟩

theorem fits_stateAt (c : Codec) (role : Role) (wd : Bool) (p : Place) :
    c.Fits role (c.stateAt role wd p) := by
  unfold stateAt
  by_cases hl : p.level < c.depth
  · rw [if_pos hl]
    refine ⟨Or.inr ⟨p, rfl⟩, ?_, fun hr => Or.inr (decide_eq_true hr)⟩
    by_cases h0 : p.level = 0
    · exact ⟨c.leafWrites role p.index, by simp only [h0, if_true, c.leafActions_eq],
        fun w hw => leafWrites_outputs hw⟩
    · exact ⟨[], by simp only [h0, if_false, List.map_nil], by simp⟩
  · rw [if_neg hl]
    exact fits_idle rfl rfl

/-! ## The layers of a codec -/

section
variable {layout : LayerLayout} {wd : Bool} {l : Layer}

/-- Below each of its roots a layer of a codec hosts the tree or has nothing. -/
theorem hosts_or_ready (hl : l ∈ (c.assemble layout wd).layers) (role : Role) :
    (∃ base, l.Hosts c role base) ∨ l.Ready role := by
  cases layout with
  | fused =>
    obtain rfl := List.mem_singleton.1 hl
    cases role with
    | encode => exact Or.inl (c.encoder_hosts .fused wd)
    | decode => exact Or.inl (c.decoder_hosts .fused wd)
  | split =>
    rcases List.mem_cons.1 hl with rfl | hl
    · cases role with
      | encode => exact Or.inl ⟨3, c.encodeLayer_hosts wd⟩
      | decode => exact Or.inr (c.encodeLayer_ready wd)
    · obtain rfl := List.mem_singleton.1 hl
      cases role with
      | encode => exact Or.inr (c.decodeLayer_ready wd)
      | decode => exact Or.inl ⟨3, c.decodeLayer_hosts wd⟩

theorem layer_begins (hl : l ∈ (c.assemble layout wd).layers) : l.Begins := by
  rcases hosts_or_ready hl .encode with ⟨_, h⟩ | h
  · exact h.toBegins
  · exact h.toBegins

/-- The states of a branch are states of its role. -/
theorem branch_fits (hl : l ∈ (c.assemble layout wd).layers) {id : Nat} (hb : l.Branch role id) :
    ∃ s, l.states[id]? = some s ∧ c.Fits role s := by
  rcases hosts_or_ready hl role with ⟨base, h⟩ | h
  · obtain ⟨p, hp, rfl⟩ := h.exists_place hb
    exact ⟨_, h.state_at p hp, c.fits_stateAt role _ p⟩
  · rw [h.eq_root hb]
    exact ⟨_, h.root_at, fits_idle rfl rfl⟩

theorem not_fits_entry {s : LayerState} (hs : s.name = "entry") : ¬ c.Fits role s := by
  intro h
  rcases h.name with hn | ⟨p, hn⟩
  · rw [hs] at hn
    cases role <;> exact absurd hn (by decide)
  · exact Place.name_ne_scaffold role p _ (Or.inl hs) hn.symm

theorem Fits.role_unique {role' : Role} {s : LayerState} (h : c.Fits role s)
    (h' : c.Fits role' s) : role = role' := by
  have hroot : ∀ r r' p, Scaffold.rootName r ≠ Place.name r' p := by
    intro r r' p e
    refine Place.name_ne_scaffold r' p _ ?_ e.symm
    cases r
    · exact Or.inr (Or.inl rfl)
    · exact Or.inr (Or.inr rfl)
  rcases h.name with hn | ⟨p, hn⟩ <;> rcases h'.name with hn' | ⟨p', hn'⟩ <;> rw [hn] at hn'
  · cases role <;> cases role' <;> first | rfl | exact absurd hn' (by decide)
  · exact absurd hn' (hroot _ _ _)
  · exact absurd hn'.symm (hroot _ _ _)
  · exact (Place.name_inj hn').1

/-- No state is in both branches. -/
theorem branch_unique (hl : l ∈ (c.assemble layout wd).layers) {role' : Role} {id : Nat}
    (hb : l.Branch role id) (hb' : l.Branch role' id) : role = role' := by
  obtain ⟨s, hs, hf⟩ := branch_fits hl hb
  obtain ⟨s', hs', hf'⟩ := branch_fits hl hb'
  rw [hs] at hs'
  cases hs'
  exact hf.role_unique hf'

/-- The entry is in neither. -/
theorem not_branch_entry (hl : l ∈ (c.assemble layout wd).layers) :
    ¬ l.Branch role Scaffold.entry := by
  intro hb
  obtain ⟨s, hs, hf⟩ := branch_fits hl hb
  rw [(layer_begins hl).entry_at] at hs
  cases hs
  exact not_fits_entry rfl hf

end

/-! ## Stores -/

/-- What a run in a branch does to a store: it changes outputs of the branch's tree only, and on the
way to the bits nothing at all unless the mark of the wearer is set. -/
structure Keeps (c : Codec) (role : Role) (s t : Store) : Prop where
  others : ∀ n, n ∉ c.outputs role → t.get? n = s.get? n
  unmarked : role = .encode → s.isSet isLocalName = false → t = s

theorem Keeps.refl (c : Codec) (role : Role) (s : Store) : c.Keeps role s s :=
  ⟨fun _ _ => rfl, fun _ _ => rfl⟩

theorem Keeps.trans {s t u : Store} (h : c.Keeps role s t) (h' : c.Keeps role t u) :
    c.Keeps role s u where
  others n hn := (h'.others n hn).trans (h.others n hn)
  unmarked hr hs := by
    obtain rfl := h.unmarked hr hs
    exact h'.unmarked hr hs

/-- Entering a state of a role moves there and writes what the role's tree may write. -/
theorem Fits.enter {s : LayerState} (h : c.Fits role s) {l : Layer} {id : Nat}
    (hs : l.states[id]? = some s) (i : Instance) :
    ∃ t, (Machine.ofLayer l).enter id i = ({ i with current := id, store := t }, none)
      ∧ c.Keeps role i.store t := by
  obtain ⟨ws, hw, ho⟩ := h.writes
  refine ⟨_, Machine.enter_of_state hs hw i, ?_, ?_⟩
  · intro n hn
    split
    · rfl
    · exact Store.get?_writeAll_of_not_mem _ fun w hm e => hn (e ▸ ho w hm)
  · intro hr hi
    rcases h.localOnly hr with ha | ha
    · rw [ha] at hw
      rw [List.map_eq_nil_iff.1 hw.symm]
      exact ite_self _
    · simp [ha, hi]

/-! ## Names -/

/-- The names that a codec's layers look at and write. -/
def names (c : Codec) : List String := isLocalName :: c.parameter :: c.bits

theorem Tests.mem_names {k : Condition} (h : c.Tests k) : k.parameter ∈ c.names := by
  have hbit : ∀ {n}, n ∈ c.bits → n ∈ c.names := fun hn =>
    List.mem_cons_of_mem _ (List.mem_cons_of_mem _ hn)
  cases h with
  | isLocal => exact List.mem_cons_self
  | isRemote => exact List.mem_cons_self
  | bit set hk => exact hbit (mem_bits.2 ⟨_, hk, rfl⟩)
  | value mode threshold => exact List.mem_cons_of_mem _ List.mem_cons_self

theorem Writes.exists_set {d : DriverAction} (h : c.Writes d) :
    ∃ w : String × Single, d = .set w.1 w.2 := by
  have hset : ∀ n x, ∃ w : String × Single, DriverAction.set n x = .set w.1 w.2 :=
    fun n x => ⟨(n, x), rfl⟩
  cases h with
  | bit => exact hset _ _
  | value => exact hset _ _

theorem exists_sets {ds : List DriverAction} (h : ∀ d ∈ ds, c.Writes d) :
    ∃ ws : List (String × Single), ds = ws.map fun w => .set w.1 w.2 := by
  induction ds with
  | nil => exact ⟨[], rfl⟩
  | cons d ds ih =>
    obtain ⟨ws, rfl⟩ := ih fun e he => h e (List.mem_cons_of_mem _ he)
    obtain ⟨w, rfl⟩ := (h d List.mem_cons_self).exists_set
    exact ⟨w :: ws, rfl⟩

end Codec

/-! ## Runs -/

/-- The role that a layer takes on, once it has been told whether it is on the wearer's own
instance. -/
def Store.side? (s : Store) : Option Role :=
  (s.get? isLocalName).map fun v => if v.isSet then .encode else .decode

namespace Layer

/-- Where an instance can stand that has been played with: at the entry, necessarily so before its
first run, or in one of the branches. -/
structure Standing (l : Layer) (i : Instance) : Prop where
  unstarted : i.started = false → i.current = Scaffold.entry
  place : i.current = Scaffold.entry ∨ ∃ role, l.Branch role i.current

/-- The first state writes nothing, so a first run is like one from there. -/
theorem Begins.run_eq {l : Layer} (h : l.Begins) {i : Instance}
    (hi : i.started = false → i.current = Scaffold.entry) :
    (Machine.ofLayer l).run i
        = (Machine.ofLayer l).settle ((Machine.ofLayer l).limit + 1) 0 { i with started := true }
      ∧ ∀ id ∈ (Machine.ofLayer l).entered i, id = Scaffold.entry
        ∨ id ∈ (Machine.ofLayer l).trail ((Machine.ofLayer l).limit + 1) { i with started := true }
    := by
  cases hs : i.started with
  | true =>
    have he : { i with started := true } = i := by rw [← hs]
    unfold Machine.run Machine.entered
    rw [if_pos hs, if_pos hs, he]
    exact ⟨rfl, fun id hid => Or.inr hid⟩
  | false =>
    have he : (Machine.ofLayer l).enter (Machine.ofLayer l).layer.defaultState
        { i with started := true } = ({ i with started := true }, none) := by
      have := h.enter_default { i with started := true }
      rw [← hi hs] at this
      exact this
    unfold Machine.run Machine.entered
    rw [if_neg (by simp [hs]), if_neg (by simp [hs]), he]
    refine ⟨rfl, fun id hid => ?_⟩
    rcases List.mem_cons.1 hid with rfl | hid
    · exact Or.inl h.default_eq
    · exact Or.inr hid

/-- From the entry an instance goes to the root of its side, once it has been told its side. -/
theorem Begins.next?_entry_eq {l : Layer} (h : l.Begins) {i : Instance}
    (hi : i.current = Scaffold.entry) :
    (Machine.ofLayer l).next? i = i.store.side?.map Scaffold.rootOf := by
  unfold Store.side?
  cases hv : i.store.get? isLocalName with
  | some v =>
    have hrole : v.isSet = decide ((if v.isSet then Role.encode else .decode) = .encode) := by
      cases v.isSet <;> rfl
    rw [h.next?_entry hi hv hrole]
    rfl
  | none =>
    have h3 := h.length_ge
    rw [Machine.next?_eq, hi, h.choice, if_pos (by unfold Scaffold.entry; omega)]
    simp [LayerTransition.enabled, Condition.holds, hv]

/-- Transitions do not leave a branch. -/
theorem Branch.next? {l : Layer} {role : Role} {i : Instance} (hb : l.Branch role i.current)
    {id : Nat} (hn : (Machine.ofLayer l).next? i = some id) : l.Branch role id := by
  obtain ⟨t, ht, hs, rfl, -⟩ := Machine.exists_of_next? hn
  exact .next ht (hs ▸ hb)

end Layer

namespace Codec

section
variable {c : Codec} {layout : LayerLayout} {wd : Bool} {l : Layer}
  (hl : l ∈ (c.assemble layout wd).layers)
include hl

/-- One transition in a branch. -/
theorem enter_branch {role : Role} {i : Instance} {id : Nat} (hb : l.Branch role id) :
    l.Branch role ((Machine.ofLayer l).enter id i).1.current
      ∧ ((Machine.ofLayer l).enter id i).2 = none
      ∧ c.Keeps role i.store ((Machine.ofLayer l).enter id i).1.store := by
  obtain ⟨s, hs, hf⟩ := branch_fits hl hb
  obtain ⟨t, he, hk⟩ := hf.enter hs i
  rw [he]
  exact ⟨hb, rfl, hk⟩

/-- A whole run in a branch. -/
theorem settle_branch {role : Role} {i : Instance} (hb : l.Branch role i.current)
    (budget fired : Nat) :
    l.Branch role ((Machine.ofLayer l).settle budget fired i).1.current
      ∧ c.Keeps role i.store ((Machine.ofLayer l).settle budget fired i).1.store
      ∧ ∀ id ∈ (Machine.ofLayer l).trail budget i, l.Branch role id := by
  -- one transition stays in the branch and adds its writes to those before
  have hstep : ∀ j id, (l.Branch role j.current ∧ c.Keeps role i.store j.store) →
      (Machine.ofLayer l).next? j = some id →
      l.Branch role ((Machine.ofLayer l).enter id j).1.current
        ∧ c.Keeps role i.store ((Machine.ofLayer l).enter id j).1.store := by
    intro j id ⟨hj, hk⟩ hn
    obtain ⟨hb', -, hk'⟩ := enter_branch hl (i := j) (hj.next? hn)
    exact ⟨hb', hk.trans hk'⟩
  have hi : l.Branch role i.current ∧ c.Keeps role i.store i.store := ⟨hb, Keeps.refl c role _⟩
  obtain ⟨h1, h2⟩ := Machine.settle_keeps hstep budget fired hi
  exact ⟨h1, h2, Machine.trail_keeps hstep (fun j id hj hn => hj.1.next? hn) budget hi⟩

/-- **One run.** A run of an instance that has been played with waits at the entry, or is in one
branch from then on. -/
theorem run_cases {i : Instance} (hi : l.Standing i) :
    (i.current = Scaffold.entry ∧ (Machine.ofLayer l).run i = ({ i with started := true }, .ok 0)
        ∧ ∀ id ∈ (Machine.ofLayer l).entered i, id = Scaffold.entry)
      ∨ ∃ role, (i.current = Scaffold.entry ∨ l.Branch role i.current)
        ∧ l.Branch role ((Machine.ofLayer l).run i).1.current
        ∧ c.Keeps role i.store ((Machine.ofLayer l).run i).1.store
        ∧ ∀ id ∈ (Machine.ofLayer l).entered i, id = Scaffold.entry ∨ l.Branch role id := by
  have hbegins := layer_begins hl
  obtain ⟨hrun, hent⟩ := hbegins.run_eq hi.unstarted
  rw [hrun]
  rcases hi.place with hcur | ⟨role, hb⟩
  · have hn := hbegins.next?_entry_eq (i := { i with started := true }) hcur
    cases hside : i.store.side? with
    | none =>
      simp only [hside, Option.map_none] at hn
      refine Or.inl ⟨hcur, by simp [Machine.settle, hn], fun id hid =>
        (hent id hid).resolve_right ?_⟩
      simp [Machine.trail, hn]
    | some role =>
      simp only [hside, Option.map_some] at hn
      -- the root comes first, and the rest of the run is in its branch
      have hroot : l.Branch role (Scaffold.rootOf role) := .root
      obtain ⟨hb, hf, hk⟩ := enter_branch hl (i := { i with started := true }) hroot
      cases he : (Machine.ofLayer l).enter (Scaffold.rootOf role) { i with started := true } with
      | mk j failure =>
        rw [he] at hb hf hk
        obtain rfl : failure = none := hf
        obtain ⟨h1, h2, h3⟩ := settle_branch hl hb (Machine.ofLayer l).limit 1
        refine Or.inr ⟨role, Or.inl hcur, ?_, ?_, fun id hid => ?_⟩
        · simpa [Machine.settle, hn, he] using h1
        · simpa [Machine.settle, hn, he] using hk.trans h2
        · refine (hent id hid).imp_right fun hid => ?_
          simp only [Machine.trail, hn, he] at hid
          rcases List.mem_cons.1 hid with rfl | hid
          · exact .root
          · exact h3 id hid
  · obtain ⟨h1, h2, h3⟩ := settle_branch hl (i := { i with started := true }) hb
      ((Machine.ofLayer l).limit + 1) 0
    exact Or.inr ⟨role, Or.inr hb, h1, h2, fun id hid => (hent id hid).imp_right (h3 id)⟩

theorem standing_run {i : Instance} (hi : l.Standing i) :
    l.Standing ((Machine.ofLayer l).run i).1 where
  unstarted hs := by
    rw [Machine.started_run] at hs
    cases hs
  place := by
    rcases run_cases hl hi with ⟨hcur, hrun, -⟩ | ⟨role, -, hb, -⟩
    · rw [hrun]
      exact Or.inl hcur
    · exact Or.inr ⟨role, hb⟩

/-- Whatever is done to an instance, it stands at the entry or in a branch. -/
theorem standing_play (es : List Event) :
    l.Standing ((Machine.ofLayer l).play es (Machine.ofLayer l).start) := by
  have hd : (Machine.ofLayer l).start.current = Scaffold.entry := (layer_begins hl).default_eq
  exact Machine.play_keeps (K := l.Standing) (fun i name v hi => ⟨hi.unstarted, hi.place⟩)
    (fun i hi => standing_run hl hi) es ⟨fun _ => hd, Or.inl hd⟩

/-- A run that touches a branch does to the store what the branch may do. -/
theorem keeps_of_touches {role : Role} {i : Instance} (hi : l.Standing i)
    (ht : (Machine.ofLayer l).Touches i (l.Branch role)) :
    c.Keeps role i.store ((Machine.ofLayer l).run i).1.store := by
  have hentry : ∀ id, l.Branch role id → id ≠ Scaffold.entry := fun id hb e =>
    not_branch_entry hl (e ▸ hb)
  rcases run_cases hl hi with ⟨hcur, -, hent⟩ | ⟨role', hcur, -, hk, hent⟩
  · rcases ht with hb | ⟨id, hid, hb⟩
    · exact absurd hcur (hentry _ hb)
    · exact absurd (hent id hid) (hentry _ hb)
  · have hr : role' = role := by
      rcases ht with hb | ⟨id, hid, hb⟩
      · exact branch_unique hl (hcur.resolve_left (hentry _ hb)) hb
      · exact branch_unique hl ((hent id hid).resolve_left (hentry _ hb)) hb
    exact hr ▸ hk

/-- A run changes the parameter and its bits only. -/
theorem get?_run {i : Instance} (hi : l.Standing i) {n : String} (hp : n ≠ c.parameter)
    (hb : n ∉ c.bits) : ((Machine.ofLayer l).run i).1.get? n = i.get? n := by
  rcases run_cases hl hi with ⟨-, hrun, -⟩ | ⟨role, -, -, hk, -⟩
  · rw [hrun]
    rfl
  · refine hk.others n ?_
    cases role with
    | encode => exact hb
    | decode => exact fun hm => hp (List.mem_singleton.1 hm)

/-! ## Frame and noninterference -/

theorem observes : l.Observes c.names where
  isLocal := List.mem_cons_self
  tests t ht k hk := (c.confined layout wd l hl).tests t ht k hk |>.mem_names
  writes s hs := exists_sets ((c.confined layout wd l hl).writes s hs)

/-- Two instances that stand in one state and agree on the names that count run alike. -/
theorem run_agree {i j : Instance} (hi : l.Standing i) (hj : l.Standing j)
    (hc : j.current = i.current) (ha : j.store.Agree c.names i.store) :
    ((Machine.ofLayer l).run j).2 = ((Machine.ofLayer l).run i).2
      ∧ ((Machine.ofLayer l).run j).1.current = ((Machine.ofLayer l).run i).1.current
      ∧ ((Machine.ofLayer l).run j).1.store.Agree c.names ((Machine.ofLayer l).run i).1.store := by
  rw [((layer_begins hl).run_eq hi.unstarted).1, ((layer_begins hl).run_eq hj.unstarted).1]
  exact (observes hl).settle_agree _ _ hc ha

end

/-- **Frame and noninterference.** Whatever values an instance of a codec's layer has been given,
and whenever it has run before, the next run changes no name but the bits if it is in the local
branch or goes there, and none at all if the mark of the wearer is missing or not set; it changes
no name but the parameter if it is in the remote branch or goes there; and in any case, also if it
fails, it changes neither the mark nor any name besides. Any other such instance that stands in the
same state and agrees on the mark, the parameter and its bits has the same result, ends in the same
state and still agrees. -/
theorem run_frame (c : Codec) (hc : c.parameter ≠ isLocalName) (layout : LayerLayout) (wd : Bool)
    {l : Layer} (hl : l ∈ (c.assemble layout wd).layers) (es : List Event) :
    let m := Machine.ofLayer l
    let i := m.play es m.start
    (m.Touches i (l.Branch .encode) → ∀ n, n ∉ c.bits → (m.run i).1.get? n = i.get? n)
      ∧ (m.Touches i (l.Branch .encode) → i.store.isSet isLocalName = false →
          (m.run i).1.store = i.store)
      ∧ (m.Touches i (l.Branch .decode) → ∀ n, n ≠ c.parameter → (m.run i).1.get? n = i.get? n)
      ∧ (m.run i).1.get? isLocalName = i.get? isLocalName
      ∧ (∀ n, n ≠ c.parameter → n ∉ c.bits → (m.run i).1.get? n = i.get? n)
      ∧ ∀ es', let j := m.play es' m.start
          j.current = i.current → j.store.Agree c.names i.store →
            (m.run j).2 = (m.run i).2 ∧ (m.run j).1.current = (m.run i).1.current
              ∧ (m.run j).1.store.Agree c.names (m.run i).1.store := by
  intro m i
  have hi : l.Standing i := standing_play hl es
  refine ⟨fun ht => (keeps_of_touches hl hi ht).others,
    fun ht => (keeps_of_touches hl hi ht).unmarked rfl, fun ht n hn => ?_,
    get?_run hl hi (Ne.symm hc) c.isLocal_not_mem_bits, fun n => get?_run hl hi, fun es' => ?_⟩
  · exact (keeps_of_touches hl hi ht).others n fun hm => hn (List.mem_singleton.1 hm)
  · exact run_agree hl hi (standing_play hl es')

/-- A codec of one bit. -/
def toggle : Codec := ⟨"Hat", 1, by decide⟩

/-- What a wearer's instance of the toggle has been given before its first run. -/
def toggleEvents : List Event :=
  [.set isLocalName (.bool true), .set "Hat" (.int 1), .set "Hat.bit_0" (.bool false),
    .set "Hue" (.int 7)]

/-- On its first run, the wearer's instance goes into the local branch, sets the bit and nothing
else. -/
theorem run_frame_toggle :
    let m := Machine.ofLayer (toggle.fusedLayer true)
    let i := m.play toggleEvents m.start
    m.Touches i ((toggle.fusedLayer true).Branch .encode)
      ∧ (m.run i).1.get? "Hat.bit_0" = some (.bool true)
      ∧ ∀ n, n ∉ toggle.bits → (m.run i).1.get? n = i.get? n := by
  have hc : toggle.parameter ≠ isLocalName := by decide
  have ht : (Machine.ofLayer (toggle.fusedLayer true)).Touches
      ((Machine.ofLayer (toggle.fusedLayer true)).play toggleEvents
        (Machine.ofLayer (toggle.fusedLayer true)).start)
      ((toggle.fusedLayer true).Branch .encode) :=
    Or.inr ⟨Scaffold.localRoot, by decide +kernel, .root⟩
  exact ⟨ht, by decide +kernel,
    (run_frame toggle hc .fused true List.mem_cons_self toggleEvents).1 ht⟩

end Codec

end AvatarBits
