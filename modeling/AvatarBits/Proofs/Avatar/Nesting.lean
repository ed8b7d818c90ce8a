import AvatarBits.Proofs.Avatar.Acceptance

/-!
# How deep descriptions nest

All parts of an avatar but its machines nest a fixed number of levels. So only
layers of a controller can nest too deep, each as deep as its machine.

* `Shallow`: members that nest no deeper than some levels.

Results:
* `ControllerLayer.depth_le`: a layer whose machine has no machines in it.
* `Avatar.depth_le_iff`: an avatar nests no deeper than a text may exactly if no layer of its
  controllers does, five levels down.
-/
namespace AvatarBits

open Json

/-! ## Members -/

namespace Json

/-- Members that nest no deeper than some levels. -/
def Shallow (d : Nat) (ms : List (String × Value)) : Prop := ∀ m ∈ ms, m.2.depth ≤ d

variable {α : Type} {name : String} {value : α → Value} {d : Nat} {ms ns : List (String × Value)}

namespace Value

theorem depth_list_le {xs : List α} :
    (list value xs).depth ≤ d + 1 ↔ ∀ x ∈ xs, (value x).depth ≤ d := by
  rw [list, depth_array_le, List.forall_mem_map]

theorem depth_option_le {o : Option α} :
    (option value o).depth ≤ d ↔ ∀ x ∈ o, (value x).depth ≤ d := by
  cases o with
  | none => exact ⟨fun _ => nofun, fun _ => Nat.zero_le d⟩
  | some x => exact ⟨fun h _ hx => Option.some.inj hx ▸ h, fun h => h x rfl⟩

end Value

namespace Shallow

theorem nil : Shallow d [] := nofun

theorem cons {v : Value} (hv : v.depth ≤ d) (h : Shallow d ms) : Shallow d ((name, v) :: ms) :=
  List.forall_mem_cons.2 ⟨hv, h⟩

theorem string (s : String) (h : Shallow d ms) : Shallow d ((name, .string s) :: ms) :=
  cons (Nat.zero_le d) h

theorem bool (b : Bool) (h : Shallow d ms) : Shallow d ((name, .bool b) :: ms) :=
  cons (Nat.zero_le d) h

theorem int (i : Int) (h : Shallow d ms) : Shallow d ((name, .int i) :: ms) :=
  cons (Nat.zero_le d) h

theorem single (x : Single) (h : Shallow d ms) : Shallow d ((name, x.toValue) :: ms) :=
  cons (x.depth_toValue ▸ Nat.zero_le d) h

theorem list {xs : List α} (hx : ∀ x ∈ xs, (value x).depth ≤ d) (h : Shallow (d + 1) ms) :
    Shallow (d + 1) ((name, .list value xs) :: ms) :=
  cons (Value.depth_list_le.2 hx) h

theorem append (h : Shallow d ms) (h' : Shallow d ns) : Shallow d (ms ++ ns) :=
  List.forall_mem_append.2 ⟨h, h'⟩

theorem memberOf {o : Option α} (h : ∀ x, (value x).depth ≤ d) :
    Shallow d (memberOf name value o) := by
  cases o with
  | none => exact nil
  | some x => exact cons (h x) nil

theorem membersOf {xs : List α} (h : ∀ x ∈ xs, (value x).depth ≤ d) :
    Shallow (d + 1) (membersOf name value xs) := by
  cases xs with
  | nil => exact nil
  | cons => exact list h nil

theorem object (h : Shallow d ms) : (Value.object ms).depth ≤ d + 1 := Value.depth_object_le.2 h

end Shallow

end Json

/-! ## Parameters and menus -/

theorem Parameter.depth_le (p : Parameter) : p.toValue.depth ≤ 1 :=
  Shallow.object <| .string _ <| .string _ <| .bool _ <| .single _ <| .bool _ .nil

theorem Control.depth_le (c : Control) : c.toValue.depth ≤ 1 := by
  rw [toValue_eq]
  exact Shallow.object <| .string _ <| .string _ <| .append (.memberOf fun _ => Nat.zero_le 0) <|
    .single _ <| .append (.memberOf fun _ => Nat.zero_le 0) .nil

theorem MenuPage.depth_le (p : MenuPage) : p.toValue.depth ≤ 3 :=
  Shallow.object <| .string _ <| .list (fun c _ => c.depth_le) .nil

theorem Menu.depth_le (m : Menu) : m.toValue.depth ≤ 5 :=
  Shallow.object <| .int _ <| .list (fun p _ => p.depth_le) .nil

/-! ## States -/

theorem Condition.depth_le (c : Condition) : c.toValue.depth ≤ 1 :=
  Shallow.object <| .string _ <| .string _ <| .single _ .nil

theorem DriverAction.depth_le (a : DriverAction) : a.toValue.depth ≤ 1 := by
  cases a with
  | set | add => exact Shallow.object <| .string _ <| .string _ <| .single _ .nil
  | random =>
    exact Shallow.object <| .string _ <| .string _ <| .single _ <| .single _ <| .single _ .nil
  | copy =>
    exact Shallow.object <| .string _ <| .string _ <| .string _ <| .bool _ <| .single _ <|
      .single _ <| .single _ <| .single _ .nil

theorem Behaviour.depth_le (b : Behaviour) : b.toValue.depth ≤ 3 := by
  cases b with
  | driver => exact Shallow.object <| .string _ <| .bool _ <| .list (fun a _ => a.depth_le) .nil
  | other => exact Shallow.object <| .string _ .nil

theorem Transition.depth_le (t : Transition) : t.toValue.depth ≤ 3 :=
  Shallow.object <| .append (.memberOf fun _ => Nat.zero_le 2) <|
    .list (fun c _ => c.depth_le) <| .bool _ <| .single _ <| .single _ .nil

theorem State.depth_le (s : State) : s.toValue.depth ≤ 5 := by
  rw [toValue_eq]
  exact Shallow.object <| .string _ <| .bool _ <| .append (.membersOf fun t _ => t.depth_le) <|
    .append (.membersOf fun b _ => b.depth_le) .nil

/-! ## Layers -/

theorem StateMachine.depth_le {m : StateMachine} (h : m.children = []) : m.toValue.depth ≤ 7 := by
  have hlist {α : Type} {value : α → Value} {name : String} {xs : List α} {d : Nat} (hd : d ≤ 5)
      (hx : ∀ x, (value x).depth ≤ d) : Shallow 6 (membersOf name value xs) :=
    .membersOf fun x _ => Nat.le_trans (hx x) hd
  rw [toValue_eq, h]
  exact Shallow.object <| .string _ <| .append (.memberOf fun _ => Nat.zero_le 6) <|
    .list (fun s _ => s.depth_le) <| .append (hlist (by decide) Transition.depth_le) <|
    .append (hlist (by decide) Transition.depth_le) <| .append .nil <|
    .append (hlist (by decide) Behaviour.depth_le) .nil

/-- A layer whose machine has no machines in it nests a few levels only. -/
theorem ControllerLayer.depth_le {l : ControllerLayer} (h : l.machine.children = []) :
    l.toValue.depth ≤ 8 :=
  Shallow.object <| .string _ <| .int _ <| .single _ <| .cons (StateMachine.depth_le h) .nil

theorem ControllerParameter.depth_le (p : ControllerParameter) : p.toValue.depth ≤ 1 :=
  Shallow.object <| .string _ <| .string _ <| .single _ .nil

/-! ## Avatars -/

theorem Controller.depth_le_iff {c : Controller} {d : Nat} (hd : 1 ≤ d) :
    c.toValue.depth ≤ d + 2 ↔ ∀ l ∈ c.layers, l.toValue.depth ≤ d := by
  rw [toValue, Value.depth_object_le]
  simp only [List.forall_mem_cons, Value.depth_list_le]
  constructor
  · rintro ⟨-, -, h, -⟩
    exact h
  · exact fun h => ⟨Nat.zero_le _, fun p _ => Nat.le_trans p.depth_le hd, h, List.forall_mem_nil _⟩

theorem PlayableLayer.depth_le_iff {l : PlayableLayer} {d : Nat} :
    l.toValue.depth ≤ d + 1 ↔ ∀ c ∈ l.controller, c.toValue.depth ≤ d := by
  rw [toValue, Value.depth_object_le]
  simp only [List.forall_mem_cons, Value.depth_option_le]
  exact ⟨fun h => h.2.1, fun h => ⟨Nat.zero_le _, h, List.forall_mem_nil _⟩⟩

/-- Only layers of controllers can make an avatar nest deep. -/
theorem Avatar.depth_le_iff {a : Avatar} :
    a.toValue.depth ≤ maxDepth ↔ ∀ c ∈ a.controllers, ∀ l ∈ c.layers, l.toValue.depth ≤ 122 := by
  have hparameters : ∀ ps ∈ a.parameters, (Value.list Parameter.toValue ps).depth ≤ 126 :=
    fun ps _ => Value.depth_list_le.2 fun p _ => Nat.le_trans p.depth_le (by decide)
  have hmenu : ∀ m ∈ a.menu, m.toValue.depth ≤ 126 := fun m _ => Nat.le_trans m.depth_le (by decide)
  have hlayers : (Value.list PlayableLayer.toValue a.layers).depth ≤ 126
      ↔ ∀ c ∈ a.controllers, ∀ l ∈ c.layers, l.toValue.depth ≤ 122 := by
    rw [Value.depth_list_le]
    simp only [PlayableLayer.depth_le_iff, Controller.depth_le_iff (show 1 ≤ 122 by decide),
      controllers, List.mem_filterMap]
    exact ⟨fun h c ⟨l, hl, hc⟩ => h l hl c hc, fun h l hl c hc => h c ⟨l, hl, hc⟩⟩
  rw [← hlayers, toValue, maxDepth, Value.depth_object_le]
  simp only [List.forall_mem_cons, Value.depth_option_le]
  exact ⟨fun h => h.2.2.1, fun h => ⟨hparameters, hmenu, h, List.forall_mem_nil _⟩⟩

end AvatarBits
