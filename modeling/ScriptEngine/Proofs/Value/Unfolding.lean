import Mathlib.Data.List.Perm.Subperm
import Mathlib.Logic.Relation
import ScriptEngine.Proofs.Lists
import ScriptEngine.Value.Alike

/-!
# Values that contain themselves

A value is unfolded container by container, down to a depth.  What a depth is enough for does not
change with more of it, and a depth of more than the number of containers is enough for every value
that does not come back to itself: on the way down to what is too deep, some container is met twice
(`Descends.fails_iff`).
-/

namespace ScriptEngine

open Relation (TransGen ReflTransGen)

/-! ## Ways down -/

/-- Some way down leads to something that is met again further down. -/
def LeadsToCircle {α : Type} (below : α → α → Prop) (v : α) : Prop :=
  ∃ w, ReflTransGen below v w ∧ TransGen below w w

/-- A computation that goes down to a depth fails for want of depth only: at depth zero for whatever
has something below it, and otherwise if it fails for something below. -/
structure Descends {α : Type} (below : α → α → Prop) (fails : Nat → α → Prop) : Prop where
  zero : ∀ {v w}, below v w → fails 0 v
  succ : ∀ {depth v}, fails (depth + 1) v ↔ ∃ w, below v w ∧ fails depth w

section

variable {α : Type} {below : α → α → Prop} {v w : α}

theorem LeadsToCircle.head (hbelow : below v w) (hw : LeadsToCircle below w) :
    LeadsToCircle below v := by
  obtain ⟨u, hdown, hcircle⟩ := hw
  exact ⟨u, .head hbelow hdown, hcircle⟩

theorem LeadsToCircle.exists_below (hv : LeadsToCircle below v) :
    ∃ w, below v w ∧ LeadsToCircle below w := by
  obtain ⟨u, hdown, hcircle⟩ := hv
  rcases hdown.cases_head with rfl | ⟨w, hbelow, hrest⟩
  · obtain ⟨w, hbelow, hback⟩ := TransGen.head'_iff.mp hcircle
    exact ⟨w, hbelow, v, hback, hcircle⟩
  · exact ⟨w, hbelow, u, hrest, hcircle⟩

namespace Descends

variable {fails : Nat → α → Prop}

/-- No depth is enough for what leads to a circle. -/
theorem fails_of_leadsToCircle (h : Descends below fails) (hv : LeadsToCircle below v)
    (depth : Nat) : fails depth v := by
  induction depth generalizing v with
  | zero =>
      obtain ⟨w, hbelow, -⟩ := hv.exists_below
      exact h.zero hbelow
  | succ depth ih =>
      obtain ⟨w, hbelow, hw⟩ := hv.exists_below
      exact h.succ.mpr ⟨w, hbelow, ih hw⟩

/-- What is too deep leads down past as many places as the depth.  None of them is met twice unless
there is a circle. -/
theorem exists_path (h : Descends below fails) {depth : Nat} (hv : ¬LeadsToCircle below v)
    (hfails : fails depth v) :
    ∃ path : List α, path.length = depth ∧ path.Nodup ∧ (∀ u ∈ path, ∃ w, below u w) ∧
      ∀ u ∈ path, ReflTransGen below v u := by
  induction depth generalizing v with
  | zero => exact ⟨[], rfl, List.nodup_nil, by simp, by simp⟩
  | succ depth ih =>
      obtain ⟨w, hbelow, hw⟩ := h.succ.mp hfails
      obtain ⟨path, hlength, hnodup, hplaces, hdown⟩ := ih (fun hw => hv (hw.head hbelow)) hw
      have hmet : v ∉ path := fun hmet => hv ⟨v, .refl, .head' hbelow (hdown v hmet)⟩
      refine ⟨v :: path, ?_, List.nodup_cons.mpr ⟨hmet, hnodup⟩, ?_, ?_⟩
      · rw [List.length_cons, hlength]
      · exact List.forall_mem_cons.mpr ⟨⟨w, hbelow⟩, hplaces⟩
      · exact List.forall_mem_cons.mpr ⟨.refl, fun u hu => .head hbelow (hdown u hu)⟩

/-- A depth of more than the number of places is enough for everything that leads to no circle. -/
theorem fails_iff (h : Descends below fails) {places : List α} {depth : Nat}
    (hplaces : ∀ v w, below v w → v ∈ places) (hdepth : places.length < depth) :
    fails depth v ↔ LeadsToCircle below v := by
  constructor
  · intro hfails
    by_contra hv
    obtain ⟨path, hlength, hnodup, hpath, -⟩ := h.exists_path hv hfails
    have hsubset : path ⊆ places := fun u hu => (hpath u hu).elim (hplaces u)
    have hle := (hnodup.subperm hsubset).length_le
    omega
  · intro hv
    exact h.fails_of_leadsToCircle hv depth

end Descends

end

/-! ## What containers hold -/

namespace Heap

/-- What a container holds: its elements, the values of its entries, or its fields. -/
def held (h : Heap) : Value → List Value
  | .array a => (h.array a).toList
  | .hash a => (h.hash a).toList.map Prod.snd
  | .struct a => (h.struct a).fields.toList
  | _ => []

/-- A value holds another one directly. -/
def Holds (h : Heap) (v w : Value) : Prop :=
  w ∈ h.held v

/-- A value leads down to a container that is found again inside itself. -/
def ContainsItself (h : Heap) (v : Value) : Prop :=
  LeadsToCircle h.Holds v

/-- The containers of a heap. -/
def containers (h : Heap) : List Value :=
  (List.range h.arrays.size).map .array ++ (List.range h.hashes.size).map .hash ++
    (List.range h.structs.size).map .struct

theorem length_containers (h : Heap) :
    h.containers.length = h.arrays.size + h.hashes.size + h.structs.size := by
  simp [containers, Nat.add_assoc]

theorem length_containers_lt (h : Heap) : h.containers.length < h.size + 1 := by
  rw [length_containers, size]
  omega

/-- What holds something is a container of the heap. -/
theorem Holds.mem_containers {h : Heap} {v w : Value} (hholds : h.Holds v w) :
    v ∈ h.containers := by
  cases v with
  | array a =>
      have ha : a < h.arrays.size := by
        by_contra hout
        simp [Holds, held, Heap.array, Array.getElem?_eq_none (Nat.le_of_not_lt hout)] at hholds
      simp [containers, ha]
  | hash a =>
      have ha : a < h.hashes.size := by
        by_contra hout
        simp [Holds, held, Heap.hash, Array.getElem?_eq_none (Nat.le_of_not_lt hout), Dict.toList,
          Dict.empty] at hholds
      simp [containers, ha]
  | struct a =>
      have ha : a < h.structs.size := by
        by_contra hout
        simp [Holds, held, Heap.struct, Array.getElem?_eq_none (Nat.le_of_not_lt hout)] at hholds
      simp [containers, ha]
  | _ => cases hholds

/-! ## Unfolding -/

/-- A value cannot be unfolded to the next depth if something that it holds cannot be unfolded. -/
theorem unfolded?_succ_eq_none_iff {h : Heap} {depth : Nat} {v : Value} :
    h.unfolded? (depth + 1) v = none ↔ ∃ w, h.Holds v w ∧ h.unfolded? depth w = none := by
  cases v with
  | array a => simp [unfolded?, mapM_eq_none_iff, Holds, held]
  | hash a =>
      simp only [unfolded?, Option.map_eq_none_iff, mapM_eq_none_iff, Holds, held, List.mem_map]
      constructor
      · rintro ⟨e, hmem, hnone⟩
        exact ⟨e.2, ⟨e, hmem, rfl⟩, hnone⟩
      · rintro ⟨_, ⟨e, hmem, rfl⟩, hnone⟩
        exact ⟨e, hmem, hnone⟩
  | struct a => simp [unfolded?, mapM_eq_none_iff, Holds, held]
  | _ => simp [unfolded?, Holds, held]

/-- A depth that is enough stays enough, and gives the same tree. -/
theorem unfolded?_succ_of_eq_some {h : Heap} {depth : Nat} {v : Value} {t : Tree}
    (hv : h.unfolded? depth v = some t) : h.unfolded? (depth + 1) v = some t := by
  induction depth generalizing v t with
  | zero => cases v <;> first | exact hv | cases hv
  | succ depth ih =>
      have hlist {vs : List Value} {ts : List Tree}
          (hvs : vs.mapM (fun v => h.unfolded? depth v) = some ts) :
          vs.mapM (fun v => h.unfolded? (depth + 1) v) = some ts :=
        mapM_eq_some_of_imp (fun _ _ => ih) hvs
      cases v with
      | array a =>
          obtain ⟨ts, hts, rfl⟩ := Option.map_eq_some_iff.mp hv
          exact Option.map_eq_some_iff.mpr ⟨ts, hlist hts, rfl⟩
      | struct a =>
          obtain ⟨ts, hts, rfl⟩ := Option.map_eq_some_iff.mp hv
          exact Option.map_eq_some_iff.mpr ⟨ts, hlist hts, rfl⟩
      | hash a =>
          obtain ⟨es, hes, rfl⟩ := Option.map_eq_some_iff.mp hv
          refine Option.map_eq_some_iff.mpr ⟨es, mapM_eq_some_of_imp (fun e t he => ?_) hes, rfl⟩
          obtain ⟨u, hu, rfl⟩ := Option.map_eq_some_iff.mp he
          exact Option.map_eq_some_iff.mpr ⟨u, ih hu, rfl⟩
      | _ => exact hv

theorem descends_unfolded? (h : Heap) :
    Descends h.Holds fun depth v => h.unfolded? depth v = none where
  zero {v w} hholds := by cases v <;> first | rfl | cases hholds
  succ := unfolded?_succ_eq_none_iff

/-- A depth of more than the number of containers is enough for everything that does not contain
itself. -/
theorem unfolded?_eq_none_iff {h : Heap} {depth : Nat} {v : Value}
    (hdepth : h.containers.length < depth) : h.unfolded? depth v = none ↔ h.ContainsItself v :=
  h.descends_unfolded?.fails_iff (fun _ _ hholds => hholds.mem_containers) hdepth

/-- Exactly the values that do not contain themselves are unfolded. -/
theorem tree?_eq_none_iff {h : Heap} {v : Value} : h.tree? v = none ↔ h.ContainsItself v :=
  unfolded?_eq_none_iff h.length_containers_lt

end Heap

end ScriptEngine
