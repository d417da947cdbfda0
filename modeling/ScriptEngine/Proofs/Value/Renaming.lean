import Mathlib.Logic.Function.Basic
import ScriptEngine.Proofs.Machine.Contents
import ScriptEngine.Value.Text

/-!
# Other addresses for closures

Programs can tell closures apart, but they cannot see their addresses.  If the closures of a heap
are found under other addresses in another heap, and all values name them there by these
(`Heap.Renamed`), then reading, writing and showing values gives the same in both, up to the
addresses.
-/

namespace ScriptEngine

variable {σ : Nat → Nat}

/-! ## Values -/

namespace Value

/-- The value, with the address of a closure replaced. -/
def rename (σ : Nat → Nat) : Value → Value
  | closure a => closure (σ a)
  | v => v

theorem rename_eq_self {v : Value} (h : ∀ a, v ≠ .closure a) : v.rename σ = v := by
  cases v with
  | closure a => exact absurd rfl (h a)
  | _ => rfl

@[simp] theorem rename_id : rename id = id := by
  funext v
  cases v <;> rfl

@[simp] theorem rename_null : null.rename σ = null :=
  rfl

@[simp] theorem kind_rename (v : Value) : (v.rename σ).kind = v.kind := by
  cases v <;> rfl

@[simp] theorem isTruthy_rename (v : Value) : (v.rename σ).isTruthy = v.isTruthy := by
  cases v <;> rfl

@[simp] theorem key?_rename (v : Value) : (v.rename σ).key? = v.key? := by
  cases v <;> rfl

theorem identical_rename (hσ : Function.Injective σ) (v w : Value) :
    (v.rename σ).identical (w.rename σ) = v.identical w := by
  cases v with
  | closure a =>
      cases w with
      | closure b => simp [rename, identical, hσ.eq_iff, Bool.beq_eq_decide_eq]
      | _ => rfl
  | _ => cases w <;> rfl

@[simp] theorem opposite_rename (v : Value) : (v.rename σ).opposite = v.opposite := by
  cases v <;> rfl

end Value

@[simp] theorem Operation.apply_rename (op : Operation) (l r : Value) :
    op.apply (l.rename σ) (r.rename σ) = op.apply l r := by
  cases l with
  | closure a => cases r <;> cases op <;> rfl
  | _ =>
      cases r with
      | closure b => cases op <;> rfl
      | _ => rfl

/-! ## Objects -/

namespace Dict

variable {α β : Type}

def map (f : α → β) (d : Dict α) : Dict β :=
  { entries := d.entries.map fun e => (e.1, f e.2), slots := d.slots }

theorem insert_map (f : α → β) (d : Dict α) (key : Key) (v : α) :
    (d.map f).insert key (f v) = (d.insert key v).map f := by
  simp only [insert, map]
  cases d.slots.get? key with
  | some slot => simp [Array.map_setIfInBounds]
  | none => simp

theorem get?_map (f : α → β) (d : Dict α) (key : Key) :
    (d.map f).get? key = (d.get? key).map f := by
  simp only [get?, map]
  cases d.slots.get? key with
  | some slot => simp [Function.comp_def]
  | none => rfl

@[simp] theorem map_id : map (id : α → α) = id := by
  funext d
  simp [map]

end Dict

def Instance.rename (σ : Nat → Nat) (s : Instance) : Instance :=
  { s with fields := s.fields.map (Value.rename σ) }

/-- The closure, with the addresses of the closures that it captured replaced. -/
def Closure.rename (σ : Nat → Nat) (c : Closure) : Closure :=
  { c with captured := c.captured.map (Value.rename σ) }

@[simp] theorem Instance.rename_id : Instance.rename id = id := by
  funext s
  simp [rename]

@[simp] theorem Closure.rename_id : Closure.rename id = id := by
  funext c
  simp [rename]

def Globals.rename (σ : Nat → Nat) (g : Globals) : Globals :=
  ⟨g.slots.map (Value.rename σ)⟩

namespace Globals

theorem rename_id (g : Globals) : g.rename id = g := by
  simp [rename]

theorem get_rename (g : Globals) (index : Nat) :
    (g.rename σ).get index = (g.get index).map (Value.rename σ) := by
  simp only [get, rename, Array.getElem?_map, size, Array.size_map]
  cases g.slots[index]? <;> rfl

theorem set_rename (g : Globals) (index : Nat) (v : Value) :
    (g.rename σ).set index (v.rename σ) = (g.set index v).map (Globals.rename σ) := by
  have hsize : (g.rename σ).size = g.size := Array.size_map
  have hput : (g.rename σ).put index (v.rename σ) = (g.put index v).rename σ := by
    simp [put, rename, Array.map_setIfInBounds]
  rw [set, set, hsize, hput]
  split <;> rfl

end Globals

theorem Exec.storePairs_rename (d : Dict Value) (vs : List Value) :
    storePairs (d.map (Value.rename σ)) (vs.map (Value.rename σ)) =
      (storePairs d vs).map (Dict.map (Value.rename σ)) := by
  fun_induction storePairs d vs with
  | case1 d k v rest key hkey ih =>
      simp only [List.map_cons, storePairs, Value.key?_rename, hkey]
      rw [Dict.insert_map, ih]
  | case2 d k v rest hkey => simp [storePairs, hkey, Except.map]
  | case3 vs d hvs =>
      rcases vs with _ | ⟨k, _ | ⟨v, rest⟩⟩
      · rfl
      · rfl
      · exact absurd rfl (hvs k v rest)

/-! ## Heaps -/

/-- The second heap is the first one with other addresses for closures. -/
structure Heap.Renamed (σ : Nat → Nat) (h h' : Heap) : Prop where
  injective : Function.Injective σ
  arrays : h'.arrays = h.arrays.map fun xs => xs.map (Value.rename σ)
  hashes : h'.hashes = h.hashes.map (Dict.map (Value.rename σ))
  structs : h'.structs = h.structs.map (Instance.rename σ)
  size : h'.closures.size = h.closures.size
  closures : ∀ a c, h.closures[a]? = some c → h'.closures[σ a]? = some (c.rename σ)
  /-- What is added to both heaps from now on has the same address in both. -/
  fixed : ∀ a, h.closures.size ≤ a → σ a = a

theorem Heap.renamed_id (h : Heap) : h.Renamed id h where
  injective := Function.injective_id
  arrays := by simp
  hashes := by simp
  structs := by simp
  size := rfl
  closures a c hc := by simpa using hc
  fixed a _ := rfl

namespace Heap.Renamed

variable {h h' : Heap}

/-- With the same addresses, the heaps are the same. -/
theorem eq_of_id (hh : h.Renamed id h') : h' = h := by
  have harrays : h'.arrays = h.arrays := by simpa using hh.arrays
  have hhashes : h'.hashes = h.hashes := by simpa using hh.hashes
  have hstructs : h'.structs = h.structs := by simpa using hh.structs
  have hclosures : h'.closures = h.closures := by
    refine Array.ext hh.size fun a ha' ha => ?_
    have hc := hh.closures a _ (Array.getElem?_eq_getElem ha)
    rw [id_eq, Closure.rename_id, id_eq, Array.getElem?_eq_getElem ha'] at hc
    exact Option.some.inj hc
  cases h
  cases h'
  simp_all

theorem array (hh : h.Renamed σ h') (a : Nat) :
    h'.array a = (h.array a).map (Value.rename σ) := by
  rw [Heap.array, Heap.array, hh.arrays, Array.getElem?_map]
  cases h.arrays[a]? <;> simp

theorem hash (hh : h.Renamed σ h') (a : Nat) :
    h'.hash a = (h.hash a).map (Value.rename σ) := by
  rw [Heap.hash, Heap.hash, hh.hashes, Array.getElem?_map]
  cases h.hashes[a]? with
  | none => simp [Dict.map, Dict.empty]
  | some d => rfl

theorem struct (hh : h.Renamed σ h') (a : Nat) :
    h'.struct a = (h.struct a).rename σ := by
  rw [Heap.struct, Heap.struct, hh.structs, Array.getElem?_map]
  cases h.structs[a]? with
  | none => simp [Instance.rename]
  | some s => rfl

theorem closure (hh : h.Renamed σ h') (a : Nat) :
    h'.closure (σ a) = (h.closure a).rename σ := by
  rw [Heap.closure, Heap.closure]
  cases hc : h.closures[a]? with
  | some c =>
      rw [hh.closures a c hc]
      rfl
  | none =>
      have ha := Array.getElem?_eq_none_iff.mp hc
      rw [hh.fixed a ha, Array.getElem?_eq_none (hh.size.symm ▸ ha)]
      simp [Closure.rename]

/-! ### Reading and writing -/

theorem index (hh : h.Renamed σ h') (container position : Value) :
    h'.index (container.rename σ) (position.rename σ) =
      (h.index container position).map (Value.rename σ) := by
  cases container with
  | array a =>
      cases position with
      | int i =>
          change h'.index (.array a) (.int i) = _
          simp only [Heap.index, hh.array a, Except.map, Except.ok.injEq]
          cases position? i with
          | none => rfl
          | some n => cases hn : (h.array a)[n]? <;> simp [hn]
      | _ => rfl
  | hash a =>
      change h'.index (.hash a) _ = _
      simp only [Heap.index, Value.key?_rename, Value.kind_rename, hh.hash a, Dict.get?_map]
      cases position.key? with
      | none => rfl
      | some k => cases hk : (h.hash a).get? k <;> simp [hk, Except.map]
  | _ => cases position <;> rfl

theorem place (hh : h.Renamed σ h') (container position : Value) :
    h'.place (container.rename σ) (position.rename σ) = h.place container position := by
  cases container with
  | array a =>
      cases position with
      | int i =>
          change h'.place (.array a) (.int i) = _
          simp only [Heap.place, hh.array a, Array.size_map]
      | _ => rfl
  | hash a =>
      change h'.place (.hash a) _ = _
      simp only [Heap.place, Value.key?_rename, Value.kind_rename]
  | _ => cases position <;> rfl

end Heap.Renamed

/-- Changing an entry of a row commutes with replacing what the row holds. -/
theorem Array.map_modify {α β : Type} {f : α → β} {change : α → α} {change' : β → β}
    (h : ∀ x, change' (f x) = f (change x)) (xs : Array α) (k : Nat) :
    (xs.map f).modify k change' = (xs.modify k change).map f := by
  apply Array.ext_getElem?
  intro j
  simp only [Array.getElem?_map, Array.getElem?_modify]
  split
  · cases xs[j]? <;> simp [h]
  · rfl

namespace Heap.Renamed

variable {h h' : Heap}

theorem write (hh : h.Renamed σ h') (place : Place) (v : Value) :
    (h.write place v).Renamed σ (h'.write place (v.rename σ)) := by
  cases place with
  | element a n =>
      refine { hh with arrays := ?_ }
      simp only [Heap.write, hh.arrays]
      refine Array.map_modify (fun xs => ?_) _ _
      exact Array.map_setIfInBounds.symm
  | tail a =>
      refine { hh with arrays := ?_ }
      simp only [Heap.write, hh.arrays]
      refine Array.map_modify (fun xs => ?_) _ _
      exact Array.map_push.symm
  | entry a k =>
      refine { hh with hashes := ?_ }
      simp only [Heap.write, hh.hashes]
      refine Array.map_modify (fun d => ?_) _ _
      exact d.insert_map _ k v

theorem setField (hh : h.Renamed σ h') (a k : Nat) (v : Value) :
    (h.setField a k v).Renamed σ (h'.setField a k (v.rename σ)) := by
  refine { hh with structs := ?_ }
  simp only [Heap.setField, hh.structs]
  refine Array.map_modify (fun s => ?_) _ _
  simp only [Instance.rename, Array.map_setIfInBounds]

/-! ### New objects -/

theorem newArray (hh : h.Renamed σ h') (vs : Array Value) :
    (h'.newArray (vs.map (Value.rename σ))).1 = (h.newArray vs).1.rename σ ∧
      (h.newArray vs).2.Renamed σ (h'.newArray (vs.map (Value.rename σ))).2 := by
  refine ⟨?_, { hh with arrays := ?_ }⟩
  · simp [Heap.newArray, hh.arrays, Value.rename]
  · simp [Heap.newArray, hh.arrays]

theorem newHash (hh : h.Renamed σ h') (d : Dict Value) :
    (h'.newHash (d.map (Value.rename σ))).1 = (h.newHash d).1.rename σ ∧
      (h.newHash d).2.Renamed σ (h'.newHash (d.map (Value.rename σ))).2 := by
  refine ⟨?_, { hh with hashes := ?_ }⟩
  · simp [Heap.newHash, hh.hashes, Value.rename]
  · simp [Heap.newHash, hh.hashes]

theorem newStruct (hh : h.Renamed σ h') (type : StructType) (vs : Array Value) :
    (h'.newStruct type (vs.map (Value.rename σ))).1 = (h.newStruct type vs).1.rename σ ∧
      (h.newStruct type vs).2.Renamed σ
        (h'.newStruct type (vs.map (Value.rename σ))).2 := by
  refine ⟨?_, { hh with structs := ?_ }⟩
  · simp [Heap.newStruct, hh.structs, Value.rename]
  · simp [Heap.newStruct, hh.structs, Instance.rename]

theorem newClosure (hh : h.Renamed σ h') (f : Function) (vs : Array Value) :
    (h'.newClosure f (vs.map (Value.rename σ))).1 = (h.newClosure f vs).1.rename σ ∧
      (h.newClosure f vs).2.Renamed σ (h'.newClosure f (vs.map (Value.rename σ))).2 := by
  have hnew : σ h.closures.size = h'.closures.size :=
    (hh.fixed _ (Nat.le_refl _)).trans hh.size.symm
  refine ⟨congrArg Value.closure hnew.symm,
    { hh with size := ?_, closures := ?_, fixed := fun a ha => hh.fixed a ?_ }⟩
  · simp only [Heap.newClosure, Array.size_push, hh.size]
  · intro a c hc
    simp only [Heap.newClosure, Array.getElem?_push] at hc ⊢
    by_cases hsize : a = h.closures.size
    · subst hsize
      rw [if_pos rfl] at hc
      cases hc
      rw [if_pos hnew]
      rfl
    · rw [if_neg hsize] at hc
      have hother : σ a ≠ h'.closures.size := fun heq => hsize (hh.injective (heq.trans hnew.symm))
      rw [if_neg hother]
      exact hh.closures a c hc
  · simp only [Heap.newClosure, Array.size_push] at ha
    omega

end Heap.Renamed

/-! ## Texts -/

/-- The layout, with the values in it replaced. -/
def Layout.map (r : Value → Value) : Layout → Layout
  | plain text => plain text
  | parts opening ps closing => parts opening (ps.map fun p => (p.1, r p.2)) closing

namespace Heap

/-- Parts have the same text if the values in them do. -/
theorem writeParts_map {write write' : String → Value → Option String} {r : Value → Value}
    (h : ∀ out v, write' out (r v) = write out v) (out : String) (parts : List (String × Value)) :
    writeParts write' out (parts.map fun p => (p.1, r p.2)) = writeParts write out parts := by
  fun_induction writeParts write out parts with
  | case1 out => rfl
  | case2 out label v => exact h _ v
  | case3 out label v rest hrest ih =>
      cases rest with
      | nil => exact absurd rfl hrest
      | cons next rest =>
          simp only [List.map_cons, writeParts, h] at ih ⊢
          simp only [ih]

/-- Values are written alike if they are laid out alike. -/
theorem write?_map {h h' : Heap} {r : Value → Value}
    (hlayout : ∀ v, h'.layout (r v) = (h.layout v).map r) (depth : Nat) (out : String) (v : Value) :
    h'.write? depth out (r v) = h.write? depth out v := by
  induction depth generalizing out v with
  | zero =>
      simp only [Heap.write?, hlayout v]
      cases h.layout v <;> rfl
  | succ depth ih =>
      simp only [Heap.write?, hlayout v]
      cases h.layout v with
      | plain text => rfl
      | parts opening ps closing => simp only [Layout.map, writeParts_map ih]

namespace Renamed

variable {h h' : Heap}

/-- Addresses of closures are not shown. -/
theorem layout (hh : h.Renamed σ h') (v : Value) :
    h'.layout (v.rename σ) = (h.layout v).map (Value.rename σ) := by
  cases v with
  | closure a =>
      change h'.layout (.closure (σ a)) = _
      simp only [Heap.layout, hh.closure a, Closure.rename, Layout.map]
  | array a =>
      change h'.layout (.array a) = _
      simp [Heap.layout, hh.array a, Layout.map]
  | hash a =>
      change h'.layout (.hash a) = _
      simp [Heap.layout, hh.hash a, Layout.map, Dict.toList, Dict.map]
  | struct a =>
      change h'.layout (.struct a) = _
      simp [Heap.layout, hh.struct a, Layout.map, Instance.rename, List.zip_map_right]
  | _ => rfl

/-- Corresponding values have the same text. -/
theorem text? (hh : h.Renamed σ h') (v : Value) : h'.text? (v.rename σ) = h.text? v := by
  have hsize : h'.size = h.size := by
    simp only [Heap.size, hh.arrays, hh.hashes, hh.structs, hh.size, Array.size_map]
  rw [Heap.text?, Heap.text?, hsize, write?_map hh.layout]

end Renamed

end Heap

end ScriptEngine
