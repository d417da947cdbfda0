import ScriptEngine.Proofs.Machine.Failure
import ScriptEngine.Proofs.Value.Circles

/-!
# Zero values

What the zero value of a type is, and what it means for a value to be new: its containers have all
been added to a heap, and each of them stands in one place of the value only.  Values that are made
one after another share no container (`Heap.AreNew.cons`), and a container that holds new values is
new itself (`Heap.AreNew.isNew`).  Hence a new zero value of a struct type can be made of new zero
values of its fields (`Heap.MakesZeros.newStruct`).
-/

namespace ScriptEngine

/-! ## Zero values of types -/

mutual

/-- The value is the zero value of a type. -/
inductive Heap.IsZero (h : Heap) : Ty → Value → Prop
  | int : Heap.IsZero h .int (.int 0)
  | float : Heap.IsZero h .float (.float 0)
  | string : Heap.IsZero h .string (.str "")
  | bool : Heap.IsZero h .bool (.bool false)
  | null : Heap.IsZero h .null .null
  | func (parameters : List Ty) (result : Option Ty) :
      Heap.IsZero h (.func parameters result) .null
  | array {a : Nat} (element : Ty) (empty : h.arrays[a]? = some #[]) :
      Heap.IsZero h (.array element) (.array a)
  | hash {a : Nat} (key value : Ty) (empty : h.hashes[a]? = some .empty) :
      Heap.IsZero h (.hash key value) (.hash a)
  /-- An instance of a type of this name, with the zero values of the declared fields in order. -/
  | struct {a : Nat} {s : Instance} {fields : List (String × Ty)}
      (found : h.structs[a]? = some s) (values : Heap.AreZeros h fields s.fields.toList) :
      Heap.IsZero h (.struct s.type.name fields) (.struct a)

inductive Heap.AreZeros (h : Heap) : List (String × Ty) → List Value → Prop
  | nil : Heap.AreZeros h [] []
  | cons {ty : Ty} {v : Value} {fields : List (String × Ty)} {vs : List Value} (name : String)
      (head : Heap.IsZero h ty v) (tail : Heap.AreZeros h fields vs) :
      Heap.AreZeros h ((name, ty) :: fields) (v :: vs)

end

namespace Heap

variable {h h₁ h₂ : Heap}

theorem AreZeros.length_eq {fields : List (String × Ty)} {vs : List Value}
    (hvs : h.AreZeros fields vs) : vs.length = fields.length := by
  induction fields generalizing vs with
  | nil => cases hvs; rfl
  | cons f fields ih =>
      cases hvs with
      | cons name head tail => exact congrArg Nat.succ (ih tail)

/-! ## Objects that are kept -/

namespace IsKeptIn

/-- A heap in which all objects are kept has had objects added. -/
theorem adds (hkept : h₁.IsKeptIn h₂) : h₁.Adds h₂ := by
  constructor
  · intro a ha
    have hfound := getElem?_of_toList_isPrefix hkept.arrays (Array.getElem?_eq_getElem ha)
    exact ⟨(Array.getElem?_eq_some_iff.mp hfound).1,
      by simp only [Heap.array, hfound, Array.getElem?_eq_getElem ha]⟩
  · intro a ha
    have hfound := getElem?_of_toList_isPrefix hkept.hashes (Array.getElem?_eq_getElem ha)
    exact ⟨(Array.getElem?_eq_some_iff.mp hfound).1,
      by simp only [Heap.hash, hfound, Array.getElem?_eq_getElem ha]⟩
  · intro a ha
    have hfound := getElem?_of_toList_isPrefix hkept.structs (Array.getElem?_eq_getElem ha)
    exact ⟨(Array.getElem?_eq_some_iff.mp hfound).1,
      by simp only [Heap.struct, hfound, Array.getElem?_eq_getElem ha]⟩

mutual

/-- A zero value stays one when objects are added. -/
theorem isZero (hkept : h₁.IsKeptIn h₂) :
    ∀ {ty : Ty} {v : Value}, h₁.IsZero ty v → h₂.IsZero ty v
  | _, _, .int => .int
  | _, _, .float => .float
  | _, _, .string => .string
  | _, _, .bool => .bool
  | _, _, .null => .null
  | _, _, .func parameters result => .func parameters result
  | _, _, .array element empty => .array element (getElem?_of_toList_isPrefix hkept.arrays empty)
  | _, _, .hash key value empty => .hash key value (getElem?_of_toList_isPrefix hkept.hashes empty)
  | _, _, .struct found values =>
      .struct (getElem?_of_toList_isPrefix hkept.structs found) (hkept.areZeros values)

theorem areZeros (hkept : h₁.IsKeptIn h₂) :
    ∀ {fields : List (String × Ty)} {vs : List Value}, h₁.AreZeros fields vs → h₂.AreZeros fields vs
  | _, _, .nil => .nil
  | _, _, .cons name head tail => .cons name (hkept.isZero head) (hkept.areZeros tail)

end

end IsKeptIn

end Heap

/-! ## What is inside a value -/

/-- Whether the value is an array, a hash or a struct instance. -/
def Value.isContainer : Value → Bool
  | .array _ | .hash _ | .struct _ => true
  | _ => false

namespace Heap

variable {h h₁ h₂ : Heap} {v : Value} {vs : List Value} {path : List Nat}

/-- What is found inside a value on the way down that a list of positions gives. -/
def inside? (h : Heap) : Value → List Nat → Option Value
  | v, [] => some v
  | v, k :: path => (h.held v)[k]?.bind fun w => h.inside? w path

/-- The containers inside the value have been added between the heaps, and none of them is inside
the value twice. -/
structure IsNew (h h' : Heap) (v : Value) : Prop where
  added : ∀ path w, h'.inside? v path = some w → w.isContainer = true → ¬h.Owns w ∧ h'.Owns w
  once : ∀ path path' w, h'.inside? v path = some w → h'.inside? v path' = some w →
    w.isContainer = true → path = path'

def among? (h : Heap) (vs : List Value) (k : Nat) (path : List Nat) : Option Value :=
  vs[k]?.bind fun v => h.inside? v path

/-- The containers inside the values have been added between the heaps, and none of them is there
twice, be it inside one value or inside two. -/
structure AreNew (h h' : Heap) (vs : List Value) : Prop where
  added : ∀ k path w, h'.among? vs k path = some w → w.isContainer = true →
    ¬h.Owns w ∧ h'.Owns w
  once : ∀ k path k' path' w, h'.among? vs k path = some w → h'.among? vs k' path' = some w →
    w.isContainer = true → k = k' ∧ path = path'

theorem held_of_not_isContainer (h : Heap) (hv : v.isContainer = false) : h.held v = [] := by
  cases v <;> first | rfl | cases hv

/-- What is inside a value does not change if its containers are kept. -/
theorem inside?_eq_of_kept (hkept : h₁.IsKeptIn h₂)
    (howns : ∀ path w, h₁.inside? v path = some w → w.isContainer = true → h₁.Owns w) :
    h₂.inside? v path = h₁.inside? v path := by
  induction path generalizing v with
  | nil => rfl
  | cons k path ih =>
      have hheld : h₂.held v = h₁.held v := by
        cases hv : v.isContainer with
        | true => exact hkept.adds.held v (howns [] v rfl hv)
        | false => rw [held_of_not_isContainer h₂ hv, held_of_not_isContainer h₁ hv]
      rw [inside?, inside?, hheld]
      cases hw : (h₁.held v)[k]? with
      | none => rfl
      | some w =>
          refine ih fun path u hu hcontainer => howns (k :: path) u ?_ hcontainer
          rw [inside?, hw]
          exact hu

/-- A value without containers inside is new. -/
theorem IsNew.of_not_isContainer (h h' : Heap) (hv : v.isContainer = false) : h.IsNew h' v := by
  have hinside (path : List Nat) (w : Value) (hw : h'.inside? v path = some w) :
      w.isContainer = false := by
    cases path with
    | nil => exact Option.some.inj hw ▸ hv
    | cons k path =>
        rw [inside?, held_of_not_isContainer h' hv] at hw
        cases hw
  constructor
  · intro path w hw hcontainer
    rw [hinside path w hw] at hcontainer
    cases hcontainer
  · intro path path' w hw _ hcontainer
    rw [hinside path w hw] at hcontainer
    cases hcontainer

theorem IsNew.inside?_eq (hv : h.IsNew h₁ v) (hkept : h₁.IsKeptIn h₂) :
    h₂.inside? v path = h₁.inside? v path :=
  inside?_eq_of_kept hkept fun path w hw hcontainer => (hv.added path w hw hcontainer).2

theorem AreNew.among?_eq (hvs : h.AreNew h₁ vs) (hkept : h₁.IsKeptIn h₂) (k : Nat)
    (path : List Nat) : h₂.among? vs k path = h₁.among? vs k path := by
  unfold among?
  cases hv : vs[k]? with
  | none => rfl
  | some v =>
      refine inside?_eq_of_kept hkept fun path w hw hcontainer =>
        (hvs.added k path w ?_ hcontainer).2
      rw [among?, hv]
      exact hw

/-! ## Making new values -/

theorem AreNew.nil (h h' : Heap) : h.AreNew h' [] := by
  constructor
  · intro k path w hw
    cases hw
  · intro k path k' path' w hw
    cases hw

/-- Values that are made after a new value share no container with it: it was complete before the
first of them was made. -/
theorem IsNew.among?_ne {path' : List Nat} {k : Nat} {w : Value} (hv : h.IsNew h₁ v)
    (hvs : h₁.AreNew h₂ vs) (hw : h₁.inside? v path = some w) (hcontainer : w.isContainer = true) :
    h₂.among? vs k path' ≠ some w := by
  intro hw'
  have howned := (hv.added path w hw hcontainer).2
  exact (hvs.added k path' w hw' hcontainer).1 howned

theorem AreNew.cons (hv : h.IsNew h₁ v) (hvs : h₁.AreNew h₂ vs) (hkept : h.IsKeptIn h₁)
    (hkept' : h₁.IsKeptIn h₂) : h.AreNew h₂ (v :: vs) := by
  have hhead (path : List Nat) : h₂.among? (v :: vs) 0 path = h₁.inside? v path :=
    hv.inside?_eq hkept'
  have htail (k : Nat) (path : List Nat) :
      h₂.among? (v :: vs) (k + 1) path = h₂.among? vs k path := rfl
  constructor
  · intro k path w hw hcontainer
    cases k with
    | zero =>
        rw [hhead] at hw
        obtain ⟨hold, hnew⟩ := hv.added path w hw hcontainer
        exact ⟨hold, hkept'.adds.owns w hnew⟩
    | succ k =>
        rw [htail] at hw
        obtain ⟨hold, hnew⟩ := hvs.added k path w hw hcontainer
        exact ⟨fun howned => hold (hkept.adds.owns w howned), hnew⟩
  · intro k path k' path' w hw hw' hcontainer
    cases k with
    | zero =>
        rw [hhead] at hw
        cases k' with
        | zero =>
            rw [hhead] at hw'
            exact ⟨rfl, hv.once path path' w hw hw' hcontainer⟩
        | succ k' =>
            rw [htail] at hw'
            exact absurd hw' (hv.among?_ne hvs hw hcontainer)
    | succ k =>
        rw [htail] at hw
        cases k' with
        | zero =>
            rw [hhead] at hw'
            exact absurd hw (hv.among?_ne hvs hw' hcontainer)
        | succ k' =>
            rw [htail] at hw'
            obtain ⟨rfl, rfl⟩ := hvs.once k path k' path' w hw hw' hcontainer
            exact ⟨rfl, rfl⟩

/-- A container that has just been added and holds new values is new. -/
theorem AreNew.isNew (hvs : h.AreNew h₁ vs) (hkept : h.IsKeptIn h₁) (hkept' : h₁.IsKeptIn h₂)
    (hv : ¬h₁.Owns v ∧ h₂.Owns v) (hheld : h₂.held v = vs) : h.IsNew h₂ v := by
  have hinner (k : Nat) (path : List Nat) : h₂.inside? v (k :: path) = h₁.among? vs k path := by
    rw [← hvs.among?_eq hkept', ← hheld]
    rfl
  -- nothing inside the values is the container that holds them, because it was not there yet
  have hapart {k : Nat} {path : List Nat} {w : Value} (hw : h₁.among? vs k path = some w)
      (hcontainer : w.isContainer = true) : v ≠ w := by
    rintro rfl
    exact hv.1 (hvs.added k path v hw hcontainer).2
  constructor
  · intro path w hw hcontainer
    cases path with
    | nil =>
        obtain rfl := Option.some.inj hw
        exact ⟨fun howned => hv.1 (hkept.adds.owns v howned), hv.2⟩
    | cons k path =>
        rw [hinner] at hw
        obtain ⟨hold, hnew⟩ := hvs.added k path w hw hcontainer
        exact ⟨hold, hkept'.adds.owns w hnew⟩
  · intro path path' w hw hw' hcontainer
    cases path with
    | nil =>
        cases path' with
        | nil => rfl
        | cons k' path' =>
            rw [hinner] at hw'
            exact absurd (Option.some.inj hw) (hapart hw' hcontainer)
    | cons k path =>
        rw [hinner] at hw
        cases path' with
        | nil => exact absurd (Option.some.inj hw') (hapart hw hcontainer)
        | cons k' path' =>
            rw [hinner] at hw'
            obtain ⟨rfl, rfl⟩ := hvs.once k path k' path' w hw hw' hcontainer
            rfl

/-! ## Making zero values -/

/-- Between the heaps, a new zero value of a type has been made. -/
structure MakesZero (h h' : Heap) (ty : Ty) (v : Value) : Prop where
  isZero : h'.IsZero ty v
  isNew : h.IsNew h' v

structure MakesZeros (h h' : Heap) (fields : List (String × Ty)) (vs : List Value) : Prop where
  areZeros : h'.AreZeros fields vs
  areNew : h.AreNew h' vs

theorem makesZero_newArray (h : Heap) (element : Ty) :
    h.MakesZero (h.newArray #[]).2 (.array element) (h.newArray #[]).1 := by
  refine ⟨.array element Array.getElem?_push_size, ?_⟩
  refine (AreNew.nil h h).isNew (.refl h) (.newArray h #[]) ⟨Nat.lt_irrefl _, ?_⟩ ?_
  · simp [Owns, newArray]
  · simp [held, newArray, array]

theorem makesZero_newHash (h : Heap) (key value : Ty) :
    h.MakesZero (h.newHash .empty).2 (.hash key value) (h.newHash .empty).1 := by
  refine ⟨.hash key value Array.getElem?_push_size, ?_⟩
  refine (AreNew.nil h h).isNew (.refl h) (.newHash h .empty) ⟨Nat.lt_irrefl _, ?_⟩ ?_
  · simp [Owns, newHash]
  · simp [held, newHash, hash, Dict.empty, Dict.toList]

namespace MakesZeros

theorem nil (h h' : Heap) : h.MakesZeros h' [] [] :=
  ⟨.nil, .nil h h'⟩

theorem cons {ty : Ty} {fields : List (String × Ty)} (name : String) (hv : h.MakesZero h₁ ty v)
    (hvs : h₁.MakesZeros h₂ fields vs) (hkept : h.IsKeptIn h₁) (hkept' : h₁.IsKeptIn h₂) :
    h.MakesZeros h₂ ((name, ty) :: fields) (v :: vs) :=
  ⟨.cons name (hkept'.isZero hv.isZero) hvs.areZeros, .cons hv.isNew hvs.areNew hkept hkept'⟩

/-- An instance that holds new zero values of the fields. -/
theorem newStruct {fields : List (String × Ty)} (hvs : h.MakesZeros h₁ fields vs)
    (hkept : h.IsKeptIn h₁) (type : StructType) :
    h.MakesZero (h₁.newStruct type vs.toArray).2 (.struct type.name fields)
      (h₁.newStruct type vs.toArray).1 := by
  have hkept' := IsKeptIn.newStruct h₁ type vs.toArray
  constructor
  · exact .struct (s := ⟨type, vs.toArray⟩) Array.getElem?_push_size (hkept'.areZeros hvs.areZeros)
  · refine hvs.areNew.isNew hkept hkept' ⟨Nat.lt_irrefl _, ?_⟩ ?_
    · simp [Owns, Heap.newStruct]
    · simp [held, Heap.newStruct, struct]

end MakesZeros

end Heap

end ScriptEngine
