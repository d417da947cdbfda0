import ScriptEngine.Proofs.Machine.Contents
import ScriptEngine.Proofs.Value.Text

/-!
# How containers come to be shown inside themselves

A heap is free of circles if no container of it is shown inside itself.  A new object does not close
a circle, as long as nothing refers to containers that are not there yet: nothing leads to it.  A
write closes one exactly if the value that is written is shown in its new place and leads to the
container that it is written to (`Heap.Stores.isFreeOfCircles_iff`).
-/

namespace ScriptEngine

open Relation (TransGen ReflTransGen)

namespace Heap

variable {h h' : Heap}

/-- The value does not refer to a container that the heap does not have. -/
def Owns (h : Heap) : Value → Prop
  | .array a => a < h.arrays.size
  | .hash a => a < h.hashes.size
  | .struct a => a < h.structs.size
  | _ => True

instance (h : Heap) : DecidablePred h.Owns
  | .array a => inferInstanceAs (Decidable (a < h.arrays.size))
  | .hash a => inferInstanceAs (Decidable (a < h.hashes.size))
  | .struct a => inferInstanceAs (Decidable (a < h.structs.size))
  | .null | .bool _ | .int _ | .float _ | .str _ | .closure _ | .function _ | .structType _
  | .builtin _ => .isTrue trivial

theorem owns_of_isPlain (h : Heap) {v : Value} (hv : v.isPlain = true) : h.Owns v := by
  cases v <;> trivial

/-- No container is shown inside itself. -/
def IsFreeOfCircles (h : Heap) : Prop :=
  ∀ v, ¬TransGen h.Shows v v

/-- Everything has a text if there are no circles. -/
theorem isFreeOfCircles_iff : h.IsFreeOfCircles ↔ ∀ v, h.Renders v := by
  simp only [renders_iff]
  constructor
  · rintro hfree v ⟨w, -, hcircle⟩
    exact hfree w hcircle
  · intro hself v hcircle
    exact hself v ⟨v, .refl, hcircle⟩

theorem All.holds {p : Value → Prop} (hh : h.All p) {c v : Value} (hholds : h.Holds c v) : p v := by
  cases c with
  | array a => exact hh.array a v (by simpa [Holds, held] using hholds)
  | hash a =>
      obtain ⟨e, he, rfl⟩ := List.mem_map.mp hholds
      exact hh.hash a e (by simpa [Dict.toList] using he)
  | struct a => exact hh.struct a v (by simpa [Holds, held] using hholds)
  | _ => cases hholds

/-! ## New objects -/

/-- Objects have been added to the heap: what was there is there, and has not changed. -/
structure Adds (h h' : Heap) : Prop where
  array : ∀ a < h.arrays.size, a < h'.arrays.size ∧ h'.array a = h.array a
  hash : ∀ a < h.hashes.size, a < h'.hashes.size ∧ h'.hash a = h.hash a
  struct : ∀ a < h.structs.size, a < h'.structs.size ∧ h'.struct a = h.struct a

namespace Adds

theorem refl (h : Heap) : h.Adds h :=
  ⟨fun _ ha => ⟨ha, rfl⟩, fun _ ha => ⟨ha, rfl⟩, fun _ ha => ⟨ha, rfl⟩⟩

theorem newArray (h : Heap) (elements : Array Value) : h.Adds (h.newArray elements).2 := by
  refine { refl h with array := fun a ha => ⟨?_, ?_⟩ }
  · rw [Heap.newArray, Array.size_push]
    omega
  · rw [Heap.array, Heap.newArray, Array.getElem?_push, if_neg (Nat.ne_of_lt ha), Heap.array]

theorem newHash (h : Heap) (entries : Dict Value) : h.Adds (h.newHash entries).2 := by
  refine { refl h with hash := fun a ha => ⟨?_, ?_⟩ }
  · rw [Heap.newHash, Array.size_push]
    omega
  · rw [Heap.hash, Heap.newHash, Array.getElem?_push, if_neg (Nat.ne_of_lt ha), Heap.hash]

theorem newStruct (h : Heap) (type : StructType) (fields : Array Value) :
    h.Adds (h.newStruct type fields).2 := by
  refine { refl h with struct := fun a ha => ⟨?_, ?_⟩ }
  · rw [Heap.newStruct, Array.size_push]
    omega
  · rw [Heap.struct, Heap.newStruct, Array.getElem?_push, if_neg (Nat.ne_of_lt ha), Heap.struct]

theorem newClosure (h : Heap) (function : Function) (captured : Array Value) :
    h.Adds (h.newClosure function captured).2 :=
  { refl h with }

theorem owns (hadds : h.Adds h') (v : Value) (hv : h.Owns v) : h'.Owns v := by
  cases v with
  | array a => exact (hadds.array a hv).1
  | hash a => exact (hadds.hash a hv).1
  | struct a => exact (hadds.struct a hv).1
  | _ => exact hv

theorem held (hadds : h.Adds h') (v : Value) (hv : h.Owns v) : h'.held v = h.held v := by
  cases v with
  | array a => simp only [Heap.held, (hadds.array a hv).2]
  | hash a => simp only [Heap.held, (hadds.hash a hv).2]
  | struct a => simp only [Heap.held, (hadds.struct a hv).2]
  | _ => rfl

theorem shows_iff (hadds : h.Adds h') {v w : Value} (hv : h.Owns v) :
    h'.Shows v w ↔ h.Shows v w := by
  cases v with
  | array a => simp only [Shows, layout, (hadds.array a hv).2]
  | hash a => simp only [Shows, layout, (hadds.hash a hv).2]
  | struct a => simp only [Shows, layout, (hadds.struct a hv).2]
  | _ => rfl

end Adds

/-- A new object is not shown by anything, so that it is not on a circle. -/
theorem IsFreeOfCircles.adds (hfree : h.IsFreeOfCircles) (hadds : h.Adds h')
    (hall : h'.All h.Owns) : h'.IsFreeOfCircles := by
  have hpath {v w : Value} (hv : h.Owns v) (hvw : TransGen h'.Shows v w) :
      TransGen h.Shows v w := by
    induction hvw with
    | single hshows => exact .single ((hadds.shows_iff hv).mp hshows)
    | @tail w x hvw hshows ih =>
        -- the inner container of the path is shown, and hence one of the old ones
        obtain ⟨u, -, hu⟩ := TransGen.tail'_iff.mp hvw
        exact ih.tail ((hadds.shows_iff (hall.holds hu.holds)).mp hshows)
  intro v hcircle
  obtain ⟨u, -, hu⟩ := TransGen.tail'_iff.mp hcircle
  exact hfree v (hpath (hall.holds hu.holds) hcircle)

/-! ## Writes -/

/-- A value has been written to a container: no other container shows anything else, and this one
shows nothing else that it did not show before. -/
structure Stores (h : Heap) (container value : Value) (h' : Heap) : Prop where
  owns : ∀ v, h.Owns v → h'.Owns v
  other : ∀ {v w}, v ≠ container → (h'.Shows v w ↔ h.Shows v w)
  same : ∀ {w}, h'.Shows container w → h.Shows container w ∨ w = value

namespace Stores

variable {container value v w : Value}

theorem shows (hstores : h.Stores container value h') (hshows : h'.Shows v w) :
    h.Shows v w ∨ v = container ∧ w = value := by
  by_cases hv : v = container
  · subst hv
    exact (hstores.same hshows).imp_right fun hw => ⟨rfl, hw⟩
  · exact .inl ((hstores.other hv).mp hshows)

/-- A way down after the write is one from before, or one to the container and then one from the
value. -/
theorem path_cases (hstores : h.Stores container value h') (hpath : TransGen h'.Shows v w) :
    TransGen h.Shows v w ∨
      ReflTransGen h.Shows v container ∧ ReflTransGen h.Shows value w := by
  induction hpath with
  | single hshows =>
      rcases hstores.shows hshows with hold | ⟨rfl, rfl⟩
      · exact .inl (.single hold)
      · exact .inr ⟨.refl, .refl⟩
  | tail _ hshows ih =>
      rcases hstores.shows hshows with hold | ⟨rfl, rfl⟩
      · rcases ih with hpath | ⟨hto, hfrom⟩
        · exact .inl (hpath.tail hold)
        · exact .inr ⟨hto, hfrom.tail hold⟩
      · rcases ih with hpath | ⟨hto, -⟩
        · exact .inr ⟨hpath.to_reflTransGen, .refl⟩
        · exact .inr ⟨hto, .refl⟩

/-- A way down to the container is still there after the write, as it need not go on from it. -/
theorem path_to_container (hstores : h.Stores container value h')
    (hpath : ReflTransGen h.Shows v container) : ReflTransGen h'.Shows v container := by
  induction hpath using ReflTransGen.head_induction_on with
  | refl => exact .refl
  | @head v w hshows _ ih =>
      by_cases hv : v = container
      · exact hv ▸ .refl
      · exact .head ((hstores.other hv).mpr hshows) ih

/-- A write closes a circle exactly if the value is shown in its new place and leads to the
container. -/
theorem isFreeOfCircles_iff (hstores : h.Stores container value h') (hfree : h.IsFreeOfCircles) :
    h'.IsFreeOfCircles ↔
      ¬(h'.Shows container value ∧ ReflTransGen h.Shows value container) := by
  constructor
  · rintro hfree' ⟨hshows, hleads⟩
    exact hfree' container (.head' hshows (hstores.path_to_container hleads))
  · intro hnot v hcircle
    by_cases hshows : h'.Shows container value
    · rcases hstores.path_cases hcircle with hold | ⟨hto, hfrom⟩
      · exact hfree v hold
      · exact hnot ⟨hshows, hfrom.trans hto⟩
    · -- the value is not shown, so that nothing is shown that was not shown before
      refine hfree v (TransGen.mono (fun u w hw => ?_) v v hcircle)
      rcases hstores.shows hw with hold | ⟨rfl, rfl⟩
      · exact hold
      · exact absurd hw hshows

end Stores

end Heap

def Place.container : Place → Value
  | .element a _ | .tail a => .array a
  | .entry a _ => .hash a

namespace Heap

/-- A write goes to the container that it is asked for. -/
theorem container_of_place {h : Heap} {container position : Value} {place : Place}
    (hplace : h.place container position = .ok place) : place.container = container := by
  cases container with
  | array a =>
      cases position with
      | int i =>
          simp only [Heap.place] at hplace
          split at hplace
          · split at hplace
            · cases hplace
              rfl
            · split at hplace
              · cases hplace
                rfl
              · cases hplace
          · cases hplace
      | _ => cases hplace
  | hash a =>
      simp only [Heap.place] at hplace
      split at hplace
      · cases hplace
        rfl
      · cases hplace
  | _ => cases hplace

namespace Stores

variable {value : Value}

/-- What the objects of a row show after one of them has been given a value. -/
theorem mem_modify {α : Type} (shown : α → List Value) {row : Array α} {a b : Nat}
    {change : α → α} {absent : α} {w : Value} (habsent : shown absent = [])
    (hchange : ∀ x, w ∈ shown (change x) → w ∈ shown x ∨ w = value)
    (hw : w ∈ shown ((row.modify a change)[b]?.getD absent)) :
    w ∈ shown (row[b]?.getD absent) ∨ w = value := by
  rw [Array.getElem?_modify] at hw
  by_cases hab : a = b
  · rw [if_pos hab] at hw
    cases hrow : row[b]? with
    | none => simp [hrow, habsent] at hw
    | some x =>
        rw [hrow] at hw
        exact hchange x hw
  · rw [if_neg hab] at hw
    exact .inl hw

theorem array (h : Heap) (a : Nat) {change : Array Value → Array Value}
    (hchange : ∀ xs, ∀ x ∈ change xs, x ∈ xs ∨ x = value) :
    h.Stores (.array a) value { h with arrays := h.arrays.modify a change } := by
  refine ⟨fun v hv => ?_, fun {v w} hv => ?_, fun {w} hshows => ?_⟩
  · cases v with
    | array b => simpa only [Owns, Array.size_modify] using hv
    | _ => exact hv
  · cases v with
    | array b =>
        have hab : a ≠ b := fun hab => hv (congrArg _ hab.symm)
        simp only [shows_array, Heap.array, Array.getElem?_modify, if_neg hab]
    | _ => rfl
  · rw [shows_array] at hshows ⊢
    refine mem_modify Array.toList rfl (fun xs hw => ?_) hshows
    rw [Array.mem_toList_iff] at hw ⊢
    exact hchange xs w hw

theorem hash (h : Heap) (a : Nat) (key : Key) :
    h.Stores (.hash a) value
      { h with hashes := h.hashes.modify a fun d => d.insert key value } := by
  refine ⟨fun v hv => ?_, fun {v w} hv => ?_, fun {w} hshows => ?_⟩
  · cases v with
    | hash b => simpa only [Owns, Array.size_modify] using hv
    | _ => exact hv
  · cases v with
    | hash b =>
        have hab : a ≠ b := fun hab => hv (congrArg _ hab.symm)
        simp only [shows_hash, Heap.hash, Array.getElem?_modify, if_neg hab]
    | _ => rfl
  · rw [shows_hash] at hshows ⊢
    refine mem_modify (fun d : Dict Value => d.toList.map Prod.snd) rfl (fun d hw => ?_) hshows
    obtain ⟨e, he, rfl⟩ := List.mem_map.mp hw
    let isOld (v : Value) : Prop := v ∈ d.toList.map Prod.snd ∨ v = value
    have hinsert : ∀ e ∈ (d.insert key value).entries, isOld e.2 :=
      Dict.all_insert
        (fun e he => .inl (List.mem_map_of_mem (Array.mem_toList_iff.mpr he))) (.inr rfl)
    exact hinsert e (Array.mem_toList_iff.mp he)

theorem mem_zip_set {names : List (String × Ty)} {values : List Value} {k : Nat} {w : Value}
    (hw : w ∈ (names.zip (values.set k value)).map Prod.snd) :
    w ∈ (names.zip values).map Prod.snd ∨ w = value := by
  induction names generalizing values k with
  | nil => simp at hw
  | cons name names ih =>
      cases values with
      | nil => simp at hw
      | cons v values =>
          cases k with
          | zero =>
              simp only [List.set_cons_zero, List.zip_cons_cons, List.map_cons, List.mem_cons] at hw
              rcases hw with rfl | hw
              · exact .inr rfl
              · exact .inl (List.mem_cons_of_mem _ hw)
          | succ k =>
              simp only [List.set_cons_succ, List.zip_cons_cons, List.map_cons, List.mem_cons] at hw
              rcases hw with rfl | hw
              · exact .inl List.mem_cons_self
              · exact (ih hw).imp_left (List.mem_cons_of_mem _)

theorem setField (h : Heap) (a k : Nat) : h.Stores (.struct a) value (h.setField a k value) := by
  refine ⟨fun v hv => ?_, fun {v w} hv => ?_, fun {w} hshows => ?_⟩
  · cases v with
    | struct b => simpa only [Owns, Heap.setField, Array.size_modify] using hv
    | _ => exact hv
  · cases v with
    | struct b =>
        have hab : a ≠ b := fun hab => hv (congrArg _ hab.symm)
        simp only [shows_struct, Heap.setField, Heap.struct, Array.getElem?_modify, if_neg hab]
    | _ => rfl
  · rw [shows_struct] at hshows ⊢
    refine mem_modify (fun o : Instance => (o.type.fields.zip o.fields.toList).map Prod.snd)
      (by simp) (fun o hw => ?_) hshows
    simp only [Array.toList_setIfInBounds] at hw
    exact mem_zip_set hw

theorem write (h : Heap) (place : Place) :
    h.Stores place.container value (h.write place value) := by
  cases place with
  | element a n => exact array h a fun xs x hx => Array.mem_or_eq_of_mem_setIfInBounds hx
  | tail a => exact array h a fun xs x hx => Array.mem_push.mp hx
  | entry a key => exact hash h a key

end Stores

end Heap

end ScriptEngine
