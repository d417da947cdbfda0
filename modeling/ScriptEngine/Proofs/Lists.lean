import Mathlib.Data.List.Forall2
import Mathlib.Data.List.Induction
import Mathlib.Data.List.Nodup

/-!
# Lists, arrays and options

Facts that do not depend on the program: positions of lists that are continued or related, lists
without repetition, computations on all entries of a list, and properties of all entries of an
array.
-/

namespace ScriptEngine

/-! ## Positions -/

section

variable {α β : Type}

/-- An entry stays where it is when further ones are added. -/
theorem getElem?_of_isPrefix {xs ys : List α} {k : Nat} {x : α} (h : xs <+: ys)
    (hx : xs[k]? = some x) : ys[k]? = some x := by
  obtain ⟨later, rfl⟩ := h
  rw [List.getElem?_append_left (List.getElem?_eq_some_iff.mp hx).1, hx]

theorem getElem?_of_toList_isPrefix {xs ys : Array α} {k : Nat} {x : α}
    (h : xs.toList <+: ys.toList) (hx : xs[k]? = some x) : ys[k]? = some x := by
  rw [← Array.getElem?_toList] at hx ⊢
  exact getElem?_of_isPrefix h hx

theorem exists_getElem?_of_forall₂ {R : α → β → Prop} {as : List α} {bs : List β}
    (h : List.Forall₂ R as bs) {k : Nat} {a : α} (ha : as[k]? = some a) :
    ∃ b, bs[k]? = some b ∧ R a b := by
  induction h generalizing k with
  | nil => cases ha
  | cons hab _ ih =>
      cases k with
      | zero =>
          obtain rfl := Option.some.inj ha
          exact ⟨_, rfl, hab⟩
      | succ k => exact ih ha

theorem exists_mem_of_forall₂ {R : α → β → Prop} {as : List α} {bs : List β}
    (h : List.Forall₂ R as bs) {a : α} (ha : a ∈ as) : ∃ b ∈ bs, R a b := by
  obtain ⟨k, hk⟩ := List.mem_iff_getElem?.mp ha
  obtain ⟨b, hb, hab⟩ := exists_getElem?_of_forall₂ h hk
  exact ⟨b, List.mem_of_getElem? hb, hab⟩

end

/-! ## Lists without repetition -/

section

variable {α β : Type} [DecidableEq α] [DecidableEq β]

theorem eraseDups_concat (l : List α) (a : α) :
    (l ++ [a]).eraseDups = if a ∈ l then l.eraseDups else l.eraseDups ++ [a] := by
  rw [List.eraseDups_append]
  by_cases ha : a ∈ l
  · simp [ha, List.removeAll]
  · simp [ha, List.removeAll, List.eraseDups_cons]

theorem nodup_eraseDups (l : List α) : l.eraseDups.Nodup := by
  induction l using List.reverseRecOn with
  | nil => exact List.nodup_nil
  | append_singleton l a ih =>
      rw [eraseDups_concat]
      by_cases ha : a ∈ l
      · rw [if_pos ha]
        exact ih
      · rw [if_neg ha, List.nodup_append]
        refine ⟨ih, List.nodup_singleton a, ?_⟩
        intro b hb c hc
        rw [List.mem_singleton.mp hc]
        rintro rfl
        exact ha (List.mem_eraseDups.mp hb)

theorem eraseDups_map {f : α → β} {l : List α}
    (hf : ∀ a ∈ l, ∀ b ∈ l, f a = f b → a = b) : (l.map f).eraseDups = l.eraseDups.map f := by
  induction l using List.reverseRecOn with
  | nil => rfl
  | append_singleton l a ih =>
      have hl : ∀ x ∈ l, ∀ y ∈ l, f x = f y → x = y := by
        intro x hx y hy
        exact hf x (List.mem_append_left _ hx) y (List.mem_append_left _ hy)
      have hmem : f a ∈ l.map f ↔ a ∈ l := by
        constructor
        · intro ha
          obtain ⟨b, hb, hba⟩ := List.mem_map.mp ha
          rwa [← hf b (List.mem_append_left _ hb) a (by simp) hba]
        · exact List.mem_map_of_mem
      rw [List.map_append, List.map_singleton, eraseDups_concat, eraseDups_concat, ih hl]
      by_cases ha : a ∈ l
      · rw [if_pos (hmem.mpr ha), if_pos ha]
      · rw [if_neg (mt hmem.mp ha), if_neg ha, List.map_append, List.map_singleton]

end

/-! ## Computations on all entries -/

section

variable {α β : Type} {f g : α → Option β} {xs : List α}

theorem mapM_eq_none_iff : xs.mapM f = none ↔ ∃ x ∈ xs, f x = none := by
  induction xs with
  | nil => simp
  | cons x xs ih =>
      rw [List.mapM_cons]
      cases hx : f x with
      | none => simp [hx]
      | some y =>
          cases hxs : xs.mapM f with
          | none => simpa [hx, hxs] using ih
          | some ys => simpa [hx, hxs] using ih

theorem mapM_eq_some_of_imp {ys : List β} (hfg : ∀ x y, f x = some y → g x = some y)
    (hf : xs.mapM f = some ys) : xs.mapM g = some ys := by
  induction xs generalizing ys with
  | nil => exact hf
  | cons x xs ih =>
      rw [List.mapM_cons] at hf ⊢
      obtain ⟨y, hy, hrest⟩ := Option.bind_eq_some_iff.mp hf
      obtain ⟨zs, hzs, hys⟩ := Option.bind_eq_some_iff.mp hrest
      simp [hfg x y hy, ih hzs, ← hys]

theorem mapM_eq_some_map {r : α → β} (hf : ∀ x ∈ xs, f x = some (r x)) :
    xs.mapM f = some (xs.map r) := by
  induction xs with
  | nil => rfl
  | cons x xs ih =>
      rw [List.forall_mem_cons] at hf
      simp [List.mapM_cons, hf.1, ih hf.2]

end

/-! ## Properties of all entries -/

section

variable {α : Type} {p : α → Prop} {xs : Array α}

theorem Array.forall_mem_modify {k : Nat} {f : α → α} (hxs : ∀ x ∈ xs, p x)
    (hf : ∀ x, p x → p (f x)) : ∀ x ∈ xs.modify k f, p x := by
  intro x hx
  obtain ⟨j, hj, rfl⟩ := Array.mem_iff_getElem.mp hx
  rw [Array.getElem_modify]
  split
  · exact hf _ (hxs _ (Array.getElem_mem _))
  · exact hxs _ (Array.getElem_mem _)

theorem Array.forall_mem_set {k : Nat} {v : α} (hxs : ∀ x ∈ xs, p x) (hv : p v) :
    ∀ x ∈ xs.setIfInBounds k v, p x := by
  intro x hx
  rcases Array.mem_or_eq_of_mem_setIfInBounds hx with hold | rfl
  · exact hxs x hold
  · exact hv

theorem Array.forall_mem_push {v : α} (hxs : ∀ x ∈ xs, p x) (hv : p v) : ∀ x ∈ xs.push v, p x := by
  intro x hx
  rcases Array.mem_push.mp hx with hold | rfl
  · exact hxs x hold
  · exact hv

theorem Option.getD_of_forall {o : Option α} {d : α} (ho : ∀ v, o = some v → p v) (hd : p d) :
    p (o.getD d) := by
  cases o with
  | none => exact hd
  | some v => exact ho v rfl

end

end ScriptEngine
