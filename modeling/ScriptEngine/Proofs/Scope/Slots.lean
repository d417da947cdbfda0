import ScriptEngine.Proofs.Compile.Declarations
import ScriptEngine.Proofs.Language.Slots

/-!
# The slots of scopes

A scope hands out slots to the names that it declares.  Resolving names adds captured names to
scopes and leaves their slots alone; and a name that may be assigned to always has the slot of a
variable, of the current function or of the top level.
-/

namespace ScriptEngine

/-- Where a scope keeps the values of the names that it declares. -/
def Storage.declared (isGlobal : Bool) : Storage :=
  if isGlobal then .global else .slot

theorem Storage.declared_not_ne (isGlobal : Bool) : declared isGlobal ≠ declared !isGlobal := by
  cases isGlobal <;> simp [declared]

namespace Scope

/-- The second scope has the slots of the first one; only captured names are added. -/
structure SameSlots (s s' : Scope) : Prop where
  kept : ∀ name x, s.get? name = some x → s'.get? name = some x
  declared : ∀ name x, s'.get? name = some x → x.storage.isDeclared = true →
    s.get? name = some x
  definitions : s'.definitions = s.definitions
  isGlobal : s'.isGlobal = s.isGlobal

namespace SameSlots

variable {s s₁ s₂ : Scope}

theorem refl (s : Scope) : s.SameSlots s :=
  ⟨fun _ _ h => h, fun _ _ h _ => h, rfl, rfl⟩

theorem trans (h₁ : s.SameSlots s₁) (h₂ : s₁.SameSlots s₂) : s.SameSlots s₂ where
  kept name x hx := h₂.kept name x (h₁.kept name x hx)
  declared name x hx hdeclared :=
    h₁.declared name x (h₂.declared name x hx hdeclared) hdeclared
  definitions := h₂.definitions.trans h₁.definitions
  isGlobal := h₂.isGlobal.trans h₁.isGlobal

theorem capture {x : Symbol} (hfree : s.get? x.name = none) :
    s.SameSlots (s.capture x).2 where
  kept name y hy := by
    have hname : x.name ≠ name := by
      rintro rfl
      rw [hfree] at hy
      cases hy
    rw [get?_capture, if_neg hname, hy]
  declared name y hy hdeclared := by
    rw [get?_capture] at hy
    split at hy
    · obtain rfl := Option.some.inj hy
      cases hdeclared
    · exact hy
  definitions := rfl
  isGlobal := rfl

theorem refl_all (ss : List Scope) : List.Forall₂ SameSlots ss ss :=
  List.forall₂_same.mpr fun s _ => refl s

theorem trans_all {ss ss₁ ss₂ : List Scope} (h₁ : List.Forall₂ SameSlots ss ss₁)
    (h₂ : List.Forall₂ SameSlots ss₁ ss₂) : List.Forall₂ SameSlots ss ss₂ := by
  induction h₁ generalizing ss₂ with
  | nil => exact h₂
  | cons hhead _ ih =>
      cases h₂ with
      | cons hhead₂ htail₂ => exact .cons (hhead.trans hhead₂) (ih htail₂)

end SameSlots

/-- The slots of the scope are those listed.  Every name that it declares has one of them, which is
that of a variable if the name may be assigned to. -/
structure Records (s : Scope) (slots : List Slot) : Prop where
  definitions : s.definitions = slots.length
  declared : ∀ name x, s.get? name = some x → x.storage.isDeclared = true →
    x.storage = .declared s.isGlobal ∧
      ∃ slot, slots[x.index]? = some slot ∧ slot.name = name ∧
        (slot.kind = .variable ↔ x.isMutable = true)

namespace Records

variable {s s' : Scope} {slots : List Slot}

theorem empty (isGlobal : Bool) : (Scope.empty isGlobal).Records [] :=
  ⟨rfl, fun name x hx => by simp at hx⟩

theorem sameSlots (h : s.Records slots) (hs : s.SameSlots s') : s'.Records slots where
  definitions := hs.definitions.trans h.definitions
  declared name x hx hdeclared := by
    rw [hs.isGlobal]
    exact h.declared name x (hs.declared name x hx hdeclared) hdeclared

theorem sameSlots_all {ss ss' : List Scope} {tables : List (List Slot)}
    (h : List.Forall₂ Records ss tables) (hs : List.Forall₂ SameSlots ss ss') :
    List.Forall₂ Records ss' tables := by
  induction hs generalizing tables with
  | nil => exact h
  | cons hhead _ ih =>
      cases h with
      | cons hrecords htail => exact .cons (hrecords.sameSlots hhead) (ih htail)

theorem defineSelf (h : s.Records slots) (name : String) (ty : Option Ty) :
    (s.defineSelf name ty).2.Records slots where
  definitions := h.definitions
  declared other x hx hdeclared := by
    rw [get?_defineSelf] at hx
    split at hx
    · obtain rfl := Option.some.inj hx
      cases hdeclared
    · exact h.declared other x hx hdeclared

/-- A declaration takes the next slot. -/
theorem define (h : s.Records slots) (slot : Slot) {isMutable : Bool}
    (hkind : slot.kind = .variable ↔ isMutable = true) (ty : Option Ty) :
    (s.define slot.name isMutable ty).2.Records (slots ++ [slot]) where
  definitions := by
    rw [List.length_append, ← h.definitions]
    rfl
  declared other x hx hdeclared := by
    rw [get?_define] at hx
    split at hx
    next hname =>
      obtain rfl := Option.some.inj hx
      refine ⟨rfl, slot, ?_, hname, hkind⟩
      have hindex : (s.define slot.name isMutable ty).1.index = slots.length := h.definitions
      rw [hindex, List.getElem?_concat_length]
    next =>
      obtain ⟨hstorage, old, hold, hrest⟩ := h.declared other x hx hdeclared
      exact ⟨hstorage, old, getElem?_of_isPrefix (List.prefix_append _ _) hold, hrest⟩

/-- A name that may be assigned to has the slot of a variable. -/
theorem isVariableAt (h : s.Records slots) {name : String} {x : Symbol}
    (hget : s.get? name = some x) (hx : x.isAssignable = true) :
    x.storage = .declared s.isGlobal ∧ ScriptEngine.isVariableAt slots x.index = true := by
  simp only [Symbol.isAssignable, Bool.and_eq_true] at hx
  obtain ⟨hstorage, slot, hslot, -, hkind⟩ := h.declared name x hget hx.1
  exact ⟨hstorage, isVariableAt_iff.mpr ⟨slot, hslot, hkind.mpr hx.2⟩⟩

end Records

end Scope

/-- Resolving a name leaves all slots as they are. -/
theorem ScopeChain.sameSlots_resolveFrom? {name : String} {s s' : Scope}
    {outer outer' : List Scope} {r : Resolution} (hnamed : ∀ s₁ ∈ s :: outer, s₁.Named)
    (h : resolveFrom? name s outer = some (r, s', outer')) :
    s.SameSlots s' ∧ List.Forall₂ Scope.SameSlots outer outer' := by
  induction outer generalizing s s' outer' r with
  | nil =>
      simp only [resolveFrom?, Option.map_eq_some_iff, Prod.mk.injEq] at h
      obtain ⟨x, -, -, rfl, rfl⟩ := h
      exact ⟨.refl s, .nil⟩
  | cons s₁ outer ih =>
      rw [resolveFrom?] at h
      split at h
      · simp only [Option.some.injEq, Prod.mk.injEq] at h
        obtain ⟨-, rfl, rfl⟩ := h
        exact ⟨.refl s, Scope.SameSlots.refl_all _⟩
      next hget =>
        split at h
        · cases h
        next found s₂ outer₂ hfound =>
          have houter := fun s₃ hs₃ => hnamed s₃ (List.mem_cons_of_mem _ hs₃)
          obtain ⟨hhead, htail⟩ := ih houter hfound
          split at h
          · simp only [Option.some.injEq, Prod.mk.injEq] at h
            obtain ⟨-, rfl, rfl⟩ := h
            exact ⟨.refl s, .cons hhead htail⟩
          · simp only [Option.some.injEq, Prod.mk.injEq] at h
            obtain ⟨-, rfl, rfl⟩ := h
            rw [← (declared_resolveFrom? houter hfound).1] at hget
            exact ⟨.capture hget, .cons hhead htail⟩

/-- What may be assigned to is a variable of the current function or a global one. -/
theorem ScopeChain.isVariableAt_of_resolveFrom? {name : String} {s s' : Scope}
    {outer outer' : List Scope} {r : Resolution} {slots : List Slot} {tables : List (List Slot)}
    (h : resolveFrom? name s outer = some (r, s', outer')) (hs : s.SoundIn outer)
    (hrecords : List.Forall₂ Scope.Records (s :: outer) (slots :: tables))
    (hx : r.symbol.isAssignable = true) :
    (r.symbol.storage = .slot ∧ s.isGlobal = false ∧ isVariableAt slots r.symbol.index = true) ∨
      (r.symbol.storage = .global ∧
        isVariableAt (tables.getLastD slots) r.symbol.index = true) := by
  induction outer generalizing s s' outer' r slots tables with
  | nil =>
      simp only [resolveFrom?, Option.map_eq_some_iff, Prod.mk.injEq] at h
      obtain ⟨x, hget, rfl, rfl, rfl⟩ := h
      have hglobal : s.isGlobal = true := hs.1
      cases hrecords with
      | cons hhead htail =>
          cases htail with
          | nil =>
              obtain ⟨hstorage, hvariable⟩ := hhead.isVariableAt hget hx
              rw [hglobal] at hstorage
              exact .inr ⟨hstorage, hvariable⟩
  | cons s₁ outer ih =>
      have hlocal : s.isGlobal = false := hs.1
      obtain ⟨hhead, htail⟩ := List.forall₂_cons.mp hrecords
      rw [resolveFrom?] at h
      split at h
      next x hget =>
        simp only [Option.some.injEq, Prod.mk.injEq] at h
        obtain ⟨rfl, rfl, rfl⟩ := h
        obtain ⟨hstorage, hvariable⟩ := hhead.isVariableAt hget hx
        rw [hlocal] at hstorage
        exact .inl ⟨hstorage, hlocal, hvariable⟩
      next =>
        split at h
        · cases h
        next found s₂ outer₂ hfound =>
          split at h
          next hshared =>
            simp only [Option.some.injEq, Prod.mk.injEq] at h
            obtain ⟨rfl, rfl, rfl⟩ := h
            cases tables with
            | nil => cases htail
            | cons slots₁ tables =>
                rcases ih hfound hs.2.2.2 htail hx with ⟨hslot, -⟩ | hglobal
                · simp [hslot, Storage.isShared] at hshared
                · rw [List.getLastD_cons]
                  exact .inr hglobal
          next =>
            simp only [Option.some.injEq, Prod.mk.injEq] at h
            obtain ⟨rfl, -, -⟩ := h
            cases hx

theorem ScopeChain.eq_of_pop? {c c' : ScopeChain} {s : Scope} (h : c.pop? = some (s, c')) :
    c.current = s ∧ c.enclosing = c'.current :: c'.enclosing := by
  unfold ScopeChain.pop? at h
  split at h
  · cases h
  next hscopes =>
    obtain ⟨rfl, rfl⟩ := Prod.mk.inj (Option.some.inj h)
    exact ⟨rfl, hscopes⟩

end ScriptEngine
