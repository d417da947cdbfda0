import Mathlib.Tactic.ByContra
import ScriptEngine.Proofs.Assembly

/-!
# Code that is safe to run

What an instruction refers to has to be there when it is run: its constant, its local slot, its
captured value.  A function is safe with a number of captured values if heights can be given to its
code such that this is so wherever a run can come, the functions of which it builds closures
included.  Adding constants to the pool keeps functions safe.
-/

namespace ScriptEngine

/-! ## What code may refer to -/

/-- The first pool is the beginning of the second. -/
def Continues (pool pool' : Array Value) : Prop :=
  ∀ (k : Nat) (v : Value), pool[k]? = some v → pool'[k]? = some v

namespace Continues

theorem refl (pool : Array Value) : Continues pool pool :=
  fun _ _ h => h

theorem trans {p q r : Array Value} (hpq : Continues p q) (hqr : Continues q r) : Continues p r :=
  fun k v h => hqr k v (hpq k v h)

theorem push (pool : Array Value) (v : Value) : Continues pool (pool.push v) := by
  intro k w h
  have hk : k < pool.size := by
    by_contra hk
    simp [Array.getElem?_eq_none (Nat.le_of_not_lt hk)] at h
  rw [Array.getElem?_push, if_neg (by omega), h]

theorem size_le {p q : Array Value} (h : Continues p q) : p.size ≤ q.size := by
  by_contra hlt
  have hlast := h q.size _ (Array.getElem?_eq_getElem (Nat.lt_of_not_le hlt))
  rw [Array.getElem?_eq_none (Nat.le_refl _)] at hlast
  cases hlast

end Continues

/-- Whether the value refers to no object and is no part of a program. -/
def Value.isPlain : Value → Bool
  | array _ | hash _ | struct _ | closure _ | function _ | structType _ => false
  | _ => true

/-- What a code may refer to. -/
structure Room where
  pool : Array Value
  /-- The number of local slots. -/
  slots : Nat
  /-- The number of captured values. -/
  captures : Nat
  /-- Whether the code is that of a function and not of the top level. -/
  inFunction : Bool

namespace Room

/-- Whether what an instruction refers to is there.  Functions of which closures are built must
satisfy `safe` with the number of values that the closure captures. -/
def Admits (safe : Function → Nat → Prop) (r : Room) (i : Instruction) : Prop :=
  match i.opcode with
  | .constant => ∃ v, r.pool[i.operand 0]? = some v ∧ v.isPlain = true
  | .getLocal | .setLocal | .getConstLocal | .setConstLocal => i.operand 0 < r.slots
  | .getFree => i.operand 0 < r.captures
  | .getBuiltin => i.operand 0 < Builtin.all.length
  | .currentClosure | .returnValue | .returnNull => r.inFunction = true
  | .closure => ∃ f, r.pool[i.operand 0]? = some (.function f) ∧ safe f.content (i.operand 1)
  | .struct => ∃ t, r.pool[i.operand 0]? = some (.structType t)
  | _ => True

/-- The second room has at least what the first one has. -/
structure Le (r r' : Room) : Prop where
  pool : Continues r.pool r'.pool
  slots : r.slots ≤ r'.slots
  captures : r.captures ≤ r'.captures
  inFunction : r.inFunction = r'.inFunction

theorem Admits.mono {safe safe' : Function → Nat → Prop} {r r' : Room} {i : Instruction}
    (h : r.Admits safe i) (hr : r.Le r') (hsafe : ∀ f n, safe f n → safe' f n) :
    r'.Admits safe' i := by
  unfold Admits at h ⊢
  split at h
  · obtain ⟨v, hv, hplain⟩ := h
    exact ⟨v, hr.pool _ _ hv, hplain⟩
  · exact Nat.lt_of_lt_of_le h hr.slots
  · exact Nat.lt_of_lt_of_le h hr.slots
  · exact Nat.lt_of_lt_of_le h hr.slots
  · exact Nat.lt_of_lt_of_le h hr.slots
  · exact Nat.lt_of_lt_of_le h hr.captures
  · exact h
  · exact hr.inFunction ▸ h
  · exact hr.inFunction ▸ h
  · exact hr.inFunction ▸ h
  · obtain ⟨f, hf, hfn⟩ := h
    exact ⟨f, hr.pool _ _ hf, hsafe _ _ hfn⟩
  · obtain ⟨t, ht⟩ := h
    exact ⟨t, hr.pool _ _ ht⟩
  · trivial

end Room

/-! ## Safe functions -/

namespace Function

/-- What the code of a function may refer to when it is run with captured values. -/
def room (f : Function) (pool : Array Value) (captures : Nat) : Room :=
  { pool, slots := f.locals, captures, inFunction := true }

/-- With this number of captured values, a run of the function finds all it needs and never comes to
the end of the code. -/
inductive Safe (pool : Array Value) : Function → Nat → Prop
  | intro {f : Function} {n : Nat} (inner : Function → Nat → Prop) (within : Nat → Nat → Prop)
      (parameters : f.parameters ≤ f.locals) (start : within 0 0)
      (step : ∀ o h, within o h →
        Assembly.StepsTo ((f.room pool n).Admits inner) f.code within o h)
      (innerSafe : ∀ g m, inner g m → Safe pool g m) : Safe pool f n

namespace Safe

variable {pool pool' : Array Value} {f : Function} {n : Nat}

theorem parameters_le (h : f.Safe pool n) : f.parameters ≤ f.locals := by
  cases h with
  | intro _ _ parameters _ _ _ => exact parameters

/-- The heights of a safe function. -/
theorem exists_heights (h : f.Safe pool n) :
    ∃ within : Nat → Nat → Prop, within 0 0 ∧ ∀ o m, within o m →
      Assembly.StepsTo ((f.room pool n).Admits (Safe pool)) f.code within o m := by
  cases h with
  | intro inner within _ start step innerSafe =>
      refine ⟨within, start, fun o m hm => ?_⟩
      obtain ⟨i, hdecode, hadmits, henough, hnext⟩ := step o m hm
      refine ⟨i, hdecode, fun hjump => ?_, henough, hnext⟩
      exact (hadmits hjump).mono ⟨.refl _, Nat.le_refl _, Nat.le_refl _, rfl⟩ innerSafe

/-- A function stays safe when constants are added to the pool. -/
theorem mono (h : f.Safe pool n) (hpool : Continues pool pool') : f.Safe pool' n := by
  induction h with
  | intro inner within parameters start step _ ih =>
      refine intro inner within parameters start (fun o m hm => ?_) ih
      obtain ⟨i, hdecode, hadmits, henough, hnext⟩ := step o m hm
      refine ⟨i, hdecode, fun hjump => ?_, henough, hnext⟩
      exact (hadmits hjump).mono ⟨hpool, Nat.le_refl _, Nat.le_refl _, rfl⟩ fun _ _ h => h

/-- Structured code that ends by returning makes a safe function. -/
theorem of_balanced {t : Assembly} {last : Instruction} {height : Nat}
    (hparameters : f.parameters ≤ f.locals)
    (hcode : f.code.Contains 0 ((t ++ Assembly.single last).instrs 0))
    (hbalanced : Assembly.Balanced ((f.room pool n).Admits (Safe pool)) 0
      (t ++ Assembly.single last) height)
    (hlast : last.opcode = .returnValue ∨ last.opcode = .returnNull) : f.Safe pool n := by
  obtain ⟨mid, ht, hadmits, henough, -⟩ := hbalanced.append_single_inv
  rw [Assembly.instrs_append] at hcode
  have hreturn := hcode.append_right
  simp only [Nat.zero_add, Assembly.totalWidth_instrs, Assembly.instrs_single] at hreturn
  obtain ⟨within, F⟩ := Assembly.flow_of_balanced ht hcode.append_left
  simp only [Nat.zero_add] at F
  let everywhere (o m : Nat) : Prop := within o m ∨ (o = t.size ∧ m = mid)
  have hsub : ∀ o m, within o m → everywhere o m := fun o m hin => Or.inl hin
  have hend : everywhere t.size mid := Or.inr ⟨rfl, rfl⟩
  refine intro (Safe pool) everywhere hparameters (F.enter_into hsub hend) ?_ (fun _ _ h => h)
  rintro o m (hin | ⟨rfl, rfl⟩)
  · exact F.step_into hsub hend hin
  · refine ⟨last, hreturn.decode, fun _ => hadmits, henough, ?_⟩
    intro target hnext
    rcases hlast with hlast | hlast <;> simp [Instruction.Next, hlast] at hnext

end Safe

end Function

/-! ## Safe top-level code -/

namespace Code

/-- What a top-level code may refer to. -/
def mainRoom (pool : Array Value) : Room :=
  { pool, slots := 0, captures := 0, inFunction := false }

/-- A run of the top-level code finds all it needs; it may come to the end with nothing on the
stack. -/
def SafeMain (pool : Array Value) (c : Code) (within : Nat → Nat → Prop) : Prop :=
  within 0 0 ∧ ∀ o h, within o h → (o = c.size ∧ h = 0) ∨
    Assembly.StepsTo ((mainRoom pool).Admits (Function.Safe pool)) c within o h

/-- Balanced structured code is safe at the top level. -/
theorem safeMain_of_balanced {pool : Array Value} {c : Code} {t : Assembly}
    (hcode : c.Contains 0 (t.instrs 0)) (hsize : c.size = t.size)
    (hbalanced : Assembly.Balanced ((mainRoom pool).Admits (Function.Safe pool)) 0 t 0) :
    ∃ within, SafeMain pool c within := by
  obtain ⟨within, F⟩ := Assembly.flow_of_balanced hbalanced hcode
  simp only [Nat.zero_add, ← hsize] at F
  let everywhere (o m : Nat) : Prop := within o m ∨ (o = c.size ∧ m = 0)
  have hsub : ∀ o m, within o m → everywhere o m := fun o m hin => Or.inl hin
  have hend : everywhere c.size 0 := Or.inr ⟨rfl, rfl⟩
  refine ⟨everywhere, F.enter_into hsub hend, ?_⟩
  rintro o m (hin | hexit)
  · exact Or.inr (F.step_into hsub hend hin)
  · exact Or.inl hexit

end Code

end ScriptEngine
