import ScriptEngine.Proofs.Machine.Contents

/-!
# Effects of admitted instructions

What an effect looks like can be read off its instruction: whether it gives a value, where the call
goes on, which slot it writes.  An instruction that finds all it refers to never fails for an
internal reason: what it reports then is due to the values that the program computes with.
-/

namespace ScriptEngine

/-! ## Internal faults -/

/-- Whether the crash is a check that fails.  Writing the text of a value that is shown inside
itself is not: it only never comes to an end. -/
def Crash.isPanic : Crash → Bool
  | endlessText => false
  | slotOutOfRange | noOpenCall | tooFewLocals | overwriteOutOfRange | capacityOverflow => true

/-- Whether the report blames the code that is run, and not the values that it computes with. -/
def RuntimeError.isInternal : RuntimeError → Bool
  | stackUnderflow | decode _ | notAFunction _ => true
  | invalidOperand op _ => op != .getField && op != .setField
  | _ => false

/-- Whether a machine stops for an internal reason. -/
def Stop.isInternal : Stop RuntimeError → Bool
  | error cause => cause.isInternal
  | crash cause => cause.isPanic

/-- If there is no effect, then not for an internal reason. -/
def Faultless (r : Except (Stop RuntimeError) Effect) : Prop :=
  ∀ stop, r = .error stop → stop.isInternal = false

namespace Faultless

theorem ok (e : Effect) : Faultless (.ok e) := by
  intro stop h
  cases h

theorem error {stop : Stop RuntimeError} (h : stop.isInternal = false) :
    Faultless (.error stop) := by
  rintro _ ⟨⟩
  exact h

theorem giveResult {w : View} {r : Except RuntimeError Value}
    (h : ∀ e, r = .error e → e.isInternal = false) : Faultless (w.giveResult r) := by
  cases r with
  | ok v => exact ok _
  | error e => exact error (h e rfl)

theorem giveFound {w : View} {i : Instruction} {r : Option Value} {v : Value} (h : r = some v) :
    Faultless (w.giveFound i r) := by
  subst h
  exact ok _

end Faultless

theorem Operation.isInternal_apply {op : Operation} {l r : Value} {e : RuntimeError}
    (h : op.apply l r = .error e) : e.isInternal = false := by
  unfold apply at h
  split at h
  · unfold onInts at h
    split at h <;> first | (cases h; rfl) | cases h | (split at h <;> cases h; rfl)
  · unfold onFloats at h
    split at h <;> cases h
    rfl
  all_goals cases h
  rfl

theorem Value.isInternal_opposite {v : Value} {e : RuntimeError} (h : v.opposite = .error e) :
    e.isInternal = false := by
  cases v <;> cases h <;> rfl

theorem Globals.isInternal_get {g : Globals} {k : Nat} {e : RuntimeError} (h : g.get k = .error e) :
    e.isInternal = false := by
  unfold get at h
  split at h <;> cases h
  rfl

theorem Heap.isInternal_index {h : Heap} {container position : Value} {e : RuntimeError}
    (he : h.index container position = .error e) : e.isInternal = false := by
  unfold index at he
  split at he
  · cases he
  · split at he <;> cases he
    rfl
  · cases he
    rfl

theorem Heap.isInternal_place {h : Heap} {container position : Value} {e : RuntimeError}
    (he : h.place container position = .error e) : e.isInternal = false := by
  unfold place at he
  split at he
  · simp only at he
    split at he
    · split at he
      · cases he
      · split at he <;> cases he
        rfl
    · cases he
      rfl
  · split at he <;> cases he
    rfl
  · cases he
    rfl

theorem Exec.isInternal_storePairs {d : Dict Value} {vs : List Value} {e : RuntimeError}
    (h : storePairs d vs = .error e) : e.isInternal = false := by
  fun_induction storePairs d vs with
  | case1 d k v rest key hkey ih => exact ih h
  | case2 =>
      cases h
      rfl
  | case3 => cases h

namespace Builtin

theorem isInternal_lines {h : Heap} {out : String} {vs : List Value} {stop : Stop RuntimeError}
    (hlines : lines h out vs = .error stop) : stop.isInternal = false := by
  induction vs generalizing out with
  | nil => cases hlines
  | cons v vs ih =>
      unfold lines at hlines
      split at hlines
      · exact ih hlines
      · cases hlines
        rfl

theorem isInternal_onArray {b : Builtin} {h : Heap} {v : Value} {f : Array Value → Reply}
    {stop : Stop RuntimeError} (hr : b.onArray h v f = .error stop) : stop.isInternal = false := by
  cases v <;> cases hr <;> rfl

theorem isInternal_reply {b : Builtin} {h : Heap} {vs : List Value} {stop : Stop RuntimeError}
    (hr : b.reply h vs = .error stop) : stop.isInternal = false := by
  unfold reply at hr
  split at hr
  · cases hlines : lines h "" vs with
    | error stop' =>
        rw [hlines] at hr
        cases hr
        exact isInternal_lines hlines
    | ok text => simp [hlines, Except.map] at hr
  · rename_i v
    cases v <;> cases hr <;> rfl
  · exact isInternal_onArray hr
  · exact isInternal_onArray hr
  · exact isInternal_onArray hr
  · exact isInternal_onArray hr
  · cases hr
    rfl
  · cases hr
    rfl

end Builtin

namespace Faultless

variable {w : View}

theorem call {callee : Value} {vs : List Value} : Faultless (w.call callee vs) := by
  cases callee with
  | builtin b =>
      cases hr : b.reply w.heap vs with
      | ok reply =>
          simp only [View.call, hr]
          exact .ok _
      | error stop =>
          simp only [View.call, hr]
          exact .error (Builtin.isInternal_reply hr)
  | _ => exact .error rfl

theorem getField {i : Instruction} {object : Value} (hop : i.opcode = .getField) :
    Faultless (w.getField i object) := by
  cases object with
  | struct a =>
      simp only [View.getField]
      cases (w.heap.struct a).fields[i.operand 0]? with
      | some v => exact .ok _
      | none => exact .error (by simp [Stop.isInternal, RuntimeError.isInternal, hop])
  | _ => exact .error rfl

theorem setField {i : Instruction} {object v : Value} : Faultless (w.setField i object v) := by
  cases object with
  | struct a =>
      simp only [View.setField]
      split
      · exact .ok _
      · exact .error rfl
  | _ => exact .error rfl

end Faultless

/-! ## What an admitted instruction finds -/

/-- The view has what the code may refer to. -/
structure View.Fits (r : Room) (w : View) : Prop where
  constants : w.constants = r.pool
  captured : r.captures ≤ w.captured.size
  slot : ∀ k, k < r.slots → ∃ v, w.slot k = some v

namespace Instruction

/-- An admitted instruction finds all it refers to. -/
theorem faultless_effect {safe : Function → Nat → Prop} {r : Room} {i : Instruction} {w : View}
    {args : List Value} (hw : w.Fits r) (hadmits : i.opcode.isJump = false → r.Admits safe i)
    (hlength : args.length = i.taken) : Faultless (i.effect w args) := by
  have hone (h : i.taken = 1) : ∃ v, args = [v] :=
    List.length_eq_one_iff.mp (hlength.trans h)
  have htwo (h : i.taken = 2) : ∃ v w, args = [v, w] :=
    List.length_eq_two.mp (hlength.trans h)
  obtain ⟨op, ns⟩ := i
  cases op with
  | constant =>
      obtain ⟨v, hv, -⟩ := hadmits rfl
      rw [← hw.constants] at hv
      exact Faultless.giveFound hv
  | pushTrue | pushFalse | pushNull | currentClosure | array | jump => exact .ok _
  | getGlobal | getConstGlobal => exact .giveResult fun e he => Globals.isInternal_get he
  | getLocal | getConstLocal =>
      obtain ⟨v, hv⟩ := hw.slot _ (hadmits rfl)
      simp only [effect, hv]
      exact .ok _
  | getFree =>
      have hk := Nat.lt_of_lt_of_le (hadmits rfl) hw.captured
      exact Faultless.giveFound (Array.getElem?_eq_getElem hk)
  | getBuiltin =>
      have hb : Builtin.ofIndex? _ = some _ := List.getElem?_eq_getElem (hadmits rfl)
      simp only [effect, hb]
      exact .ok _
  | add | sub | mul | div | greater | greaterOrEqual | and | or =>
      obtain ⟨l, r, rfl⟩ := htwo rfl
      exact .giveResult fun e he => Operation.isInternal_apply he
  | equal | notEqual =>
      obtain ⟨l, r, rfl⟩ := htwo rfl
      exact .ok _
  | index =>
      obtain ⟨container, position, rfl⟩ := htwo rfl
      exact .giveResult fun e he => Heap.isInternal_index he
  | setField =>
      obtain ⟨object, v, rfl⟩ := htwo rfl
      exact Faultless.setField
  | setIndex =>
      obtain ⟨container, position, v, rfl⟩ := List.length_eq_three.mp hlength
      simp only [effect, Heap.setIndex]
      cases hplace : w.heap.place container position with
      | ok place => exact .ok _
      | error e => exact .error (Heap.isInternal_place hplace)
  | negate =>
      obtain ⟨v, rfl⟩ := hone rfl
      exact .giveResult fun e he => Value.isInternal_opposite he
  | not | jumpNotTruthy | setLocal | setConstLocal | pop | returnValue =>
      obtain ⟨v, rfl⟩ := hone rfl
      exact .ok _
  | setGlobal | setConstGlobal =>
      obtain ⟨v, rfl⟩ := hone rfl
      simp only [effect, Globals.set]
      split
      · exact .ok _
      · rename_i hset
        split at hset <;> cases hset
        exact .error rfl
  | getField =>
      obtain ⟨object, rfl⟩ := hone rfl
      exact Faultless.getField rfl
  | returnNull =>
      obtain rfl := List.length_eq_zero_iff.mp hlength
      exact .ok _
  | hash =>
      simp only [effect]
      cases hpairs : Exec.storePairs .empty args with
      | ok d => exact .ok _
      | error e => exact .error (Exec.isInternal_storePairs hpairs)
  | closure =>
      obtain ⟨f, hf, -⟩ := hadmits rfl
      rw [← hw.constants] at hf
      simp only [effect, View.closure, hf]
      exact .ok _
  | struct =>
      obtain ⟨t, ht⟩ := hadmits rfl
      rw [← hw.constants] at ht
      simp only [effect, View.struct, ht]
      exact .ok _
  | call =>
      cases args with
      | nil => cases hlength
      | cons callee vs => exact Faultless.call

end Instruction

/-! ## What an effect looks like -/

/-- The effect gives a value, and does nothing else to the call. -/
structure Effect.Gives (e : Effect) : Prop where
  value : e.value.isSome = true
  written : e.written = none
  target : e.target = none

/-- The effect does to the call what can be expected of the instruction. -/
structure Effect.Suits (i : Instruction) (e : Effect) : Prop where
  given : (if e.value.isSome then 1 else 0) = i.given
  next : ∀ o, i.Next o (e.target.getD (o + i.width))
  written : ∀ k v, e.written = some (k, v) →
    (i.opcode = .setLocal ∨ i.opcode = .setConstLocal) ∧ k = i.operand 0

namespace Effect.Gives

variable {w : View} {e : Effect}

theorem giveCurrent (w : View) : w.giveCurrent.Gives := by
  unfold View.giveCurrent
  split <;> exact ⟨rfl, rfl, rfl⟩

theorem of_giveResult {r : Except RuntimeError Value} (h : w.giveResult r = .ok e) : e.Gives := by
  cases r with
  | ok v =>
      cases h
      exact ⟨rfl, rfl, rfl⟩
  | error e => cases h

theorem of_giveFound {i : Instruction} {r : Option Value} (h : w.giveFound i r = .ok e) :
    e.Gives := by
  cases r with
  | some v =>
      cases h
      exact ⟨rfl, rfl, rfl⟩
  | none => cases h

theorem of_call {callee : Value} {vs : List Value} (h : w.call callee vs = .ok e) : e.Gives := by
  cases callee with
  | builtin b =>
      simp only [View.call] at h
      cases hr : b.reply w.heap vs with
      | error stop => simp [hr, Except.map] at h
      | ok r =>
          rw [hr] at h
          cases h
          exact ⟨rfl, rfl, rfl⟩
  | _ => cases h

theorem of_closure {i : Instruction} {vs : List Value} (h : w.closure i vs = .ok e) : e.Gives := by
  unfold View.closure at h
  split at h <;> cases h
  exact ⟨rfl, rfl, rfl⟩

theorem of_struct {i : Instruction} {vs : List Value} (h : w.struct i vs = .ok e) : e.Gives := by
  unfold View.struct at h
  split at h <;> cases h
  exact ⟨rfl, rfl, rfl⟩

theorem of_getField {i : Instruction} {object : Value} (h : w.getField i object = .ok e) :
    e.Gives := by
  cases object with
  | struct a => exact of_giveFound h
  | _ => cases h

/-- Most instructions give a value and go on after themselves. -/
theorem suits {i : Instruction} (h : e.Gives) (hgiven : i.given = 1)
    (hnext : ∀ o, i.Next o (o + i.width)) : e.Suits i where
  given := by rw [h.value, hgiven, if_pos rfl]
  next o := by
    rw [h.target]
    exact hnext o
  written k v hk := by
    rw [h.written] at hk
    cases hk

end Effect.Gives

/-- An effect on the globals or the heap goes on after the instruction. -/
theorem Effect.Suits.of_nothing {i : Instruction} {e : Effect} (hvalue : e.value = none)
    (hwritten : e.written = none) (htarget : e.target = none) (hgiven : i.given = 0)
    (hnext : ∀ o, i.Next o (o + i.width)) : e.Suits i where
  given := by rw [hvalue, hgiven]; rfl
  next o := by
    rw [htarget]
    exact hnext o
  written k v hk := by
    rw [hwritten] at hk
    cases hk

namespace Instruction

/-- The effect of an instruction that stays in its call suits it. -/
theorem suits_effect {i : Instruction} {w : View} {args : List Value} {e : Effect}
    (hstays : i.StaysIn args) (hlength : args.length = i.taken) (he : i.effect w args = .ok e) :
    e.Suits i := by
  have hone (h : i.taken = 1) : ∃ v, args = [v] :=
    List.length_eq_one_iff.mp (hlength.trans h)
  have htwo (h : i.taken = 2) : ∃ v w, args = [v, w] :=
    List.length_eq_two.mp (hlength.trans h)
  obtain ⟨op, ns⟩ := i
  cases op with
  | returnValue | returnNull => exact hstays.elim
  | constant | getFree | getBuiltin =>
      exact (Effect.Gives.of_giveFound he).suits rfl fun _ => rfl
  | currentClosure =>
      cases he
      exact (Effect.Gives.giveCurrent w).suits rfl fun _ => rfl
  | pushTrue | pushFalse | pushNull | array =>
      cases he
      exact Effect.Gives.suits ⟨rfl, rfl, rfl⟩ rfl fun _ => rfl
  | getGlobal | getConstGlobal => exact (Effect.Gives.of_giveResult he).suits rfl fun _ => rfl
  | getLocal | getConstLocal =>
      simp only [effect] at he
      split at he <;> cases he
      exact Effect.Gives.suits ⟨rfl, rfl, rfl⟩ rfl fun _ => rfl
  | add | sub | mul | div | greater | greaterOrEqual | and | or | index =>
      obtain ⟨l, r, rfl⟩ := htwo rfl
      exact (Effect.Gives.of_giveResult he).suits rfl fun _ => rfl
  | equal | notEqual =>
      obtain ⟨l, r, rfl⟩ := htwo rfl
      cases he
      exact Effect.Gives.suits ⟨rfl, rfl, rfl⟩ rfl fun _ => rfl
  | negate =>
      obtain ⟨v, rfl⟩ := hone rfl
      exact (Effect.Gives.of_giveResult he).suits rfl fun _ => rfl
  | not =>
      obtain ⟨v, rfl⟩ := hone rfl
      cases he
      exact Effect.Gives.suits ⟨rfl, rfl, rfl⟩ rfl fun _ => rfl
  | getField =>
      obtain ⟨object, rfl⟩ := hone rfl
      exact (Effect.Gives.of_getField he).suits rfl fun _ => rfl
  | hash =>
      simp only [effect] at he
      split at he <;> cases he
      exact Effect.Gives.suits ⟨rfl, rfl, rfl⟩ rfl fun _ => rfl
  | closure => exact (Effect.Gives.of_closure he).suits rfl fun _ => rfl
  | struct => exact (Effect.Gives.of_struct he).suits rfl fun _ => rfl
  | call =>
      cases args with
      | nil => cases hlength
      | cons callee vs => exact (Effect.Gives.of_call he).suits rfl fun _ => rfl
  | jump =>
      cases he
      exact ⟨rfl, fun _ => rfl, by simp [View.nothing]⟩
  | jumpNotTruthy =>
      obtain ⟨v, rfl⟩ := hone rfl
      cases he
      refine ⟨rfl, fun o => ?_, by simp [View.nothing]⟩
      cases v.isTruthy with
      | true => exact Or.inr rfl
      | false => exact Or.inl rfl
  | setGlobal | setConstGlobal =>
      obtain ⟨v, rfl⟩ := hone rfl
      simp only [effect] at he
      split at he <;> cases he
      exact .of_nothing rfl rfl rfl rfl fun _ => rfl
  | setLocal =>
      obtain ⟨v, rfl⟩ := hone rfl
      cases he
      refine ⟨rfl, fun _ => rfl, ?_⟩
      rintro k v ⟨⟩
      exact ⟨.inl rfl, rfl⟩
  | setConstLocal =>
      obtain ⟨v, rfl⟩ := hone rfl
      cases he
      refine ⟨rfl, fun _ => rfl, ?_⟩
      rintro k v ⟨⟩
      exact ⟨.inr rfl, rfl⟩
  | setIndex =>
      obtain ⟨container, position, v, rfl⟩ := List.length_eq_three.mp hlength
      simp only [effect] at he
      split at he <;> cases he
      exact .of_nothing rfl rfl rfl rfl fun _ => rfl
  | setField =>
      obtain ⟨object, v, rfl⟩ := htwo rfl
      simp only [effect] at he
      unfold View.setField at he
      split at he
      · split at he <;> cases he
        exact .of_nothing rfl rfl rfl rfl fun _ => rfl
      · cases he
  | pop =>
      obtain ⟨v, rfl⟩ := hone rfl
      cases he
      exact .of_nothing rfl rfl rfl rfl fun _ => rfl

end Instruction

end ScriptEngine
