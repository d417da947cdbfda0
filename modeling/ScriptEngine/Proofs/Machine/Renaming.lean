import ScriptEngine.Proofs.Compile.Relocation
import ScriptEngine.Proofs.Machine.Admitted
import ScriptEngine.Proofs.Value.Renaming

/-!
# Effects under other addresses

What an instruction does on values whose closures have other addresses, it does in the same way up
to these addresses: it fails alike, or its effects correspond (`Instruction.effect_renamed`).  Jumps
may lead to places that are a number of bytes further on.
-/

namespace ScriptEngine

variable {σ : Nat → Nat}

/-- Two computations fail alike, or give results that are related. -/
inductive ResultsAgree {ε α β : Type} (related : α → β → Prop) : Except ε α → Except ε β → Prop
  | ok {a : α} {b : β} (agree : related a b) : ResultsAgree related (.ok a) (.ok b)
  | error (e : ε) : ResultsAgree related (.error e) (.error e)

/-! ## Built-in functions -/

def Reply.rename (σ : Nat → Nat) : Reply → Reply
  | value v => value (v.rename σ)
  | array xs => array (xs.map (Value.rename σ))
  | r => r

namespace Builtin

variable {h h' : Heap}

theorem length_renamed (hh : h.Renamed σ h') (v : Value) :
    length h' (v.rename σ) = (length h v).map (Reply.rename σ) := by
  cases v with
  | array a =>
      change length h' (.array a) = _
      simp only [length, hh.array a, Array.size_map]
      rfl
  | hash a =>
      change length h' (.hash a) = _
      simp only [length, hh.hash a, Dict.size, Dict.map, Array.size_map]
      rfl
  | _ => rfl

theorem lines_renamed (hh : h.Renamed σ h') (vs : List Value) (out : String) :
    lines h' out (vs.map (Value.rename σ)) = lines h out vs := by
  induction vs generalizing out with
  | nil => rfl
  | cons v vs ih =>
      simp only [List.map_cons, lines, hh.text?]
      cases h.text? v with
      | some text => exact ih _
      | none => rfl

theorem onArray_renamed (hh : h.Renamed σ h') {b : Builtin} {f f' : Array Value → Reply}
    (hf : ∀ xs, f' (xs.map (Value.rename σ)) = (f xs).rename σ) (v : Value) :
    b.onArray h' (v.rename σ) f' = (b.onArray h v f).map (Reply.rename σ) := by
  cases v with
  | array a =>
      change b.onArray h' (.array a) f' = _
      simp only [onArray, hh.array a, hf]
      rfl
  | _ => rfl

theorem optional_rename (o : Option Value) :
    optional (o.map (Value.rename σ)) = (optional o).rename σ := by
  cases o <;> rfl

/-- A built-in function refuses corresponding arguments alike, or its replies correspond. -/
theorem reply_renamed (hh : h.Renamed σ h') (b : Builtin) (vs : List Value) :
    b.reply h' (vs.map (Value.rename σ)) = (b.reply h vs).map (Reply.rename σ) := by
  cases b with
  | puts =>
      simp only [reply, lines_renamed hh]
      cases lines h "" vs <;> rfl
  | len =>
      rcases vs with _ | ⟨v, _ | ⟨w, vs⟩⟩
      · rfl
      · exact length_renamed hh v
      · simp [reply, refuse, Except.map]
  | first =>
      rcases vs with _ | ⟨v, _ | ⟨w, vs⟩⟩
      · rfl
      · simp only [reply, List.map_cons, List.map_nil]
        refine onArray_renamed hh (fun xs => ?_) v
        rw [Array.getElem?_map, optional_rename]
      · simp [reply, refuse, Except.map]
  | last =>
      rcases vs with _ | ⟨v, _ | ⟨w, vs⟩⟩
      · rfl
      · simp only [reply, List.map_cons, List.map_nil]
        refine onArray_renamed hh (fun xs => ?_) v
        rw [Array.back?_map, optional_rename]
      · simp [reply, refuse, Except.map]
  | rest =>
      rcases vs with _ | ⟨v, _ | ⟨w, vs⟩⟩
      · rfl
      · simp only [reply, List.map_cons, List.map_nil]
        refine onArray_renamed hh (fun xs => ?_) v
        have hempty : (xs.map (Value.rename σ)).isEmpty = xs.isEmpty := by simp [Array.isEmpty]
        rw [hempty, Array.size_map]
        split
        · rfl
        · rw [Reply.rename, Array.map_extract]
      · simp [reply, refuse, Except.map]
  | push =>
      rcases vs with _ | ⟨v, _ | ⟨w, _ | ⟨u, vs⟩⟩⟩
      · rfl
      · rfl
      · simp only [reply, List.map_cons, List.map_nil]
        refine onArray_renamed hh (fun xs => ?_) v
        rw [Reply.rename, Array.map_push]
      · simp [reply, refuse, Except.map]

end Builtin

/-! ## Effects -/

/-- The second effect is the first one with other addresses for closures, and its jump leads `shift`
bytes less far. -/
structure Effect.Renamed (σ : Nat → Nat) (shift : Nat) (e e' : Effect) : Prop where
  value : e'.value = e.value.map (Value.rename σ)
  written : e'.written = e.written.map fun w => (w.1, w.2.rename σ)
  target : e.target = e'.target.map (· + shift)
  globals : e'.globals = e.globals.rename σ
  heap : e.heap.Renamed σ e'.heap
  printed : e'.printed = e.printed

/-- The second view is the first one with other addresses for closures.  It may have fewer
constants. -/
structure View.Renamed (σ : Nat → Nat) (w w' : View) : Prop where
  constants : Continues w'.constants w.constants
  captured : w'.captured = w.captured.map (Value.rename σ)
  globals : w'.globals = w.globals.rename σ
  heap : w.heap.Renamed σ w'.heap

namespace View.Renamed

variable {shift : Nat} {w w' : View}

theorem nothing (hw : w.Renamed σ w') : w.nothing.Renamed σ shift w'.nothing :=
  ⟨rfl, rfl, rfl, hw.globals, hw.heap, rfl⟩

/-- The effects of both correspond, or both fail alike. -/
def Agree (σ : Nat → Nat) (shift : Nat) :
    Except (Stop RuntimeError) Effect → Except (Stop RuntimeError) Effect → Prop :=
  ResultsAgree (Effect.Renamed σ shift)

theorem give (hw : w.Renamed σ w') {v v' : Value} (hv : v' = v.rename σ) :
    Agree σ shift (.ok (w.give v)) (.ok (w'.give v')) :=
  .ok { hw.nothing with value := congrArg some hv }

theorem giveNew (hw : w.Renamed σ w') {object object' : Value × Heap}
    (hobject : object'.1 = object.1.rename σ ∧ object.2.Renamed σ object'.2) :
    Agree σ shift (.ok (w.giveNew object)) (.ok (w'.giveNew object')) :=
  .ok { hw.nothing with value := congrArg some hobject.1, heap := hobject.2 }

theorem giveResult (hw : w.Renamed σ w') (r : Except RuntimeError Value) :
    Agree σ shift (w.giveResult r) (w'.giveResult (r.map (Value.rename σ))) := by
  cases r with
  | ok v => exact hw.give rfl
  | error e => exact .error _

/-- A result that is no closure is the same in both. -/
theorem giveResult_same (hw : w.Renamed σ w') {r : Except RuntimeError Value}
    (hr : ∀ v, r = .ok v → ∀ a, v ≠ .closure a) :
    Agree σ shift (w.giveResult r) (w'.giveResult r) := by
  cases r with
  | ok v => exact hw.give (Value.rename_eq_self (hr v rfl)).symm
  | error e => exact .error _

theorem giveFound (hw : w.Renamed σ w') (i : Instruction) (r : Option Value) :
    Agree σ shift (w.giveFound i r) (w'.giveFound i (r.map (Value.rename σ))) := by
  cases r with
  | some v => exact hw.give rfl
  | none => exact .error _

/-- A constant that can be built into code is found in both. -/
theorem giveConstant (hw : w.Renamed σ w') {i : Instruction} {v : Value}
    (hv : w'.constants[i.operand 0]? = some v) (hplain : v.isPlain = true) :
    Agree σ shift (w.giveFound i w.constants[i.operand 0]?)
      (w'.giveFound i w'.constants[i.operand 0]?) := by
  rw [hv, hw.constants _ _ hv]
  refine hw.give (Value.rename_eq_self ?_).symm
  rintro a rfl
  cases hplain

theorem setHeap (hw : w.Renamed σ w') {h h' : Heap} (hh : h.Renamed σ h') :
    Agree σ shift (.ok { w.nothing with heap := h }) (.ok { w'.nothing with heap := h' }) :=
  .ok { hw.nothing with heap := hh }

theorem goTo (hw : w.Renamed σ w') (target : Option Nat) :
    Agree σ shift (.ok { w.nothing with target := target.map (· + shift) })
      (.ok { w'.nothing with target }) :=
  .ok ⟨rfl, rfl, rfl, hw.globals, hw.heap, rfl⟩

theorem answer (hw : w.Renamed σ w') (r : Reply) :
    (w.answer r).Renamed σ shift (w'.answer (r.rename σ)) := by
  cases r with
  | nothing => exact { hw.nothing with value := rfl }
  | value v => exact { hw.nothing with value := rfl }
  | print text => exact { hw.nothing with value := rfl, printed := rfl }
  | array xs =>
      obtain ⟨hvalue, hheap⟩ := hw.heap.newArray xs
      exact { hw.nothing with value := congrArg some hvalue, heap := hheap }

theorem call (hw : w.Renamed σ w') (callee : Value) (vs : List Value) :
    Agree σ shift (w.call callee vs) (w'.call (callee.rename σ) (vs.map (Value.rename σ))) := by
  cases callee with
  | builtin b =>
      have hreply := b.reply_renamed hw.heap vs
      change Agree σ shift ((b.reply w.heap vs).map w.answer)
        ((b.reply w'.heap (vs.map (Value.rename σ))).map w'.answer)
      rw [hreply]
      cases b.reply w.heap vs with
      | error stop => exact .error _
      | ok r => exact .ok (hw.answer r)
  | _ => exact .error _

theorem closure (hw : w.Renamed σ w') {i : Instruction} {f : Marked Function}
    (hf : w'.constants[i.operand 0]? = some (.function f)) (vs : List Value) :
    Agree σ shift (w.closure i vs) (w'.closure i (vs.map (Value.rename σ))) := by
  simp only [View.closure, hf, hw.constants _ _ hf]
  refine hw.giveNew ?_
  rw [← List.map_toArray]
  exact hw.heap.newClosure f.content vs.toArray

theorem struct (hw : w.Renamed σ w') {i : Instruction} {t : Marked StructType}
    (ht : w'.constants[i.operand 0]? = some (.structType t)) (vs : List Value) :
    Agree σ shift (w.struct i vs) (w'.struct i (vs.map (Value.rename σ))) := by
  simp only [View.struct, ht, hw.constants _ _ ht]
  refine hw.giveNew ?_
  rw [← List.map_toArray]
  exact hw.heap.newStruct t.content vs.toArray

theorem getField (hw : w.Renamed σ w') (i : Instruction) (object : Value) :
    Agree σ shift (w.getField i object) (w'.getField i (object.rename σ)) := by
  cases object with
  | struct a =>
      change Agree σ shift (w.giveFound i (w.heap.struct a).fields[i.operand 0]?)
        (w'.giveFound i (w'.heap.struct a).fields[i.operand 0]?)
      rw [hw.heap.struct a, Instance.rename, Array.getElem?_map]
      exact hw.giveFound i _
  | _ => exact .error _

theorem setField (hw : w.Renamed σ w') (i : Instruction) (object v : Value) :
    Agree σ shift (w.setField i object v)
      (w'.setField i (object.rename σ) (v.rename σ)) := by
  cases object with
  | struct a =>
      have hsize : (w'.heap.struct a).fields.size = (w.heap.struct a).fields.size := by
        rw [hw.heap.struct a, Instance.rename, Array.size_map]
      change Agree σ shift (w.setField i (.struct a) v)
        (w'.setField i (.struct a) (v.rename σ))
      simp only [View.setField, hsize]
      split
      · exact hw.setHeap (hw.heap.setField a _ v)
      · exact .error _
  | _ => exact .error _

theorem setGlobal (hw : w.Renamed σ w') (k : Nat) (v : Value) :
    Agree σ shift
      (match w.globals.set k v with
        | .ok globals => .ok { w.nothing with globals }
        | .error e => .error (.error e))
      (match w'.globals.set k (v.rename σ) with
        | .ok globals => .ok { w'.nothing with globals }
        | .error e => .error (.error e)) := by
  rw [hw.globals, Globals.set_rename]
  cases w.globals.set k v with
  | ok globals => exact .ok { hw.nothing with globals := rfl }
  | error e => exact .error _

theorem setIndex (hw : w.Renamed σ w') (container position v : Value) :
    Agree σ shift
      (match w.heap.setIndex container position v with
        | .ok heap => .ok { w.nothing with heap }
        | .error e => .error (.error e))
      (match w'.heap.setIndex (container.rename σ) (position.rename σ) (v.rename σ) with
        | .ok heap => .ok { w'.nothing with heap }
        | .error e => .error (.error e)) := by
  rw [Heap.setIndex, Heap.setIndex, hw.heap.place]
  cases w.heap.place container position with
  | ok place => exact hw.setHeap (hw.heap.write place v)
  | error e => exact .error _

theorem makeHash (hw : w.Renamed σ w') (vs : List Value) :
    Agree σ shift
      (match Exec.storePairs .empty vs with
        | .ok entries => .ok (w.giveNew (w.heap.newHash entries))
        | .error e => .error (.error e))
      (match Exec.storePairs .empty (vs.map (Value.rename σ)) with
        | .ok entries => .ok (w'.giveNew (w'.heap.newHash entries))
        | .error e => .error (.error e)) := by
  have hpairs := Exec.storePairs_rename (σ := σ) .empty vs
  have hempty : (Dict.empty : Dict Value).map (Value.rename σ) = .empty := by
    simp [Dict.map, Dict.empty]
  rw [hempty] at hpairs
  rw [hpairs]
  cases Exec.storePairs .empty vs with
  | ok entries => exact hw.giveNew (hw.heap.newHash entries)
  | error e => exact .error _

end View.Renamed

open View.Renamed in
/-- The effects of an instruction on corresponding views and values correspond, or both fail
alike. -/
theorem Instruction.effect_renamed {shift : Nat} {i j : Instruction} {r : Room}
    {safe : Function → Nat → Prop} {w w' : View} {args : List Value} (hw : w.Renamed σ w')
    (hshift : i.Shifted shift j)
    (hlength : args.length = i.taken) (hpool : r.pool = w'.constants)
    (hadmits : i.opcode.isJump = false → r.Admits safe i)
    (hslot : i.opcode = .getLocal ∨ i.opcode = .getConstLocal →
      w'.slot (i.operand 0) = (w.slot (i.operand 0)).map (Value.rename σ))
    (hcurrent : i.opcode = .currentClosure →
      ∃ a, w.routine = .closure a ∧ w'.routine = .closure (σ a)) :
    Agree σ shift (j.effect w args) (i.effect w' (args.map (Value.rename σ))) := by
  have hone (h : i.taken = 1) : ∃ v, args = [v] :=
    List.length_eq_one_iff.mp (hlength.trans h)
  have htwo (h : i.taken = 2) : ∃ v w, args = [v, w] :=
    List.length_eq_two.mp (hlength.trans h)
  cases hjump : i.opcode.isJump with
  | true =>
      obtain ⟨op', ns'⟩ := j
      obtain ⟨op, ns⟩ := i
      obtain rfl : op' = op := hshift.opcode
      have htarget := hshift.jump hjump
      cases op' with
      | jump =>
          simp only [effect, htarget]
          exact hw.goTo (some _)
      | jumpNotTruthy =>
          obtain ⟨v, rfl⟩ := hone rfl
          simp only [effect, List.map_cons, List.map_nil, Value.isTruthy_rename, htarget]
          cases v.isTruthy with
          | true => exact hw.goTo none
          | false => exact hw.goTo (some _)
      | _ => cases hjump
  | false =>
      obtain rfl := hshift.other hjump
      replace hadmits := hadmits hjump
      obtain ⟨op, ns⟩ := j
      cases op with
      | jump | jumpNotTruthy => cases hjump
      | constant =>
          obtain ⟨v, hv, hplain⟩ := hadmits
          exact hw.giveConstant (hpool ▸ hv) hplain
      | closure =>
          obtain ⟨f, hf, -⟩ := hadmits
          exact hw.closure (hpool ▸ hf) args
      | struct =>
          obtain ⟨t, ht⟩ := hadmits
          exact hw.struct (hpool ▸ ht) args
      | currentClosure =>
          obtain ⟨a, ha, ha'⟩ := hcurrent rfl
          simp only [effect, View.giveCurrent_of_closure ha, View.giveCurrent_of_closure ha']
          exact hw.give rfl
      | pushTrue | pushFalse | pushNull => exact hw.give rfl
      | getGlobal | getConstGlobal =>
          simp only [effect, hw.globals, Globals.get_rename]
          exact hw.giveResult _
      | getLocal | getConstLocal =>
          simp only [effect, hslot (by simp)]
          cases w.slot _ with
          | some v => exact hw.give rfl
          | none => exact .error _
      | getFree =>
          simp only [effect, hw.captured, Array.getElem?_map]
          exact hw.giveFound _ _
      | getBuiltin =>
          simp only [effect]
          cases Builtin.ofIndex? _ with
          | some b => exact hw.give rfl
          | none => exact .error _
      | add | sub | mul | div | greater | greaterOrEqual | and | or =>
          obtain ⟨l, r, rfl⟩ := htwo rfl
          simp only [effect, List.map_cons, List.map_nil, Opcode.operation?, Operation.apply_rename]
          exact hw.giveResult_same fun v hv => Operation.ne_closure_of_apply hv
      | equal | notEqual =>
          obtain ⟨l, r, rfl⟩ := htwo rfl
          simp only [effect, List.map_cons, List.map_nil, Value.identical_rename hw.heap.injective]
          exact hw.give rfl
      | index =>
          obtain ⟨container, position, rfl⟩ := htwo rfl
          simp only [effect, List.map_cons, List.map_nil, hw.heap.index]
          exact hw.giveResult _
      | setField =>
          obtain ⟨object, v, rfl⟩ := htwo rfl
          exact hw.setField _ object v
      | setIndex =>
          obtain ⟨container, position, v, rfl⟩ := List.length_eq_three.mp hlength
          exact hw.setIndex container position v
      | negate =>
          obtain ⟨v, rfl⟩ := hone rfl
          simp only [effect, List.map_cons, List.map_nil, Value.opposite_rename]
          exact hw.giveResult_same fun u hu => Value.ne_closure_of_opposite hu
      | not =>
          obtain ⟨v, rfl⟩ := hone rfl
          simp only [effect, List.map_cons, List.map_nil, Value.isTruthy_rename]
          exact hw.give rfl
      | setGlobal | setConstGlobal =>
          obtain ⟨v, rfl⟩ := hone rfl
          exact hw.setGlobal _ v
      | setLocal | setConstLocal =>
          obtain ⟨v, rfl⟩ := hone rfl
          exact .ok { hw.nothing with written := rfl }
      | getField =>
          obtain ⟨object, rfl⟩ := hone rfl
          exact hw.getField _ object
      | pop | returnValue =>
          obtain ⟨v, rfl⟩ := hone rfl
          exact .ok hw.nothing
      | returnNull =>
          obtain rfl := List.length_eq_zero_iff.mp hlength
          exact .ok hw.nothing
      | array =>
          have hnew := hw.heap.newArray args.toArray
          rw [List.map_toArray] at hnew
          exact hw.giveNew hnew
      | hash => exact hw.makeHash args
      | call =>
          cases args with
          | nil => cases hlength
          | cons callee vs => exact hw.call callee vs

end ScriptEngine
