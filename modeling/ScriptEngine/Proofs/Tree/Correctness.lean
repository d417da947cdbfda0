import ScriptEngine.Proofs.Compile.Following
import ScriptEngine.Proofs.Compile.Growth
import ScriptEngine.Proofs.Tree.Names
import ScriptEngine.Proofs.Tree.Pieces

/-!
# Compiled programs do what their trees say

The run of a compiled program without functions and structs is followed step by step by the direct
evaluation of its tree, phrase by phrase (`Compiles.correct`).  Hence the two end in the same way.
-/

namespace ScriptEngine

open Assembly

/-! ## Instructions of single constructs -/

theorem Computes.congr {r : Except (Stop RuntimeError) Effect} {x y : Eval Value} {m : Machine}
    (h : Computes r x m) (hxy : y m.world = x m.world) : Computes r y m := by
  unfold Computes at h ⊢
  rwa [hxy]

theorem PrefixOp.computes (op : PrefixOp) (v : Value) (m : Machine) (f : Frame) :
    Computes ((⟨op.opcode, []⟩ : Instruction).effect (m.view f) [v]) (op.evaluate v) m := by
  cases op with
  | minus => exact .giveResult v.opposite
  | bang => exact .give (.bool (!v.isTruthy))

/-- The instruction of an operator, given the operands in the order of their evaluation. -/
theorem InfixOp.computes (op : InfixOp) (l r : Value) (m : Machine) (f : Frame) :
    Computes ((⟨op.opcode, []⟩ : Instruction).effect (m.view f)
      (if op.isRightFirst then [r, l] else [l, r])) (op.evaluate l r) m := by
  cases op with
  | equal =>
      change Computes (.ok ((m.view f).give (.bool (l.identical r == true)))) _ m
      rw [beq_true]
      exact .give _
  | notEqual =>
      change Computes (.ok ((m.view f).give (.bool (l.identical r == false)))) _ m
      rw [beq_false]
      exact .give _
  | _ => exact .giveResult _

namespace Carries

section

variable {α : Type} {m : Machine} {compute : World → Except RuntimeError α}
  {put : World → α → World}

theorem updated {a : α} {e : Effect} (ha : compute m.world = .ok a) (hvalue : e.value = none)
    (htarget : e.target = none) (hput : put m.world a = m.worldAfter e) :
    Carries (.ok e) (Eval.update compute put) m := by
  refine ⟨hvalue, htarget, ?_⟩
  rw [Eval.update, ha, ← hput]

theorem refused {cause : RuntimeError} (hcause : compute m.world = .error cause) :
    Carries (.error (.error cause)) (Eval.update compute put) m := by
  change Eval.update compute put m.world = _
  rw [Eval.update, hcause]

end

theorem writeGlobal (slot : Nat) (v : Value) (m : Machine) (f : Frame) :
    Carries ((⟨.setGlobal, [slot]⟩ : Instruction).effect (m.view f) [v])
      (Eval.writeGlobal slot v) m := by
  have hglobals : (m.view f).globals.set ((⟨.setGlobal, [slot]⟩ : Instruction).operand 0) v =
      m.globals.set slot v := rfl
  cases hset : m.globals.set slot v with
  | ok globals =>
      simp only [Instruction.effect, hglobals, hset]
      refine updated hset rfl rfl ?_
      simp [Machine.world, Machine.worldAfter, View.nothing, Machine.view]
  | error e =>
      simp only [Instruction.effect, hglobals, hset]
      exact refused hset

theorem writeIndex (container position v : Value) (m : Machine) (f : Frame) :
    Carries ((⟨.setIndex, []⟩ : Instruction).effect (m.view f) [container, position, v])
      (Eval.writeIndex container position v) m := by
  have hheap : (m.view f).heap = m.heap := rfl
  cases hset : m.heap.setIndex container position v with
  | ok heap =>
      simp only [Instruction.effect, hheap, hset]
      refine updated hset rfl rfl ?_
      simp [Machine.world, Machine.worldAfter, View.nothing, Machine.view]
  | error e =>
      simp only [Instruction.effect, hheap, hset]
      exact refused hset

end Carries

section

variable {code : Code} {pool : Array Value} {fuel : Nat} {t u v : Assembly}

/-- A value is stored in a global variable. -/
theorem Runs.store {a : Eval Value} {x : Symbol} {i : Instruction}
    (ht : GivesValue code pool fuel t a) (hstorage : x.storage = .global)
    (hstore : x.store? = some i) :
    Runs code pool fuel (t ++ single i)
      (do let v ← a; Eval.writeGlobal x.index v; return .written v) := by
  have hone := GivesValues.one ht
  have hi : i = ⟨.setGlobal, [x.index]⟩ ∨ i = ⟨.setConstGlobal, [x.index]⟩ := by
    simp only [Symbol.store?, hstorage] at hstore
    cases hmutable : x.isMutable <;> simp only [hmutable] at hstore <;> cases hstore <;> simp
  have hwrite : Runs code pool fuel (t ++ single i) (do
      let vs ← a >>= fun v => pure [v]
      Eval.writeGlobal x.index (vs.headD .null)
      return .written (vs.headD .null)) := by
    rcases hi with rfl | rfl <;>
    · refine .of_write hone rfl (by simp) (by simp) Nat.one_pos fun vs m f hlength => ?_
      obtain ⟨w, rfl⟩ := List.length_eq_one_iff.mp hlength
      exact .writeGlobal x.index w m f
  simpa only [bind_assoc, pure_bind, List.headD_cons] using hwrite

theorem GivesValue.call {a : Eval Value} {b : Eval (List Value)} {n : Nat}
    (ht : GivesValue code pool fuel t a) (hu : GivesValues code pool fuel u b n) :
    GivesValue code pool fuel (t ++ (u ++ Assembly.single ⟨.call, [n]⟩))
      (do let callee ← a; let vs ← b; Eval.call callee vs) := by
  have hall := GivesValues.cons ht hu
  have hcompute := GivesValues.compute (i := ⟨.call, [n]⟩)
    (g := fun vs => Eval.call (vs.headD .null) vs.tail) hall rfl nofun fun vs m f hlength _ => by
      obtain ⟨callee, vs, rfl⟩ := List.exists_cons_of_length_eq_add_one hlength
      exact .call
  simpa only [append_assoc, bind_assoc, pure_bind, List.headD_cons, List.tail_cons] using hcompute

theorem GivesValues.array {b : Eval (List Value)} {n : Nat}
    (ht : GivesValues code pool fuel t b n) :
    GivesValue code pool fuel (t ++ Assembly.single ⟨.array, [n]⟩)
      (do let vs ← b; Eval.allocate fun h => h.newArray vs.toArray) :=
  ht.compute (i := ⟨.array, [n]⟩) rfl nofun fun vs _ _ _ _ =>
    .giveNew fun h => h.newArray vs.toArray

theorem GivesValues.hash {b : Eval (List Value)} {n : Nat}
    (ht : GivesValues code pool fuel t b n) :
    GivesValue code pool fuel (t ++ Assembly.single ⟨.hash, [n]⟩) (do
      let vs ← b
      let entries ← Eval.ofExcept (Exec.storePairs .empty vs)
      Eval.allocate fun h => h.newHash entries) := by
  refine ht.compute (i := ⟨.hash, [n]⟩) rfl nofun fun vs m f _ _ => ?_
  have hheap : (m.view f).heap = m.heap := rfl
  cases hpairs : Exec.storePairs .empty vs with
  | ok entries =>
      simp only [Instruction.effect, hheap, hpairs]
      exact .giveNew fun h => h.newHash entries
  | error e =>
      simp only [Instruction.effect, hpairs]
      rfl

theorem Runs.setIndex {a b c : Eval Value} (ht : GivesValue code pool fuel t a)
    (hu : GivesValue code pool fuel u b) (hv : GivesValue code pool fuel v c) :
    Runs code pool fuel (t ++ (u ++ (v ++ single ⟨.setIndex, []⟩))) (do
      let container ← a
      let position ← b
      let value ← c
      Eval.writeIndex container position value
      return .written container) := by
  have hall := GivesValues.cons ht (.cons hu (.one hv))
  have hwrite := Runs.of_write (i := ⟨.setIndex, []⟩)
    (g := fun vs =>
      Eval.writeIndex (vs.headD .null) (vs.tail.headD .null) (vs.tail.tail.headD .null))
    hall rfl nofun nofun (by decide) fun vs m f hlength => by
      obtain ⟨container, position, value, rfl⟩ := List.length_eq_three.mp hlength
      exact .writeIndex container position value m f
  simpa only [append_assoc, bind_assoc, pure_bind, List.headD_cons, List.tail_cons] using hwrite

theorem GivesValue.unaryOp {a : Eval Value} (op : PrefixOp) (ht : GivesValue code pool fuel t a) :
    GivesValue code pool fuel (t ++ Assembly.single ⟨op.opcode, []⟩) (do op.evaluate (← a)) :=
  ht.unary (by cases op <;> rfl) (by cases op <;> nofun) (by cases op <;> rfl) op.computes

theorem GivesValue.binaryOp {a b : Eval Value} {op : InfixOp} (hop : op.isRightFirst = false)
    (ht : GivesValue code pool fuel t a) (hu : GivesValue code pool fuel u b) :
    GivesValue code pool fuel (t ++ (u ++ Assembly.single ⟨op.opcode, []⟩))
      (do let l ← a; let r ← b; op.evaluate l r) := by
  refine ht.binary hu (by cases op <;> rfl) (by cases op <;> nofun) (by cases op <;> rfl) ?_
  intro l r m f
  have hcomputes := op.computes l r m f
  rwa [hop] at hcomputes

theorem GivesValue.binaryOpSwapped {a b : Eval Value} {op : InfixOp}
    (hop : op.isRightFirst = true) (ht : GivesValue code pool fuel t b)
    (hu : GivesValue code pool fuel u a) :
    GivesValue code pool fuel (t ++ (u ++ Assembly.single ⟨op.opcode, []⟩))
      (do let r ← b; let l ← a; op.evaluate l r) := by
  refine ht.binary hu (by cases op <;> rfl) (by cases op <;> nofun) (by cases op <;> rfl) ?_
  intro r l m f
  have hcomputes := op.computes l r m f
  rwa [hop] at hcomputes

theorem GivesValue.index {a b : Eval Value} (ht : GivesValue code pool fuel t a)
    (hu : GivesValue code pool fuel u b) :
    GivesValue code pool fuel (t ++ (u ++ Assembly.single ⟨.index, []⟩))
      (do let container ← a; let position ← b; Eval.readIndex container position) :=
  ht.binary hu rfl nofun rfl fun container position m _ =>
    (Computes.giveResult (m.heap.index container position)).congr rfl

/-- The value of a symbol is that of its name. -/
theorem GivesValue.load {x : Symbol} {ns : List String} {name : String}
    (hx : x.StandsFor ns name) :
    GivesValue code pool fuel (Assembly.single x.load) (readName ns name) := by
  unfold Symbol.StandsFor at hx
  unfold readName
  cases hslot : slot? ns name with
  | some slot =>
      rw [hslot] at hx
      obtain ⟨hstorage, rfl⟩ := hx
      simp only [Symbol.load, CompileM.loadOf, hstorage]
      cases x.isMutable <;>
        exact single rfl rfl nofun fun m _ _ =>
          (Computes.giveResult (m.globals.get x.index)).congr rfl
  | none =>
      rw [hslot] at hx
      obtain ⟨hstorage, b, hindex, hname⟩ := hx
      simp only [Symbol.load, CompileM.loadOf, hstorage, hname]
      refine single rfl rfl nofun fun m f _ => ?_
      change Computes ((m.view f).giveFound _ ((Builtin.ofIndex? x.index).map .builtin)) _ m
      rw [hindex]
      exact .give _

end

/-! ## Phrases -/

namespace Expr

variable (fuel : Nat) (ns : List String)

theorem eval_binary_inOrder {op : InfixOp} (hop : op.isRightFirst = false) (l r : Expr) :
    (binary op l r).eval fuel .evaluated ns = (do
      let a ← l.eval fuel .evaluated ns
      let b ← r.eval fuel .evaluated (l.names .evaluated ns)
      op.evaluate a b) := by
  cases op <;> cases hop <;> rfl

theorem eval_binary_rightFirst {op : InfixOp} (hop : op.isRightFirst = true) (l r : Expr) :
    (binary op l r).eval fuel .evaluated ns = (do
      let b ← r.eval fuel .evaluated ns
      let a ← l.eval fuel .evaluated (r.names .evaluated ns)
      op.evaluate a b) := by
  cases op <;> cases hop <;> rfl

theorem eval_call (callee : Expr) (arguments : List Expr) (overload : Option String) :
    (call callee arguments overload).eval fuel .evaluated ns = (do
      let f ←
        match callee.calleeName? overload with
        | some name => readName ns name
        | none => callee.eval fuel .evaluated ns
      let vs ← evalAll fuel .evaluated arguments
        (if (callee.calleeName? overload).isNone then callee.names .evaluated ns else ns)
      Eval.call f vs) :=
  rfl

theorem eval_call_named {callee : Expr} {overload : Option String} {name : String}
    (hname : callee.calleeName? overload = some name) (arguments : List Expr) :
    (call callee arguments overload).eval fuel .evaluated ns = (do
      let f ← readName ns name
      let vs ← evalAll fuel .evaluated arguments ns
      Eval.call f vs) := by
  rw [eval_call, hname]
  rfl

theorem eval_call_value {callee : Expr} {overload : Option String}
    (hname : callee.calleeName? overload = none) (arguments : List Expr) :
    (call callee arguments overload).eval fuel .evaluated ns = (do
      let f ← callee.eval fuel .evaluated ns
      let vs ← evalAll fuel .evaluated arguments (callee.names .evaluated ns)
      Eval.call f vs) := by
  rw [eval_call, hname]
  rfl

end Expr

theorem Stmt.eval_assign {ns : List String} {name : String} {slot : Nat}
    (hslot : slot? ns name = some slot) (fuel : Nat) (e : Expr) :
    (assign name e).eval fuel .evaluated ns = (do
      let v ← e.eval fuel .evaluated ns
      Eval.writeGlobal slot v
      return .written v) := by
  change (do
    let v ← e.eval fuel .evaluated ns
    Eval.writeGlobal ((slot? ns name).getD 0) v
    return Yield.written v) = _
  rw [hslot, Option.getD_some]

/-- The code of a phrase of a program without functions and structs does what the evaluation of the
phrase does. -/
def Phrase.Correct (code : Code) (pool : Array Value) (fuel : Nat) (ns : List String)
    (t : Assembly) : Phrase → Prop
  | expr _ e => GivesValue code pool fuel t (e.eval fuel .evaluated ns)
  | use name => GivesValue code pool fuel t (readName ns name)
  | exprs es => GivesValues code pool fuel t (Expr.evalAll fuel .evaluated es ns) es.length
  | pairs ps => GivesValues code pool fuel t (Expr.evalPairs fuel .evaluated ps ns) (2 * ps.length)
  | zero ty => GivesValue code pool fuel t ty.zero
  | branch body | otherwise (some body) =>
      GivesValue code pool fuel t (do return (← Stmt.evalAll fuel .evaluated body ns).blockValue)
  | otherwise none => GivesValue code pool fuel t (pure .null)
  | stmt s => Runs code pool fuel t (s.eval fuel .evaluated ns)
  | stmts ss | block ss => Runs code pool fuel t (Stmt.evalAll fuel .evaluated ss ns)
  | fields _ _ | field _ _ | zeros _ | closure _ _ _ => True

/-- A constant that was added to the pool stays there. -/
theorem Continues.getElem?_keep {pool : Array Value} {E : Env} {v : Value}
    (h : Continues (E.keep v).pool pool) : pool[E.pool.size]? = some v :=
  h _ _ Array.getElem?_push_size

theorem Compiles.correct {code : Code} {pool : Array Value} {fuel : Nat} {E E' : Env} {p : Phrase}
    {t : Assembly} {ns : List String} (h : Compiles E p t E') (hfirst : p.isFirstOrder = true)
    (hE : E.Knows ns) (hpool : Continues E'.pool pool) : p.Correct code pool fuel ns t := by
  induction h generalizing ns with
  | int | float | str | zeroInt | zeroFloat | zeroString =>
      exact .constant hpool.getElem?_keep nofun
  | boolTrue => exact .single rfl rfl nofun fun _ _ _ => .give (.bool true)
  | boolFalse | zeroBool => exact .single rfl rfl nofun fun _ _ _ => .give (.bool false)
  | null | nothing | zeroNull | zeroFunc => exact .pushNull
  | use resolved _ => exact .load (hE.resolve? resolved).2
  | ident _ ih | otherwise _ ih | inner _ ih => exact ih hfirst hE hpool
  | unary _ ih => exact .unaryOp _ (ih hfirst hE hpool)
  | @binary _ _ _ _ op l r _ _ inOrder left right ihl ihr =>
      obtain ⟨hl, hr⟩ := Bool.and_eq_true_iff.mp hfirst
      have hop := op.isRightFirst_eq.trans inOrder
      change GivesValue code pool fuel _ ((Expr.binary op l r).eval fuel .evaluated ns)
      rw [Expr.eval_binary_inOrder fuel ns hop]
      exact .binaryOp hop (ihl hl hE (right.grows.pool.trans hpool))
        (ihr hr (left.knows hl hE) hpool)
  | @swapped _ _ _ _ op l r _ _ reversed right left ihr ihl =>
      obtain ⟨hl, hr⟩ := Bool.and_eq_true_iff.mp hfirst
      have hop := op.isRightFirst_eq.trans reversed
      change GivesValue code pool fuel _ ((Expr.binary op l r).eval fuel .evaluated ns)
      rw [Expr.eval_binary_rightFirst fuel ns hop]
      exact .binaryOpSwapped hop (ihr hr hE (left.grows.pool.trans hpool))
        (ihl hl (right.knows hr hE) hpool)
  | @cond _ _ _ _ _ c yes no _ _ _ condition consequence alternative ihc ihyes ihno =>
      obtain ⟨hc, hyes, hno⟩ := Expr.isFirstOrder_cond hfirst
      have hE₂ := condition.knows hc hE
      have hE₃ := consequence.knows hyes hE₂
      have hpool₃ := alternative.grows.pool.trans hpool
      have htest := ihc hc hE (consequence.grows.pool.trans hpool₃)
      have hleft := ihyes hyes hE₂ hpool₃
      have hright := ihno hno hE₃ hpool
      cases no <;> exact htest.choice hleft hright
  | branch _ value ih => exact (ih hfirst hE hpool).leavesValue value
  | @callNamed _ _ _ _ callee arguments overload _ _ _ named function values ihname ihvalues =>
      obtain ⟨-, hvalues⟩ := Bool.and_eq_true_iff.mp hfirst
      change GivesValue code pool fuel _
        ((Expr.call callee arguments overload).eval fuel .evaluated ns)
      rw [Expr.eval_call_named fuel ns named]
      exact .call (ihname rfl hE (values.grows.pool.trans hpool))
        (ihvalues hvalues (function.knows rfl hE) hpool)
  | @callValue _ _ _ _ callee arguments overload _ _ unnamed function values ihcallee ihvalues =>
      obtain ⟨hcallee, hvalues⟩ := Bool.and_eq_true_iff.mp hfirst
      change GivesValue code pool fuel _
        ((Expr.call callee arguments overload).eval fuel .evaluated ns)
      rw [Expr.eval_call_value fuel ns unnamed]
      exact .call (ihcallee hcallee hE (values.grows.pool.trans hpool))
        (ihvalues hvalues (function.knows hcallee hE) hpool)
  | array _ ih => exact (ih hfirst hE hpool).array
  | hash _ ih => exact (ih hfirst hE hpool).hash
  | index object place iho ihp =>
      obtain ⟨ho, hp⟩ := Bool.and_eq_true_iff.mp hfirst
      exact (iho ho hE (place.grows.pool.trans hpool)).index (ihp hp (object.knows ho hE) hpool)
  | exprsNil | pairsNil => exact .nil
  | exprsCons head tail ihh iht =>
      obtain ⟨hh, ht⟩ := Bool.and_eq_true_iff.mp hfirst
      exact .cons (ihh hh hE (tail.grows.pool.trans hpool)) (iht ht (head.knows hh hE) hpool)
  | pairsCons key value tail ihk ihv iht =>
      obtain ⟨hboth, ht⟩ := Bool.and_eq_true_iff.mp hfirst
      obtain ⟨hk, hv⟩ := Bool.and_eq_true_iff.mp hboth
      have hE₂ := key.knows hk hE
      have hpool₃ := tail.grows.pool.trans hpool
      have hkey := ihk hk hE (value.grows.pool.trans hpool₃)
      have hrest := GivesValues.cons (ihv hv hE₂ hpool₃) (iht ht (value.knows hv hE₂) hpool)
      have hpairs := GivesValues.cons hkey hrest
      simp only [bind_assoc, pure_bind] at hpairs
      exact hpairs
  | zeroArray => exact GivesValues.nil.array
  | zeroHash => exact GivesValues.nil.hash
  | expr _ ih => exact .of_value (ih hfirst hE hpool)
  | declare _ value store ih =>
      obtain ⟨-, he⟩ := Bool.and_eq_true_iff.mp hfirst
      obtain ⟨hstorage, hindex⟩ := (value.knows he hE).define_symbol _ _ _
      have hstore := Runs.store (ih he hE hpool) hstorage store
      rw [hindex] at hstore
      exact hstore
  | declareZero _ value store ih =>
      obtain ⟨hty, -⟩ := Bool.and_eq_true_iff.mp hfirst
      obtain ⟨hstorage, hindex⟩ := (value.knows hty hE).define_symbol _ _ _
      have hstore := Runs.store (ih hty hE hpool) hstorage store
      rw [hindex] at hstore
      exact hstore
  | @assign _ _ _ name e _ _ _ resolved assignable value store ih =>
      obtain ⟨rfl, hx⟩ := hE.resolve? resolved
      obtain ⟨slot, hslot, hstorage, rfl⟩ := hx.of_isAssignable assignable
      change Runs code pool fuel _ ((Stmt.assign name e).eval fuel .evaluated ns)
      rw [Stmt.eval_assign hslot]
      exact .store (ih hfirst hE hpool) hstorage store
  | setIndex object place content iho ihp ihc =>
      obtain ⟨hboth, hc⟩ := Bool.and_eq_true_iff.mp hfirst
      obtain ⟨ho, hp⟩ := Bool.and_eq_true_iff.mp hboth
      have hE₂ := object.knows ho hE
      have hpool₃ := content.grows.pool.trans hpool
      exact .setIndex (iho ho hE (place.grows.pool.trans hpool₃)) (ihp hp hE₂ hpool₃)
        (ihc hc (place.knows hp hE₂) hpool)
  | loop _ condition again ihc iha =>
      obtain ⟨hc, ha⟩ := Bool.and_eq_true_iff.mp hfirst
      have hloop := Runs.loop (ihc hc hE (again.grows.pool.trans hpool))
        (iha ha (condition.knows hc hE) hpool)
      have hvalue := Runs.of_value hloop
      simp only [bind_assoc, pure_bind] at hvalue
      exact hvalue
  | stmtsNil => exact .nil
  | stmtsCons head tail ihh iht =>
      obtain ⟨hh, ht⟩ := Bool.and_eq_true_iff.mp hfirst
      exact (ihh hh hE (tail.grows.pool.trans hpool)).append (iht ht (head.knows hh hE) hpool)
  | block hoisted _ ih =>
      obtain rfl := Env.Knows.hoist? hfirst hoisted
      exact ih hfirst hE hpool
  | function | struct | select | fieldsNil | fieldsCons | fieldGiven | fieldLater | fieldZero
  | zeroStruct | zerosNil | zerosCons | closure | setField | ret | retNull | declareFunction
  | structType => cases hfirst

/-! ## Programs -/

/-- The end of an evaluation and the end of a run are the same.  The value of a program is the one
that was used last. -/
def Agrees (r : EStateM.Result Halt World Yield) : Run → Prop
  | .finished m => ∃ y, r = .ok y m.world ∧ y.last?.getD .null = m.lastTaken
  | .stopped cause m => r = .error (.stop cause) m.world
  | .unfinished _ => ∃ w, r = .error .outOfRounds w

namespace Agrees

variable {r : Run} {w : World}

theorem of_ok {y : Yield} (h : Agrees (.ok y w) r) :
    ∃ m, r = .finished m ∧ m.world = w ∧ m.lastTaken = y.last?.getD .null := by
  cases r with
  | finished m =>
      obtain ⟨y', hy, hlast⟩ := h
      cases hy
      exact ⟨m, rfl, rfl, hlast.symm⟩
  | stopped cause m => cases h
  | unfinished m =>
      obtain ⟨w', hw⟩ := h
      cases hw

theorem of_stop {cause : Stop RuntimeError} (h : Agrees (.error (.stop cause) w) r) :
    ∃ m, r = .stopped cause m ∧ m.world = w := by
  cases r with
  | finished m =>
      obtain ⟨y, hy, -⟩ := h
      cases hy
  | stopped cause' m =>
      cases h
      exact ⟨m, rfl, rfl⟩
  | unfinished m =>
      obtain ⟨w', hw⟩ := h
      cases hw

theorem of_outOfRounds (h : Agrees (.error .outOfRounds w) r) : ∃ m, r = .unfinished m := by
  cases r with
  | finished m =>
      obtain ⟨y, hy, -⟩ := h
      cases hy
  | stopped cause m => cases h
  | unfinished m => exact ⟨m, rfl⟩

end Agrees

/-- At the end of its code a machine has what was used last right above the empty stack. -/
def Machine.IsDone (m : Machine) (y : Yield) : Prop :=
  m.nextByte? = none ∧ y.last?.getD .null = m.lastTaken

namespace Mirrors

variable {m : Machine} {r : EStateM.Result Halt World Yield} {bound : Nat}

theorem agrees (h : Mirrors bound r m fun y m' => m'.IsDone y) :
    ∃ n, Agrees r (m.run n) ∧ ∀ m', m.run n = .unfinished m' → bound ≤ n := by
  match r with
  | .ok y w =>
      obtain ⟨n, m', hrun, rfl, hbyte, hlast⟩ := h
      have hend : m.run (n + 1) = .finished m' := by
        rw [Machine.run_add hrun]
        simp only [Machine.run, hbyte]
      refine ⟨n + 1, ?_, fun m'' h => ?_⟩
      · rw [hend]
        exact ⟨y, rfl, hlast⟩
      · rw [hend] at h
        cases h
  | .error (.stop cause) w =>
      obtain ⟨n, m', hrun, rfl⟩ := h
      refine ⟨n, ?_, fun m'' h => ?_⟩
      · rw [hrun]
        rfl
      · rw [hrun] at h
        cases h
  | .error .outOfRounds w =>
      obtain ⟨n, m', hrun, hn⟩ := h
      refine ⟨n, ?_, fun _ _ => hn⟩
      rw [hrun]
      exact ⟨w, rfl⟩

/-- With more rounds than steps, the evaluation ends as the run does. -/
theorem agrees_of_ended {n : Nat} (h : Mirrors bound r m fun y m' => m'.IsDone y)
    (hn : ∀ m', m.run n ≠ .unfinished m') (hbound : n < bound) : Agrees r (m.run n) := by
  obtain ⟨k, hagrees, hk⟩ := h.agrees
  have hended : ∀ m', m.run k ≠ .unfinished m' := by
    intro m' hm'
    have hle := hk m' hm'
    rw [Machine.run_of_le hn (by omega)] at hm'
    exact hn m' hm'
  rcases Nat.le_total n k with hle | hle
  · rwa [Machine.run_of_le hn hle] at hagrees
  · rwa [Machine.run_of_le hended hle]

end Mirrors

namespace Machine

/-- The run comes to the end of its code; this is the value that was used last, and the world. -/
def Finishes (m : Machine) (v : Value) (w : World) : Prop :=
  ∃ n m', m.run n = .finished m' ∧ m'.lastTaken = v ∧ m'.world = w

/-- The run stops early; this is the reason, and the world. -/
def Stops (m : Machine) (cause : Stop RuntimeError) (w : World) : Prop :=
  ∃ n m', m.run n = .stopped cause m' ∧ m'.world = w

/-- A run that comes to its end does not stop early. -/
theorem not_stops_of_finished {m m' : Machine} {n : Nat} (h : m.run n = .finished m')
    {cause : Stop RuntimeError} {w : World} : ¬m.Stops cause w := by
  rintro ⟨k, m'', hk, -⟩
  rw [run_eq_run (k := n) (by simp [hk]) (by simp [h]), h] at hk
  cases hk

end Machine

namespace Stmt

/-- The evaluation of a program ends, given rounds enough; this is the value that was used last, and
the world. -/
def Yields (sc : Scoping) (program : Program) (start : World) (v : Value) (w : World) : Prop :=
  ∃ fuel y, evalAll fuel sc program [] start = .ok y w ∧ y.last?.getD .null = v

/-- The evaluation of a program stops early, given rounds enough; this is the reason, and the
world. -/
def Fails (sc : Scoping) (program : Program) (start : World) (cause : Stop RuntimeError)
    (w : World) : Prop :=
  ∃ fuel, evalAll fuel sc program [] start = .error (.stop cause) w

end Stmt

namespace Mirrors

variable {m : Machine} {x : Nat → Eval Yield}

theorem finishes_iff (h : ∀ fuel, Mirrors fuel (x fuel m.world) m fun y m' => m'.IsDone y)
    (v : Value) (w : World) :
    m.Finishes v w ↔ ∃ fuel y, x fuel m.world = .ok y w ∧ y.last?.getD .null = v := by
  constructor
  · rintro ⟨n, m', hrun, rfl, rfl⟩
    have hagrees := (h (n + 1)).agrees_of_ended (by simp [hrun]) (Nat.lt_succ_self n)
    rw [hrun] at hagrees
    exact ⟨n + 1, hagrees⟩
  · rintro ⟨fuel, y, hx, rfl⟩
    obtain ⟨n, hagrees, -⟩ := (h fuel).agrees
    rw [hx] at hagrees
    obtain ⟨m', hrun, hworld, hlast⟩ := hagrees.of_ok
    exact ⟨n, m', hrun, hlast, hworld⟩

theorem stops_iff (h : ∀ fuel, Mirrors fuel (x fuel m.world) m fun y m' => m'.IsDone y)
    (cause : Stop RuntimeError) (w : World) :
    m.Stops cause w ↔ ∃ fuel, x fuel m.world = .error (.stop cause) w := by
  constructor
  · rintro ⟨n, m', hrun, rfl⟩
    have hagrees := (h (n + 1)).agrees_of_ended (by simp [hrun]) (Nat.lt_succ_self n)
    rw [hrun] at hagrees
    exact ⟨n + 1, hagrees⟩
  · rintro ⟨fuel, hx⟩
    obtain ⟨n, hagrees, -⟩ := (h fuel).agrees
    rw [hx] at hagrees
    obtain ⟨m', hrun, hworld⟩ := hagrees.of_stop
    exact ⟨n, m', hrun, hworld⟩

theorem unfinished_iff (h : ∀ fuel, Mirrors fuel (x fuel m.world) m fun y m' => m'.IsDone y) :
    (∀ n, ∃ m', m.run n = .unfinished m') ↔
      ∀ fuel, ∃ w, x fuel m.world = .error .outOfRounds w := by
  constructor
  · intro hrun fuel
    obtain ⟨n, hagrees, -⟩ := (h fuel).agrees
    obtain ⟨m', hm'⟩ := hrun n
    rwa [hm'] at hagrees
  · intro hx n
    by_contra hended
    have hagrees := (h (n + 1)).agrees_of_ended (by simpa using hended) (Nat.lt_succ_self n)
    obtain ⟨w, hw⟩ := hx (n + 1)
    rw [hw] at hagrees
    exact hended hagrees.of_outOfRounds

end Mirrors

/-- The machine that is about to run a unit on its own.  It is the one that is loaded with limits
with which a machine can be built. -/
def Bytecode.machine (unit : Bytecode) (limits : Limits) : Machine :=
  .initial unit.code unit.constants limits (.ofSize limits.globalsSize) .empty

theorem Bytecode.machine_at (unit : Bytecode) (limits : Limits) :
    (unit.machine limits).At unit.code unit.constants 0 0 := by
  have hnull {n : Nat} {v : Value} (hv : v ∈ Array.replicate n Value.null) : v.IsData := by
    obtain ⟨-, rfl⟩ := Array.mem_replicate.mp hv
    nofun
  exact ⟨⟨_, rfl, rfl, rfl, rfl⟩, rfl, rfl, Nat.zero_le _, fun v => hnull, fun v => hnull, .empty⟩

theorem Machine.At.nextByte?_eq_none {code : Code} {pool : Array Value} {k : Nat} {m : Machine}
    (h : m.At code pool code.size k) : m.nextByte? = none := by
  obtain ⟨f, hframes, hip, -, hcode⟩ := h.frame
  rw [nextByte?, hframes]
  simp only [hcode, hip]
  exact Array.getElem?_eq_none (Nat.le_refl _)

/-- What lies right above the empty stack is what was used last, or nothing was used. -/
theorem Bytecode.lastTaken_eq {unit : Bytecode} {limits : Limits} {m : Machine} {y : Yield}
    (hsp : m.sp = 0) (hlast : m.stack[0]? = y.last?.or (unit.machine limits).stack[0]?) :
    m.lastTaken = y.last?.getD .null := by
  rw [Machine.lastTaken, hsp, hlast]
  cases y.last? with
  | some v => rfl
  | none =>
      change (Array.replicate limits.stackSize Value.null)[0]?.getD .null = .null
      rw [Array.getElem?_replicate]
      split <;> rfl

/-- The run of a compiled unit does what the evaluation of its tree does. -/
theorem simulates_unit {program : Program} {unit : Bytecode} {limits : Limits}
    (hfirst : Stmt.allFirstOrder program = true) (hunit : compileProgram program = .ok unit)
    (fuel : Nat) :
    Simulates fuel (Stmt.evalAll fuel .evaluated program []) (unit.machine limits)
      fun y m' => m'.IsDone y := by
  have hcompiled : ((Compiler.resume .withBuiltins #[]).compile program).1 = .ok unit := hunit
  rcases Compiler.compile_cases .withBuiltins #[] program with
    ⟨e, c, herror⟩ | ⟨unit', c, t, E', hcompile, -, -, hcompiles⟩
  · rw [herror] at hcompiled
    cases hcompiled
  · rw [hcompile] at hcompiled
    cases hcompiled
    have hpool : Continues E'.pool unit.constants := hcompiles.constants ▸ .refl _
    have hruns : Runs unit.code unit.constants fuel t (Stmt.evalAll fuel .evaluated program []) :=
      hcompiles.rules.correct hfirst (Env.knows_withBuiltins rfl) hpool
    apply (hruns.whole 0 0 _ hcompiles.contains (unit.machine_at limits)).imp
    rintro y m' ⟨hat, -, -, hlast⟩
    rw [Nat.zero_add, ← hcompiles.size] at hat
    exact ⟨hat.nextByte?_eq_none, (Bytecode.lastTaken_eq hat.sp hlast).symm⟩

/-- A unit without functions and structs runs as its tree says.  Names stand for the variables that
are declared before them in the order of evaluation, and for built-in functions otherwise.  Unless
the stack overflows, the run comes to the end of its code with a value if and only if the evaluation
of the tree gives that value; it stops early if and only if the evaluation does so for the same
reason; and it goes on for ever if and only if the evaluation needs more than any number of rounds.
In each case globals, heap and output are the same. -/
theorem compileProgram_correct {program : Program} {unit : Bytecode} {limits : Limits}
    (hfirst : Stmt.allFirstOrder program = true) (hunit : compileProgram program = .ok unit)
    (hroom : ¬(unit.machine limits).Overflows) :
    let m := unit.machine limits
    (∀ v w, m.Finishes v w ↔ Stmt.Yields .evaluated program m.world v w) ∧
      (∀ cause w, m.Stops cause w ↔ Stmt.Fails .evaluated program m.world cause w) ∧
      ((∀ n, ∃ m', m.run n = .unfinished m') ↔
        ∀ fuel, ∃ w, Stmt.evalAll fuel .evaluated program [] m.world = .error .outOfRounds w) := by
  intro m
  have hmirrors (fuel : Nat) :
      Mirrors fuel (Stmt.evalAll fuel .evaluated program [] m.world) m fun y m' => m'.IsDone y :=
    (simulates_unit hfirst hunit fuel).resolve_left hroom
  exact ⟨Mirrors.finishes_iff hmirrors, Mirrors.stops_iff hmirrors, Mirrors.unfinished_iff hmirrors⟩

/-- The value of a program whose run ends within a number of steps. -/
def valueWithin? (limits : Limits) (steps : Nat) (program : Program) : Option Value :=
  match compileProgram program with
  | .ok unit =>
      match (unit.machine limits).run steps with
      | .finished m => some m.lastTaken
      | _ => none
  | .error _ => none

theorem exists_finished {limits : Limits} {steps : Nat} {program : Program} {v : Value}
    (h : valueWithin? limits steps program = some v) :
    ∃ unit m, compileProgram program = .ok unit ∧
      (unit.machine limits).run steps = .finished m ∧ m.lastTaken = v := by
  unfold valueWithin? at h
  cases hunit : compileProgram program with
  | error e => simp [hunit] at h
  | ok unit =>
      cases hrun : (unit.machine limits).run steps with
      | finished m => exact ⟨unit, m, rfl, hrun, by simpa [hunit, hrun] using h⟩
      | _ => simp [hunit, hrun] at h

theorem not_overflows_of_finished {m m' : Machine} {n : Nat} (h : m.run n = .finished m') :
    ¬m.Overflows := by
  rintro ⟨k, m'', hk⟩
  exact Machine.not_stops_of_finished h ⟨k, m'', hk, rfl⟩

/-- A loop that adds up numbers. -/
def sumProgram : Program :=
  [.declare "n" true none (some (.int 3)),
    .declare "sum" true none (some (.int 0)),
    .loop (.binary .less (.int 0) (.ident "n"))
      [.assign "sum" (.binary .add (.ident "sum") (.ident "n")),
        .assign "n" (.binary .subtract (.ident "n") (.int 1))],
    .expr (.cond (.binary .equal (.ident "sum") (.int 6)) [.expr (.ident "sum")] none)]

theorem compileProgram_correct_sumProgram :
    ∃ unit w, compileProgram sumProgram = .ok unit ∧ ¬(unit.machine ⟨8, 1, 2⟩).Overflows ∧
      Stmt.Yields .evaluated sumProgram (unit.machine ⟨8, 1, 2⟩).world (.int 6) w := by
  have hvalue : valueWithin? ⟨8, 1, 2⟩ 100 sumProgram = some (.int 6) := by decide +kernel
  obtain ⟨unit, m, hunit, hrun, hlast⟩ := exists_finished hvalue
  have hroom := not_overflows_of_finished hrun
  refine ⟨unit, m.world, hunit, hroom, ?_⟩
  exact ((compileProgram_correct (by decide +kernel) hunit hroom).1 _ _).mp
    ⟨100, m, hrun, hlast, rfl⟩

/-- A declaration in the left operand of a comparison has the name of a built-in function that the
right operand calls. -/
def shadowingProgram : Program :=
  [.expr (.binary .less
    (.cond (.bool true) [.declare "len" true none (some (.int 1)), .expr (.int 3)]
      (some [.expr (.int 0)]))
    (.call (.ident "len") [.array [.int 1, .int 2]] none))]

/-- The order of the text does not decide which declarations precede a name: here the right operand
calls the built-in function, although a variable of that name is declared to its left. -/
theorem textual_scoping_refuted :
    Stmt.allFirstOrder shadowingProgram = true ∧
      ∃ unit, compileProgram shadowingProgram = .ok unit ∧ ¬(unit.machine ⟨4, 1, 1⟩).Overflows ∧
        ¬∀ cause w, (unit.machine ⟨4, 1, 1⟩).Stops cause w ↔
          Stmt.Fails .textual shadowingProgram (unit.machine ⟨4, 1, 1⟩).world cause w := by
  have hvalue : valueWithin? ⟨4, 1, 1⟩ 20 shadowingProgram = some (.bool false) := by
    decide +kernel
  obtain ⟨unit, m, hunit, hrun, -⟩ := exists_finished hvalue
  refine ⟨by decide +kernel, unit, hunit, not_overflows_of_finished hrun, fun hiff => ?_⟩
  have hfails : Stmt.Fails .textual shadowingProgram (unit.machine ⟨4, 1, 1⟩).world
      (.error (.notCallable .null)) _ := ⟨0, rfl⟩
  exact Machine.not_stops_of_finished hrun ((hiff _ _).mpr hfails)

end ScriptEngine
