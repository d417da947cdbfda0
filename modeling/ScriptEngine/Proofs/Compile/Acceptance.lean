import ScriptEngine.Proofs.Compile.Following
import ScriptEngine.Proofs.Instruction.RoundTrip

/-!
# The compiler accepts what the rules accept

This is the converse of `Compile/Following`: where the rules of `Compiles` give code for a phrase
and its instructions can be written from the current offset on, the compiler accepts the phrase and
writes that code.  The offset matters for the targets of jumps only, and the earlier a piece of code
begins, the more of them can be written.
-/

namespace ScriptEngine

open Compiler

/-! ## Code that can be written -/

theorem Instruction.fitsFormat_jump {op : Opcode} (hop : op.isJump = true) {n : Nat} :
    (⟨op, [n]⟩ : Instruction).FitsFormat ↔ n < 65536 := by
  have hwidths : op.operandWidths = [.word] := by
    cases op with
    | jump | jumpNotTruthy => rfl
    | _ => cases hop
  simp [FitsFormat, hwidths, Width.bytes]

namespace Written

theorem fitsFormat {is : List Instruction} {bs : List UInt8} (h : Written is bs) :
    ∀ i ∈ is, i.FitsFormat := by
  induction h with
  | nil => simp
  | cons head _ ih =>
      exact List.forall_mem_cons.mpr ⟨Instruction.exists_encode_iff.mp ⟨_, head⟩, ih⟩

theorem unique {is : List Instruction} {bs cs : List UInt8} (h : Written is bs)
    (h' : Written is cs) : bs = cs := by
  rw [← Instruction.encodeAll_eq_ok_iff] at h h'
  exact Except.ok.inj (h.symm.trans h')

end Written

/-- What is added to a code determines the result. -/
theorem Code.Adds.unique {c c₁ c₂ : Code} {is : List Instruction} (h₁ : c.Adds is c₁)
    (h₂ : c.Adds is c₂) : c₁ = c₂ := by
  obtain ⟨bs, hbs, hbytes₁⟩ := h₁
  obtain ⟨cs, hcs, hbytes₂⟩ := h₂
  rw [hbs.unique hcs, ← hbytes₂] at hbytes₁
  cases c₁
  cases c₂
  exact congrArg Code.mk (Array.toList_inj.mp hbytes₁)

namespace Assembly

/-- The instructions of a piece of code that starts at an offset can be written. -/
def Writable (t : Assembly) (p : Nat) : Prop :=
  ∀ i ∈ t.instrs p, i.FitsFormat

theorem writable_append {t u : Assembly} {p : Nat} :
    (t ++ u).Writable p ↔ t.Writable p ∧ u.Writable (p + t.size) := by
  rw [Writable, instrs_append, List.forall_mem_append]
  rfl

theorem writable_single {i : Instruction} {p : Nat} : (single i).Writable p ↔ i.FitsFormat := by
  simp [Writable]

theorem writable_of_adds {t : Assembly} {c c' : Code} {p : Nat} (h : c.Adds (t.instrs p) c') :
    t.Writable p := by
  obtain ⟨bs, hbs, -⟩ := h
  exact hbs.fitsFormat

theorem writable_choice {test yes no rest : Assembly} {p : Nat} :
    (choice test yes no rest).Writable p ↔
      let other := p + test.size + 3 + yes.size + 3
      test.Writable p ∧ (⟨.jumpNotTruthy, [other]⟩ : Instruction).FitsFormat ∧
        yes.Writable (p + test.size + 3) ∧ (⟨.jump, [other + no.size]⟩ : Instruction).FitsFormat ∧
        no.Writable other ∧ rest.Writable (other + no.size) := by
  simp only [Writable, instrs, List.forall_mem_append, List.forall_mem_cons]

theorem writable_loop {test body rest : Assembly} {p : Nat} :
    (loop test body rest).Writable p ↔
      let after := p + test.size + 3 + body.size + 3
      test.Writable p ∧ (⟨.jumpNotTruthy, [after]⟩ : Instruction).FitsFormat ∧
        body.Writable (p + test.size + 3) ∧ (⟨.jump, [p]⟩ : Instruction).FitsFormat ∧
        rest.Writable after := by
  simp only [Writable, instrs, List.forall_mem_append, List.forall_mem_cons]

/-- Code that can be written somewhere can be written at every earlier offset. -/
theorem Writable.of_le {t : Assembly} {p q : Nat} (h : t.Writable q) (hle : p ≤ q) :
    t.Writable p := by
  have hjump {op : Opcode} (hop : op.isJump = true) {m n : Nat}
      (hn : (⟨op, [n]⟩ : Instruction).FitsFormat) (hmn : m ≤ n) :
      (⟨op, [m]⟩ : Instruction).FitsFormat := by
    rw [Instruction.fitsFormat_jump hop] at hn ⊢
    omega
  induction t generalizing p q with
  | done => simp [Writable, instrs]
  | op i rest ih =>
      rw [Writable, instrs, List.forall_mem_cons] at h ⊢
      exact ⟨h.1, ih h.2 (by omega)⟩
  | choice test yes no rest ihtest ihyes ihno ihrest =>
      rw [writable_choice] at h ⊢
      obtain ⟨htest, hbranch, hyes, hend, hno, hrest⟩ := h
      exact ⟨ihtest htest hle, hjump rfl hbranch (by omega), ihyes hyes (by omega),
        hjump rfl hend (by omega), ihno hno (by omega), ihrest hrest (by omega)⟩
  | loop test body rest ihtest ihbody ihrest =>
      rw [writable_loop] at h ⊢
      obtain ⟨htest, hbranch, hbody, hback, hrest⟩ := h
      exact ⟨ihtest htest hle, hjump rfl hbranch (by omega), ihbody hbody (by omega),
        hjump rfl hback hle, ihrest hrest (by omega)⟩

namespace LeavesValue

variable {t u v : Assembly}

theorem writable (h : t.LeavesValue u) {p : Nat} (hu : u.Writable p) : t.Writable p := by
  cases h with
  | value => exact writable_append.mpr ⟨hu, writable_single.mpr (by decide)⟩
  | null => exact (writable_append.mp hu).1

theorem unique (h : t.LeavesValue u) (h' : t.LeavesValue v) : u = v := by
  generalize ht : t = t' at h'
  cases h with
  | value =>
      cases h' with
      | value => exact (append_single_inj ht).1
      | null hlast => exact absurd (ht ▸ last?_append_single _ _) hlast
  | null hlast =>
      cases h' with
      | value => exact absurd (ht ▸ last?_append_single _ _) hlast
      | null => rw [ht]

end LeavesValue

namespace Returns

variable {t u v : Assembly}

theorem writable (h : t.Returns u) {p : Nat} (hu : u.Writable p) : t.Writable p := by
  cases h with
  | value => exact writable_append.mpr ⟨(writable_append.mp hu).1, writable_single.mpr (by decide)⟩
  | already => exact hu
  | null => exact (writable_append.mp hu).1

theorem unique (h : t.Returns u) (h' : t.Returns v) : u = v := by
  generalize ht : t = t' at h'
  cases h with
  | value =>
      cases h' with
      | value => rw [(append_single_inj ht).1]
      | already => cases (append_single_inj ht).2
      | null hpop => exact absurd (ht ▸ last?_append_single _ _) hpop
  | already =>
      cases h' with
      | value => cases (append_single_inj ht).2
      | already => exact ht
      | null _ hreturn => exact absurd (ht ▸ last?_append_single _ _) hreturn
  | null hpop hreturn =>
      cases h' with
      | value => exact absurd (ht ▸ last?_append_single _ _) hpop
      | already => exact absurd (ht ▸ last?_append_single _ _) hreturn
      | null => rw [ht]

end Returns

end Assembly

namespace CompileM

variable {stopped : Stop CompileError → Compiler → Prop}

/-! ## Steps that succeed -/

theorem emit_of_fitsFormat {op : Opcode} {ns : List Nat}
    (hformat : (⟨op, ns⟩ : Instruction).FitsFormat) (c : Compiler) :
    Ends (emit op ns) c (fun _ c' => c.WritesOp ⟨op, ns⟩ c') stopped := by
  obtain ⟨bytes, hbytes⟩ := Instruction.exists_encode_iff.mpr hformat
  exact emit_of_encode hbytes c

theorem emitJump_of_isJump {op : Opcode} (hop : op.isJump = true) (c : Compiler) :
    Ends (emitJump op) c
      (fun offset c' => offset = c.current.code.size ∧ c.WritesOp ⟨op, [unknownTarget]⟩ c')
      stopped := by
  have hformat : (⟨op, [unknownTarget]⟩ : Instruction).FitsFormat :=
    (Instruction.fitsFormat_jump hop).mpr (by decide)
  refine Ends.bind (Ends.of_ok rfl ⟨rfl, rfl⟩ :
    Ends position c (fun offset c' => offset = c.current.code.size ∧ c = c') stopped) ?_
  rintro _ _ ⟨rfl, rfl⟩
  refine Ends.bind (emit_of_fitsFormat hformat c) ?_
  intro _ c' hwrites
  exact Ends.of_pure ⟨rfl, hwrites⟩

theorem patchJump_of_fitsFormat {c₀ c : Compiler} {t u : Assembly} {op : Opcode} {n : Nat}
    (hop : op.isJump = true) (h : c₀.Writes (t ++ (.single ⟨op, [n]⟩ ++ u)) c)
    (hformat : (⟨op, [c.current.code.size]⟩ : Instruction).FitsFormat) :
    Ends (patchJump (c₀.current.code.size + t.size)) c
      (fun _ c' => c'.env = c.env ∧ c'.current.last = c.current.last ∧
        c₀.Writes (t ++ (.single ⟨op, [c.current.code.size]⟩ ++ u)) c') stopped := by
  refine patchJump_of_encode hop h fun e he => ?_
  obtain ⟨bytes, hbytes⟩ := Instruction.exists_encode_iff.mpr hformat
  rw [Instruction.encode, he] at hbytes
  cases hbytes

theorem checkFresh_eq {name : String} {c : Compiler}
    (hfresh : c.env.chain.conflict? name = none) : checkFresh name c = .ok () c := by
  have hget : (get : CompileM Compiler) c = .ok c c := rfl
  have hnone : c.chain.conflict? name = none := hfresh
  simp only [checkFresh, Bind.bind, EStateM.bind, hget, hnone]
  rfl

theorem resolve_of_resolve? {name : String} {x : Symbol} {E : Env} {c : Compiler}
    (h : c.env.resolve? name = some (x, E)) (otherwise : CompileError) :
    Ends (resolve name otherwise) c (fun y c' => y = x ∧ c'.env = E ∧ c.Silent c') stopped := by
  obtain ⟨⟨r, chain⟩, hr, hx⟩ := Option.map_eq_some_iff.mp h
  have hchain : c.chain.resolve? name = some (r, chain) := hr
  cases hx
  have hrun : resolve name otherwise c = .ok r.symbol { c with chain } := by
    simp only [resolve, hchain]
  exact Ends.of_ok hrun ⟨rfl, rfl, rfl, rfl, rfl⟩

theorem load_of_fitsFormat {x : Symbol} {c : Compiler} (hload : c.env.canLoad x = true)
    (hformat : x.load.FitsFormat) : Ends (load x) c (fun _ c' => c.WritesOp x.load c') stopped := by
  refine Ends.get_bind ?_
  rw [Env.canLoad, Bool.not_eq_true'] at hload
  have hread : ¬(x.storage.isDeclared && c.current.hoisted.contains x.name) = true := by
    rw [Bool.not_eq_true]
    exact hload
  rw [if_neg hread]
  exact emit_of_fitsFormat hformat c

theorem store_of_fitsFormat {x : Symbol} {i : Instruction} {c : Compiler} (hi : x.store? = some i)
    (hformat : i.FitsFormat) : Ends (store x) c (fun _ c' => c.WritesOp i c') stopped := by
  cases hs : x.storage with
  | global | slot =>
      cases hm : x.isMutable <;> simp only [Symbol.store?, hs, hm, Option.some.injEq] at hi <;>
        subst hi <;> simp only [store, hs, hm] <;> exact emit_of_fitsFormat hformat c
  | captured | builtin | self => simp [Symbol.store?, hs] at hi

theorem loadAll_of_writable : ∀ {xs : List Symbol} {c : Compiler}
    (_ : ∀ x ∈ xs, c.env.canLoad x = true)
    (_ : (Assembly.ofList (xs.map Symbol.load)).Writable c.current.code.size),
    Ends (loadAll xs) c
      (fun _ c' => c'.env = c.env ∧ c.Writes (.ofList (xs.map Symbol.load)) c') stopped
  | [], c, _, _ => Ends.of_pure ⟨rfl, (Silent.refl c).writes⟩
  | x :: xs, c, hload, hwritable => by
      rw [List.forall_mem_cons] at hload
      rw [List.map_cons, Assembly.ofList, Assembly.Writable, Assembly.instrs,
        List.forall_mem_cons] at hwritable
      refine Ends.bind (load_of_fitsFormat hload.1 hwritable.1) ?_
      intro _ c₁ hop
      have hsize := hop.writes.size
      rw [Assembly.size_single] at hsize
      refine (loadAll_of_writable (hop.env.symm ▸ hload.2) (hsize.symm ▸ hwritable.2)).imp ?_
      rintro _ c₂ ⟨henv, hwrites⟩
      exact ⟨henv.trans hop.env, hop.writes.trans hwrites⟩

theorem hoist_of_hoist? : ∀ (ss : List Stmt) {c : Compiler} {E : Env}
    (_ : c.env.hoist? ss = some E),
    Ends (hoist ss) c (fun _ c' => c'.env = E ∧ c.Silent c') stopped
  | [], c, _, h => Ends.of_pure ⟨Option.some.inj h, .refl c⟩
  | .function header body :: rest, c, E, h => by
      rw [Env.hoist?] at h
      split at h
      · cases h
      next hfresh =>
        rw [hoist]
        rw [Option.not_isSome_iff_eq_none] at hfresh
        refine Ends.bind_of_ok (checkFresh_eq hfresh) ?_
        refine Ends.discard_bind (define_ends _ _ _ c) ?_
        rintro x c₁ ⟨hdefine, hsilent⟩
        rw [hdefine] at h
        refine Ends.modify_bind ?_
        refine (hoist_of_hoist? rest h).imp ?_
        rintro _ c₂ ⟨henv, hrest⟩
        exact ⟨henv, hrest.code.trans hsilent.code, hrest.last.trans hsilent.last,
          hrest.enclosing.trans hsilent.enclosing⟩
  | .expr _ :: rest, _, _, h => hoist_of_hoist? rest h
  | .declare _ _ _ _ :: rest, _, _, h => hoist_of_hoist? rest h
  | .assign _ _ :: rest, _, _, h => hoist_of_hoist? rest h
  | .setIndex _ _ _ :: rest, _, _, h => hoist_of_hoist? rest h
  | .setField _ _ _ _ :: rest, _, _, h => hoist_of_hoist? rest h
  | .ret _ :: rest, _, _, h => hoist_of_hoist? rest h
  | .loop _ _ :: rest, _, _, h => hoist_of_hoist? rest h
  | .structType _ :: rest, _, _, h => hoist_of_hoist? rest h
  | .block _ :: rest, _, _, h => hoist_of_hoist? rest h

theorem declaredFunction_of_declared? {header : FunctionHeader} {x : Symbol} {E : Env}
    {c : Compiler} (h : c.env.declared? header = some (x, E)) :
    Ends (declaredFunction header) c (fun y c' => y = x ∧ c'.env = E ∧ c.Silent c') stopped := by
  refine Ends.get_bind ?_
  refine Ends.modify_bind ?_
  have hsame : (if c.env.hoisted.contains header.boundName then
      c.env.chain.current.get? header.boundName else none) =
      if c.current.hoisted.contains header.boundName then
        c.chain.current.get? header.boundName else none := rfl
  cases hbound : if c.current.hoisted.contains header.boundName then
    c.chain.current.get? header.boundName else none with
  | some y =>
      simp only [Env.declared?, hsame.trans hbound, Option.some.injEq, Prod.mk.injEq] at h
      obtain ⟨rfl, rfl⟩ := h
      exact Ends.of_pure ⟨rfl, rfl, rfl, rfl, rfl⟩
  | none =>
      simp only [Env.declared?, hsame.trans hbound] at h
      split at h
      · cases h
      next hfresh =>
        rw [Option.not_isSome_iff_eq_none] at hfresh
        refine Ends.bind_of_ok (checkFresh_eq hfresh) ?_
        refine (define_ends _ _ _ _).imp ?_
        rintro y c' ⟨hdefine, hsilent⟩
        have hboth : (y, c'.env) = (x, E) := hdefine.symm.trans (Option.some.inj h)
        exact ⟨congrArg Prod.fst hboth, congrArg Prod.snd hboth, hsilent.code, hsilent.last,
          hsilent.enclosing⟩

theorem literalType_eq {typeName : String} {initializers : List (String × Expr)}
    {st : StructType} {c : Compiler} (hknown : c.env.compiler.struct? typeName = some st)
    (hfields : (initializers.find? fun i => (st.fieldIndex? i.1).isNone) = none) :
    literalType typeName initializers c = .ok st c := by
  have hget : (get : CompileM Compiler) c = .ok c c := rfl
  have hstruct : c.struct? typeName = some st := hknown
  simp only [literalType, Bind.bind, EStateM.bind, hget, hstruct, hfields]
  rfl

theorem fieldIndex_eq {object : Expr} {field : String} {given : Option StructType} {i : Nat}
    {c : Compiler} (hindex : c.env.compiler.fieldIndex object field given = .ok i) :
    fieldIndex object field given c = .ok i c := by
  have hget : (get : CompileM Compiler) c = .ok c c := rfl
  rw [fieldIndex_env] at hindex
  simp only [fieldIndex, Bind.bind, EStateM.bind, hget, hindex]
  rfl

theorem checkAssignable_eq {x : Symbol} (hx : x.isAssignable = true) (c : Compiler) :
    checkAssignable x c = .ok () c := by
  rw [Symbol.isAssignable, Bool.and_eq_true] at hx
  obtain ⟨hdeclared, hmutable⟩ := hx
  rw [checkAssignable]
  cases hs : x.storage with
  | global | slot => simp only [hmutable]; rfl
  | captured | builtin | self => simp [Storage.isDeclared, hs] at hdeclared

theorem checkInFunction_eq {c : Compiler} (hdepth : c.env.chain.depth ≠ 0) :
    checkInFunction c = .ok () c := by
  have hget : (get : CompileM Compiler) c = .ok c c := rfl
  have hinside : c.chain.depth ≠ 0 := hdepth
  simp only [checkInFunction, Bind.bind, EStateM.bind, hget, hinside, if_false]
  rfl

theorem checkCondition_eq {condition : Expr} {c : Compiler}
    (hbool : c.env.compiler.typeOf condition = some .bool) :
    checkCondition condition c = .ok () c := by
  have hget : (get : CompileM Compiler) c = .ok c c := rfl
  rw [typeOf_env] at hbool
  simp only [checkCondition, Bind.bind, EStateM.bind, hget, hbool]
  rfl

end CompileM

namespace Compiler

/-- The compiler has written a piece of code and knows `E'`.  If the code is that of statements, the
compiler remembers its last instruction. -/
structure Wrote (c : Compiler) (isStatement : Bool) (t : Assembly) (E' : Env) (c' : Compiler) :
    Prop where
  env : c'.env = E'
  writes : c.Writes t c'
  remembers : isStatement = true → c.Remembers t c'

theorem WritesOp.wrote {c₀ c c' : Compiler} {t : Assembly} {i : Instruction} (h : c.WritesOp i c')
    (hw : c₀.Writes t c) (isStatement : Bool) :
    c₀.Wrote isStatement (t ++ .single i) c.env c' := by
  obtain ⟨hwrites, hremembers⟩ := h.after hw
  exact ⟨h.env, hwrites, fun _ => hremembers⟩

end Compiler

namespace CompileM

def Never (_ : Stop CompileError) (_ : Compiler) : Prop :=
  False

/-- From a compiler that knows `E` and is ready to begin, a computation writes the code `t`, if
there is room for it, and the compiler knows `E'` then. -/
def AcceptsFrom (ready : Compiler → Prop) (x : CompileM Unit) (isStatement : Bool) (E : Env)
    (t : Assembly) (E' : Env) : Prop :=
  ∀ c : Compiler, c.env = E → ready c → t.Writable c.current.code.size →
    Ends x c (fun _ c' => c.Wrote isStatement t E' c') Never

/-- The instruction written last is none that drops a value.  A block that is to leave a value
begins like this, so that it does not take an instruction before it for its own. -/
def NotAfterPop (c : Compiler) : Prop :=
  ∀ e, c.current.last = some e → e.opcode ≠ .pop

theorem NotAfterPop.of_writesOp {c c' : Compiler} {i : Instruction} (h : c.WritesOp i c')
    (hi : i.opcode ≠ .pop) : NotAfterPop c' := by
  intro e he
  obtain rfl := Option.some.inj (h.last.symm.trans he)
  exact hi

/-- The same for a computation that can begin anywhere. -/
def Accepts : CompileM Unit → Bool → Env → Assembly → Env → Prop :=
  AcceptsFrom fun _ => True

namespace Accepts

variable {x y : CompileM Unit} {b : Bool} {E E' E₁ E₂ E₃ : Env} {t u : Assembly}

/-! ## How computations are put together -/

theorem nothing (b : Bool) (E : Env) : Accepts (pure ()) b E .done E := by
  rintro c rfl - -
  exact Ends.of_pure ⟨rfl, (Silent.refl c).writes, fun _ => .of_silent (.refl c)⟩

theorem emit {op : Opcode} {ns : List Nat} :
    Accepts (CompileM.emit op ns) b E (.single ⟨op, ns⟩) E := by
  rintro c rfl - hwritable
  refine (emit_of_fitsFormat (Assembly.writable_single.mp hwritable) c).imp ?_
  intro _ c' hop
  exact hop.wrote (Silent.refl c).writes b

theorem emitConstant (w : Value) :
    Accepts (CompileM.emitConstant w) b E (.single ⟨.constant, [E.pool.size]⟩) (E.keep w) := by
  rintro c rfl - hwritable
  refine Ends.bind (addConstant_ends w c) ?_
  rintro _ c₁ ⟨rfl, henv, hsilent⟩
  refine (emit_of_fitsFormat (Assembly.writable_single.mp hwritable) c₁).imp ?_
  intro _ c₂ hop
  rw [← henv]
  exact hop.wrote hsilent.writes b

theorem load {z : Symbol} (hload : E.canLoad z = true) :
    Accepts (CompileM.load z) b E (.single z.load) E := by
  rintro c rfl - hwritable
  refine (load_of_fitsFormat hload (Assembly.writable_single.mp hwritable)).imp ?_
  intro _ c' hop
  exact hop.wrote (Silent.refl c).writes b

theorem store {z : Symbol} {i : Instruction} (hi : z.store? = some i) :
    Accepts (CompileM.store z) b E (.single i) E := by
  rintro c rfl - hwritable
  refine (store_of_fitsFormat hi (Assembly.writable_single.mp hwritable)).imp ?_
  intro _ c' hop
  exact hop.wrote (Silent.refl c).writes b

theorem bind (hx : Accepts x b E₁ t E₂) (hy : Accepts y b E₂ u E₃) :
    Accepts (x >>= fun _ => y) b E₁ (t ++ u) E₃ := by
  rintro c rfl - hwritable
  rw [Assembly.writable_append] at hwritable
  refine Ends.bind (hx c rfl trivial hwritable.1) ?_
  rintro _ c₁ ⟨rfl, hw₁, hr₁⟩
  refine (hy c₁ rfl trivial (hw₁.size.symm ▸ hwritable.2)).imp ?_
  rintro _ c₂ ⟨henv, hw₂, hr₂⟩
  exact ⟨henv, hw₁.trans hw₂, fun hb => (hr₁ hb).trans hw₁ (hr₂ hb)⟩

/-- Statements end with an instruction, whatever comes before it. -/
theorem thenLast {i : Instruction} (hx : Accepts x false E₁ t E₂)
    (hy : Accepts y true E₂ (.single i) E₃) :
    Accepts (x >>= fun _ => y) b E₁ (t ++ .single i) E₃ := by
  rintro c rfl - hwritable
  rw [Assembly.writable_append] at hwritable
  refine Ends.bind (hx c rfl trivial hwritable.1) ?_
  rintro _ c₁ ⟨rfl, hw₁, -⟩
  refine (hy c₁ rfl trivial (hw₁.size.symm ▸ hwritable.2)).imp ?_
  rintro _ c₂ ⟨henv, hw₂, hr₂⟩
  refine ⟨henv, hw₁.trans hw₂, fun _ => ?_⟩
  rcases hr₂ rfl with ⟨hdone, -⟩ | ⟨v, j, hlast, hj⟩
  · cases hdone
  · refine .inr ⟨t ++ v, j, by rw [hlast, Assembly.append_assoc], ?_⟩
    rw [hj, hw₁.size, Assembly.size_append, Nat.add_assoc]

/-- A check that succeeds. -/
theorem check {α : Type} {z : CompileM α} {a : α} {f : α → CompileM Unit}
    (hz : ∀ c : Compiler, c.env = E → z c = .ok a c) (hf : Accepts (f a) b E t E') :
    Accepts (z >>= f) b E t E' := by
  rintro c rfl - hwritable
  exact Ends.bind_of_ok (hz c rfl) (hf c rfl trivial hwritable)

/-- A step that writes nothing. -/
theorem silent {α : Type} {z : CompileM α} {a : α} {f : α → CompileM Unit}
    (hz : ∀ c : Compiler, c.env = E₁ →
      Ends z c (fun a' c' => a' = a ∧ c'.env = E₂ ∧ c.Silent c') Never)
    (hf : Accepts (f a) b E₂ t E₃) : Accepts (z >>= f) b E₁ t E₃ := by
  rintro c rfl - hwritable
  refine Ends.bind (hz c rfl) ?_
  rintro _ c₁ ⟨rfl, rfl, hsilent⟩
  refine (hf c₁ rfl trivial (hsilent.code.symm ▸ hwritable)).imp ?_
  rintro _ c₂ ⟨henv, hw, hr⟩
  refine ⟨henv, .of_silent hsilent hw, fun hb => ?_⟩
  have hremembers := Remembers.trans hsilent.writes (.of_silent hsilent) (hr hb)
  rwa [Assembly.done_append] at hremembers

theorem struct {st : StructType} {n : Nat} :
    Accepts (structConstant st >>= fun k => CompileM.emit .struct [k, n]) b E
      (.single ⟨.struct, [(E.structConstant st).1, n]⟩) (E.structConstant st).2 := by
  refine silent (fun c hc => (structConstant_ends st c).imp ?_) emit
  rintro k c' ⟨hconstant, hsilent⟩
  rw [← hc, hconstant]
  exact ⟨rfl, rfl, hsilent⟩

/-- A name is declared and its value is stored. -/
theorem defineThenStore {name : String} {isMutable : Bool} {ty : Option Ty} {i : Instruction}
    (hi : (E.define name isMutable ty).1.store? = some i) :
    Accepts (define name isMutable ty >>= fun z => CompileM.store z) b E (.single i)
      (E.define name isMutable ty).2 := by
  refine silent (fun c hc => (define_ends name isMutable ty c).imp ?_) (store hi)
  rintro z c' ⟨hdefine, hsilent⟩
  rw [← hc, hdefine]
  exact ⟨rfl, rfl, hsilent⟩

/-- A block that leaves a value. -/
theorem branch (hx : Accepts x true E t E') (hvalue : t.LeavesValue u) :
    AcceptsFrom NotAfterPop (x >>= fun _ => closeBranch) false E u E' := by
  rintro c rfl hready hwritable
  refine Ends.bind (hx c rfl trivial (hvalue.writable hwritable)) ?_
  rintro _ c₁ ⟨rfl, hw, hr⟩
  refine (closeBranch_ends hw (hr rfl) hready).imp ?_
  rintro _ c₂ ⟨henv, u', hvalue', hw'⟩
  rw [hvalue.unique hvalue']
  exact ⟨henv, hw', fun h => absurd h Bool.false_ne_true⟩

/-- A choice. -/
theorem choice {z : CompileM Unit} {E₄ : Env} {v : Assembly} (hx : Accepts x false E₁ t E₂)
    (hy : AcceptsFrom NotAfterPop y false E₂ u E₃) (hz : AcceptsFrom NotAfterPop z false E₃ v E₄) :
    Accepts (do
      x
      let toAlternative ← emitJump .jumpNotTruthy
      y
      let toEnd ← emitJump .jump
      patchJump toAlternative
      z
      patchJump toEnd) false E₁ (.choice t u v .done) E₄ := by
  rintro c rfl - hwritable
  obtain ⟨htest, hbranch, hyes, hend, hno, -⟩ := Assembly.writable_choice.mp hwritable
  refine Ends.bind (hx c rfl trivial htest) ?_
  rintro _ c₁ ⟨rfl, hw₁, -⟩
  refine Ends.bind (emitJump_of_isJump rfl c₁) ?_
  rintro _ c₂ ⟨rfl, hop₂⟩
  have hsize₂ : c₂.current.code.size = c.current.code.size + t.size + 3 := by
    rw [hop₂.writes.size, hw₁.size, Assembly.size_single, Instruction.width_jumpNotTruthy]
  refine Ends.bind (hy c₂ hop₂.env (.of_writesOp hop₂ (by decide)) (hsize₂ ▸ hyes)) ?_
  rintro _ c₃ ⟨rfl, hw₃, -⟩
  have hsize₃ : c₃.current.code.size = c.current.code.size + t.size + 3 + u.size := by
    rw [hw₃.size, hsize₂]
  refine Ends.bind (emitJump_of_isJump rfl c₃) ?_
  rintro _ c₄ ⟨rfl, hop₄⟩
  have hsize₄ : c₄.current.code.size = c.current.code.size + t.size + 3 + u.size + 3 := by
    rw [hop₄.writes.size, hsize₃, Assembly.size_single, Instruction.width_jump]
  have hall := hw₁.trans (hop₂.writes.trans (hw₃.trans hop₄.writes))
  rw [hw₁.size]
  refine Ends.bind (patchJump_of_fitsFormat rfl hall (hsize₄ ▸ hbranch)) ?_
  rintro _ c₅ ⟨henv₅, hlast₅, hpatched⟩
  have hsize₅ : c₅.current.code.size = c₄.current.code.size := by
    rw [hpatched.size, hall.size]
    simp only [Assembly.size_append, Assembly.size_single, Instruction.width_jumpNotTruthy]
  have hready₅ : NotAfterPop c₅ := by
    have hready₄ := NotAfterPop.of_writesOp hop₄ (by decide)
    rwa [NotAfterPop, ← hlast₅] at hready₄
  have hno₅ : v.Writable c₅.current.code.size := by
    rw [hsize₅, hsize₄]
    exact hno
  refine Ends.bind (hz c₅ (henv₅.trans hop₄.env) hready₅ hno₅) ?_
  rintro _ c₆ ⟨rfl, hw₆, -⟩
  refine (patchChoice_of_encode hpatched hw₆ hsize₅.symm hsize₃ fun e he => ?_).imp ?_
  · obtain ⟨bytes, hbytes⟩ := Instruction.exists_encode_iff.mpr hend
    rw [hw₆.size, hsize₅, hsize₄] at he
    rw [Instruction.encode, he] at hbytes
    cases hbytes
  · rintro _ c₇ ⟨henv₇, hw₇⟩
    exact ⟨henv₇, hw₇, fun h => absurd h Bool.false_ne_true⟩

/-- A loop, which leaves null to be dropped. -/
theorem loop (hx : Accepts x false E₁ t E₂) (hy : Accepts y true E₂ u E₃) :
    Accepts (do
      let start ← position
      x
      let toEnd ← emitJump .jumpNotTruthy
      y
      CompileM.emit .jump [start]
      patchJump toEnd
      CompileM.emit .pushNull []
      CompileM.emit .pop []) true E₁ (.loop t u (.single ⟨.pushNull, []⟩) ++ .single ⟨.pop, []⟩)
        E₃ := by
  rintro c rfl - hwritable
  rw [Assembly.writable_append] at hwritable
  obtain ⟨htest, hbranch, hbody, hback, -⟩ := Assembly.writable_loop.mp hwritable.1
  refine Ends.bind (Ends.of_ok rfl ⟨rfl, rfl⟩ : Ends position c
    (fun start c' => start = c.current.code.size ∧ c = c') Never) ?_
  rintro _ _ ⟨rfl, rfl⟩
  refine Ends.bind (hx c rfl trivial htest) ?_
  rintro _ c₁ ⟨rfl, hw₁, -⟩
  refine Ends.bind (emitJump_of_isJump rfl c₁) ?_
  rintro _ c₂ ⟨rfl, hop₂⟩
  have hsize₂ : c₂.current.code.size = c.current.code.size + t.size + 3 := by
    rw [hop₂.writes.size, hw₁.size, Assembly.size_single, Instruction.width_jumpNotTruthy]
  refine Ends.bind (hy c₂ hop₂.env trivial (hsize₂ ▸ hbody)) ?_
  rintro _ c₃ ⟨rfl, hw₃, -⟩
  refine Ends.bind (emit_of_fitsFormat hback c₃) ?_
  intro _ c₄ hop₄
  have hsize₄ : c₄.current.code.size = c.current.code.size + t.size + 3 + u.size + 3 := by
    rw [hop₄.writes.size, hw₃.size, hsize₂, Assembly.size_single, Instruction.width_jump]
  have hall := hw₁.trans (hop₂.writes.trans (hw₃.trans hop₄.writes))
  rw [hw₁.size]
  refine Ends.bind (patchJump_of_fitsFormat rfl hall (hsize₄ ▸ hbranch)) ?_
  rintro _ c₅ ⟨henv₅, -, hpatched⟩
  have hloop : c.Writes (.loop t u .done) c₅ := by
    refine hpatched.of_instrs_eq ?_
    rw [hall.size]
    simp [Assembly.instrs_append, Assembly.instrs, Nat.add_assoc]
  refine Ends.bind (emit_of_fitsFormat (by decide) c₅) ?_
  intro _ c₆ hop₆
  refine (emit_of_fitsFormat (by decide) c₆).imp ?_
  intro _ c₇ hop₇
  have henv₆ : c₆.env = c₃.env := hop₆.env.trans (henv₅.trans hop₄.env)
  rw [← henv₆]
  exact hop₇.wrote (hloop.trans hop₆.writes) true

/-- The body of a function is compiled in a scope of its own, which is closed again. -/
theorem body_then {name : Option String} {signature : Signature} {scope : Scope}
    {chain : ScopeChain} {code : Code} {c c₁ : Compiler} {k : Code × Scope → CompileM Unit}
    {done : Unit → Compiler → Prop} (hx : Accepts x true (c.env.enter name signature) t E')
    (hreturns : t.Returns u) (hcode : Code.Adds .empty (u.instrs 0) code)
    (hpop : E'.chain.pop? = some (scope, chain))
    (henv : c₁.env.withParameters signature.parameters = c.env.enter name signature)
    (hempty : c₁.current.code = .empty) (hlast : c₁.current.last = none)
    (henclosing : c₁.enclosing = c.current :: c.enclosing)
    (hk : ∀ c₂ : Compiler, c₂.env = { E' with chain, hoisted := c.env.hoisted } → c.Silent c₂ →
      Ends (k (code, scope)) c₂ done Never) :
    Ends (defineParameters signature.parameters >>= fun _ => x >>= fun _ =>
      closeBody >>= fun _ => leave >>= k) c₁ done Never := by
  refine Ends.bind (defineParameters_ends _ c₁) ?_
  rintro _ c₂ ⟨henv₂, hsilent⟩
  have hstart : c₂.current.code = .empty := hsilent.code.trans hempty
  have hwritable : t.Writable c₂.current.code.size := by
    rw [hstart]
    exact hreturns.writable (Assembly.writable_of_adds hcode)
  refine Ends.bind (hx c₂ (henv₂.trans henv) trivial hwritable) ?_
  rintro _ c₃ ⟨henv₃, hw, hr⟩
  refine Ends.bind (closeBody_ends hw (hr rfl) (hsilent.last.trans hlast)) ?_
  rintro _ c₄ ⟨henv₄, u', hreturns', hw₄⟩
  obtain rfl := hreturns.unique hreturns'
  have hpop₄ : c₄.chain.pop? = some (scope, chain) := by
    have hchain : c₄.chain = E'.chain := congrArg Env.chain (henv₄.trans henv₃)
    rw [hchain, hpop]
  have houter : c₄.enclosing = c.current :: c.enclosing :=
    hw₄.enclosing.trans (hsilent.enclosing.trans henclosing)
  have hadds := hw₄.adds
  rw [hstart] at hadds
  refine Ends.bind (leave_ends hpop₄ houter) ?_
  rintro _ c₅ ⟨rfl, rfl⟩
  rw [hadds.unique hcode]
  refine hk _ ?_ ⟨rfl, rfl, rfl⟩
  rw [← henv₃, ← henv₄]
  rfl

/-- A closure is built of a function that has been compiled. -/
theorem closure {scope : Scope} {c c₂ : Compiler} {f : Function}
    (hreadable : ∀ z ∈ scope.captures, c₂.env.canLoad z = true) (hsilent : c.Silent c₂)
    (hcaptures : (Assembly.ofList (scope.captures.map Symbol.load)).Writable c.current.code.size)
    (hformat : (⟨.closure, [c₂.env.pool.size, scope.captures.length]⟩ : Instruction).FitsFormat) :
    Ends (loadAll scope.captures >>= fun _ => get >>= fun c =>
      addConstant (.function ⟨c.pool.size, f⟩) >>= fun constant =>
        CompileM.emit .closure [constant, scope.captures.length]) c₂
      (fun _ c' => c.Wrote false
        (.ofList (scope.captures.map Symbol.load) ++
          .single ⟨.closure, [c₂.env.pool.size, scope.captures.length]⟩)
        (c₂.env.keep (.function ⟨c₂.env.pool.size, f⟩)) c') Never := by
  refine Ends.bind (loadAll_of_writable hreadable (hsilent.code.symm ▸ hcaptures)) ?_
  rintro _ c₃ ⟨henv₃, hw⟩
  refine Ends.get_bind ?_
  refine Ends.bind (addConstant_ends _ c₃) ?_
  rintro _ c₄ ⟨rfl, henv₄, hsilent₄⟩
  have hpool : c₃.pool.size = c₂.env.pool.size := congrArg (fun E => E.pool.size) henv₃
  rw [henv₃]
  refine (emit_of_fitsFormat hformat c₄).imp ?_
  intro _ c₅ hop
  have hwrote := hop.wrote ((Writes.of_silent hsilent hw).then_silent hsilent₄) false
  rw [henv₄, henv₃, hpool] at hwrote
  exact hwrote

/-- A function is compiled and a closure is built of it. -/
theorem function {name : Option String} {signature : Signature} {scope : Scope}
    {chain : ScopeChain} {code : Code} (hx : Accepts x true (E.enter name signature) t E')
    (hreturns : t.Returns u) (hcode : Code.Adds .empty (u.instrs 0) code)
    (hpop : E'.chain.pop? = some (scope, chain))
    (hreadable : ∀ z ∈ scope.captures,
      { E' with chain, hoisted := E.hoisted }.canLoad z = true) :
    Accepts (CompileM.function name signature x) false E
      (.ofList (scope.captures.map Symbol.load) ++
        .single ⟨.closure, [E'.pool.size, scope.captures.length]⟩)
      ({ E' with chain, hoisted := E.hoisted }.keep (.function ⟨E'.pool.size,
        { code
          locals := scope.definitions
          parameters := signature.parameters.length
          name }⟩)) := by
  rintro c rfl - hwritable
  rw [Assembly.writable_append, Assembly.writable_single] at hwritable
  have hclosure (c₂ : Compiler) (henv : c₂.env = { E' with chain, hoisted := c.env.hoisted })
      (hsilent : c.Silent c₂) (f : Function) := by
    have hbuilt := closure (f := f) (henv.symm ▸ hreadable) hsilent hwritable.1
      (henv.symm ▸ hwritable.2)
    rw [henv] at hbuilt
    exact hbuilt
  rw [CompileM.function]
  refine Ends.modify_bind ?_
  cases name with
  | none =>
      exact body_then hx hreturns hcode hpop rfl rfl rfl rfl fun c₂ h₂ hs => hclosure c₂ h₂ hs _
  | some name =>
      refine Ends.modify_bind ?_
      exact body_then hx hreturns hcode hpop rfl rfl rfl rfl fun c₂ h₂ hs => hclosure c₂ h₂ hs _

end Accepts

end CompileM

/-! ## Phrases -/

namespace Phrase

open CompileM

/-- How the compiler compiles a phrase. -/
def action : Phrase → CompileM Unit
  | .expr bound e => CompileM.expr bound e
  | .use name => do load (← resolve name (.undefinedVariable name))
  | .exprs es => CompileM.exprs es
  | .pairs ps => exprPairs ps
  | .fields fs initializers => fs.forM fun f => initializer f initializers
  | .field f initializers => initializer f initializers
  | .zero ty => zeroValue ty
  | .zeros fs => zeroFields fs
  | .branch body | .otherwise (some body) => do
      CompileM.block body
      closeBranch
  | .otherwise none => emit .pushNull []
  | .closure name signature body => CompileM.function name signature (CompileM.block body)
  | .stmt s => CompileM.stmt s
  | .stmts ss => CompileM.stmts ss
  | .block body => CompileM.block body

/-- Where the compiler can begin with a phrase. -/
def CanBegin : Phrase → Compiler → Prop
  | .branch _ | .otherwise _ => NotAfterPop
  | _ => fun _ => True

end Phrase

namespace CompileM

theorem expr_cond_eq (bound : Option String) (condition : Expr) (yes : List Stmt)
    (no : Option (List Stmt)) :
    expr bound (.cond condition yes no) = (do
      expr none condition
      let toAlternative ← emitJump .jumpNotTruthy
      (Phrase.branch yes).action
      let toEnd ← emitJump .jump
      patchJump toAlternative
      (Phrase.otherwise no).action
      patchJump toEnd) := by
  rw [expr_cond]
  cases no <;> simp only [Phrase.action, block, bind_assoc]

theorem stmt_loop_eq (condition : Expr) (body : List Stmt) :
    stmt (.loop condition body) = (do
      checkCondition condition
      let start ← position
      expr none condition
      let toEnd ← emitJump .jumpNotTruthy
      block body
      emit .jump [start]
      patchJump toEnd
      emit .pushNull []
      emit .pop []) := by
  simp only [block, bind_assoc]
  rfl

theorem zeroValueOf_eq (ty : Option Ty) : zeroValueOf ty = zeroValue (ty.getD .null) := by
  cases ty with
  | none => simp only [zeroValueOf, Option.getD_none, zeroValue]
  | some ty => rfl

end CompileM

open CompileM in
/-- Where the rules give code for a phrase, the compiler writes it. -/
theorem Compiles.accepts {E E' : Env} {p : Phrase} {t : Assembly} (h : Compiles E p t E') :
    AcceptsFrom p.CanBegin p.action p.isStatement E t E' := by
  induction h with
  | int | float | str => exact Accepts.emitConstant _
  | zeroInt | zeroFloat | zeroString =>
      rw [Phrase.action, zeroValue]
      exact Accepts.emitConstant _
  | boolTrue | boolFalse | null => exact Accepts.emit
  | nothing =>
      rintro c rfl - hwritable
      exact Accepts.emit c rfl trivial hwritable
  | zeroBool | zeroArray | zeroHash =>
      rw [Phrase.action, zeroValue]
      exact Accepts.emit
  | zeroNull | zeroFunc =>
      simp only [Phrase.action, zeroValue]
      exact Accepts.emit
  | use resolved readable =>
      exact Accepts.silent (fun c hc => resolve_of_resolve? (hc.symm ▸ resolved) _)
        (Accepts.load readable)
  | ident _ ih | fieldZero _ ih | inner _ ih | function _ ih | otherwise _ ih => exact ih
  | unary _ ih | array _ ih | hash _ ih | expr _ ih => exact Accepts.thenLast ih Accepts.emit
  | binary inOrder _ _ ih₁ ih₂ =>
      rw [Phrase.action, expr_binary, inOrder]
      exact Accepts.bind ih₁ (Accepts.thenLast ih₂ Accepts.emit)
  | swapped reversed _ _ ih₁ ih₂ =>
      rw [Phrase.action, expr_binary, reversed]
      exact Accepts.bind ih₁ (Accepts.thenLast ih₂ Accepts.emit)
  | cond _ _ _ ih₁ ih₂ ih₃ =>
      rw [Phrase.action, expr_cond_eq]
      exact Accepts.choice ih₁ ih₂ ih₃
  | branch _ value ih => exact Accepts.branch ih value
  | callNamed named function _ _ ih =>
      cases function with
      | use resolved readable =>
          rw [Phrase.action, expr_call, named]
          exact Accepts.silent (fun c hc => resolve_of_resolve? (hc.symm ▸ resolved) _)
            (Accepts.bind (Accepts.load readable) (Accepts.thenLast ih Accepts.emit))
  | callValue unnamed _ _ ih₁ ih₂ =>
      rw [Phrase.action, expr_call, unnamed]
      exact Accepts.bind ih₁ (Accepts.thenLast ih₂ Accepts.emit)
  | index _ _ ih₁ ih₂ => exact Accepts.bind ih₁ (Accepts.thenLast ih₂ Accepts.emit)
  | struct known fieldsKnown _ ih =>
      exact Accepts.check (fun c hc => literalType_eq (hc.symm ▸ known) fieldsKnown)
        (Accepts.bind ih Accepts.struct)
  | select found _ ih =>
      exact Accepts.check (fun c hc => fieldIndex_eq (hc.symm ▸ found))
        (Accepts.thenLast ih Accepts.emit)
  | exprsNil | pairsNil | fieldsNil | stmtsNil => exact Accepts.nothing _ _
  | zerosNil =>
      rw [Phrase.action, zeroFields]
      exact Accepts.nothing _ _
  | exprsCons _ _ ih₁ ih₂ | fieldsCons _ _ ih₁ ih₂ | stmtsCons _ _ ih₁ ih₂ =>
      exact Accepts.bind ih₁ ih₂
  | zerosCons _ _ ih₁ ih₂ =>
      rw [Phrase.action, zeroFields]
      exact Accepts.bind ih₁ ih₂
  | pairsCons _ _ _ ih₁ ih₂ ih₃ => exact Accepts.bind ih₁ (Accepts.bind ih₂ ih₃)
  | fieldGiven _ ih =>
      rw [Phrase.action, initializer_cons, if_pos rfl]
      exact ih
  | fieldLater other _ ih =>
      rw [Phrase.action, initializer_cons, if_neg other]
      exact ih
  | zeroStruct _ ih =>
      rw [Phrase.action, zeroValue]
      exact Accepts.bind ih Accepts.struct
  | closure _ returns written left readable ih =>
      exact Accepts.function ih returns written left readable
  | declare fresh _ store ih =>
      refine Accepts.check (fun c hc => checkFresh_eq (hc.symm ▸ fresh)) ?_
      refine Accepts.check (a := _ <|> Compiler.typeOf _ _) ?_
        (Accepts.thenLast ih (Accepts.defineThenStore store))
      rintro c rfl
      rw [typeOf_env]
      rfl
  | declareZero fresh _ store ih =>
      refine Accepts.check (fun c hc => checkFresh_eq (hc.symm ▸ fresh)) ?_
      rw [zeroValueOf_eq]
      exact Accepts.thenLast ih (Accepts.defineThenStore store)
  | assign resolved assignable _ store ih =>
      exact Accepts.silent (fun c hc => resolve_of_resolve? (hc.symm ▸ resolved) _)
        (Accepts.check (fun c _ => checkAssignable_eq assignable c)
          (Accepts.thenLast ih (Accepts.store store)))
  | setIndex _ _ _ ih₁ ih₂ ih₃ =>
      have hall := Accepts.thenLast (b := true) (Accepts.bind (Accepts.bind ih₁ ih₂) ih₃)
        (@Accepts.emit _ _ .setIndex [])
      simp only [bind_assoc, Assembly.append_assoc] at hall
      exact hall
  | @setField _ _ _ _ _ _ _ i _ _ found _ _ ih₁ ih₂ =>
      have hall := Accepts.thenLast (b := true) (Accepts.bind ih₁ ih₂)
        (@Accepts.emit _ _ .setField [i])
      simp only [bind_assoc, Assembly.append_assoc] at hall
      exact Accepts.check (fun c hc => fieldIndex_eq (hc.symm ▸ found)) hall
  | ret inFunction _ ih =>
      exact Accepts.check (fun c hc => checkInFunction_eq (hc.symm ▸ inFunction))
        (Accepts.thenLast ih Accepts.emit)
  | retNull inFunction =>
      exact Accepts.check (fun c hc => checkInFunction_eq (hc.symm ▸ inFunction)) Accepts.emit
  | loop boolean _ _ ih₁ ih₂ =>
      rw [Phrase.action, stmt_loop_eq]
      exact Accepts.check (fun c hc => checkCondition_eq (hc.symm ▸ boolean))
        (Accepts.loop ih₁ ih₂)
  | declareFunction bound _ store ih =>
      exact Accepts.silent (fun c hc => declaredFunction_of_declared? (hc.symm ▸ bound))
        (Accepts.thenLast ih (Accepts.store store))
  | structType type =>
      rintro c rfl - -
      have hsilent : c.Silent { c with
          pool := c.pool.push (.structType ⟨c.pool.size, type⟩)
          structs := c.structs.insert type.name ⟨type, c.pool.size⟩ } := ⟨rfl, rfl, rfl⟩
      exact Ends.of_discard (Ends.of_ok rfl ⟨rfl, hsilent.writes, fun _ => .of_silent hsilent⟩)
  | block hoisted _ ih =>
      refine Accepts.silent (a := ()) (fun c hc => ?_) ih
      exact (hoist_of_hoist? _ (hc.symm ▸ hoisted)).imp fun _ _ h => ⟨rfl, h⟩

/-- A program is accepted on its own if it compiles to code that can be written. -/
theorem compileProgram_of_compiles {program : Program} {t : Assembly} {E : Env}
    (h : Compiles Compiler.new.env (.block program) t E) (hwritable : t.Writable 0) :
    ∃ unit, compileProgram program = .ok unit ∧
      CompilesUnit Compiler.new.env program t E unit := by
  have haccepted := h.accepts Compiler.new rfl trivial hwritable
  unfold compileProgram Compiler.compile
  cases hrun : CompileM.block program Compiler.new with
  | error stop c => exact (haccepted.error hrun).elim
  | ok v c =>
      obtain ⟨henv, hwrites, -⟩ := haccepted.ok hrun
      have hsize : c.current.code.size = t.size := by
        rw [hwrites.size]
        exact Nat.zero_add _
      exact ⟨⟨c.current.code, c.pool⟩, rfl, h, congrArg Env.pool henv, hwrites.adds.contains, hsize⟩

end ScriptEngine
