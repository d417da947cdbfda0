import Mathlib.Logic.Relation
import ScriptEngine.Proofs.Compile.Resumption
import ScriptEngine.Proofs.Compile.Tidiness

/-!
# What the compiler remembers of its code

While the compiler writes, it remembers its last instruction, and where the jumps are that have no
target yet.  Both are always right.  The plans of all parts of the compiler keep codes tidy, and
their edits fit (`CompileM.keeps_block`); in particular an expression never ends with an instruction
that may be taken back, so that two of these never follow each other.  Hence the codes are in order
at every point of every compilation, and every edit meets what it is meant for
(`Compiler.compile_inOrder`).
-/

namespace ScriptEngine

open CompileM

/-! ## Procedures whose edits fit -/

namespace Procedure

variable {α β : Type}

/-- If the procedure is carried out, every edit fits, and what is stated holds in the end. -/
def Sound : Procedure α → Compiler → Pending → (α → Compiler → Pending → Prop) → Prop
  | done a, c, p, post => post a c p
  | look x _ next, c, p, post => ∀ b c', x c = .ok b c' → (next b).Sound c' p post
  | edit e next, c, p, post =>
      e.Fits c p ∧ ∀ b c', e.run c = .ok b c' → (next b).Sound c' (e.pending b p) post

namespace Sound

variable {procedure : Procedure α} {c : Compiler} {p : Pending}
  {between : α → Compiler → Pending → Prop}

theorem bind {next : α → Procedure β} {post : β → Compiler → Pending → Prop}
    (h : procedure.Sound c p between)
    (hnext : ∀ a c' p', between a c' p' → (next a).Sound c' p' post) :
    (procedure.bind next).Sound c p post := by
  induction procedure generalizing c p with
  | done a => exact hnext a c p h
  | look x hx rest ih => exact fun b c' hrun => ih b (h b c' hrun)
  | edit e rest ih => exact ⟨h.1, fun b c' hrun => ih b (h.2 b c' hrun)⟩

theorem imp {post : α → Compiler → Pending → Prop} (h : procedure.Sound c p between)
    (himp : ∀ a c' p', between a c' p' → post a c' p') : procedure.Sound c p post := by
  induction procedure generalizing c p with
  | done a => exact himp a c p h
  | look x hx rest ih => exact fun b c' hrun => ih b (h b c' hrun)
  | edit e rest ih => exact ⟨h.1, fun b c' hrun => ih b (h.2 b c' hrun)⟩

end Sound

end Procedure

namespace Plan

/-! ## Plans that keep codes tidy -/

variable {α β : Type} {c : Compiler} {p : Pending}

/-- From tidy codes the plan leads to tidy codes, and the jumps without a target are the same. -/
def Keeps {x : CompileM α} (plan : Plan x) (post : Compiler → Prop) : Prop :=
  ∀ (c : Compiler) (p : Pending), c.Tidy p →
    plan.procedure.Sound c p fun _ c' p' => p' = p ∧ c'.Tidy p ∧ post c'

/-- The last instruction is not one that may be taken back. -/
def NotPop (c : Compiler) : Prop :=
  c.current.lastOpcode? ≠ some .pop

def Always (_ : Compiler) : Prop :=
  True

section

variable {x : CompileM α} {f : α → CompileM β} {plan : Plan x} {next : ∀ a, Plan (f a)}
  {between post : Compiler → Prop} {done : β → Compiler → Pending → Prop}

theorem Keeps.sound_bind (h : plan.Keeps between) (hc : c.Tidy p)
    (hnext : ∀ a c', c'.Tidy p → between c' → (next a).procedure.Sound c' p done) :
    (plan.bind next).procedure.Sound c p done := by
  refine Procedure.Sound.bind (h c p hc) ?_
  rintro a c' _ ⟨rfl, hc', hbetween⟩
  exact hnext a c' hc' hbetween

theorem Keeps.bind (h : plan.Keeps between) (hnext : ∀ a, (next a).Keeps post) :
    (plan.bind next).Keeps post := by
  intro c p hc
  exact h.sound_bind hc fun a c' hc' _ => hnext a c' p hc'

theorem Keeps.always (h : plan.Keeps post) : plan.Keeps Always := by
  intro c p hc
  refine (h c p hc).imp ?_
  rintro _ c' p' ⟨hp', hc', -⟩
  exact ⟨hp', hc', trivial⟩

theorem keeps_pure (a : α) : (Plan.pure a).Keeps Always := by
  intro c p hc
  exact ⟨rfl, hc, trivial⟩

theorem keeps_look (hx : LeavesCode x) : (look hx).Keeps Always := by
  intro c p hc b c' hrun
  exact ⟨rfl, ((hx c).ok hrun).tidy hc, trivial⟩

theorem Keeps.ite {q : Prop} [Decidable q] {x y : CompileM α} {yes : Plan x} {no : Plan y}
    (hyes : yes.Keeps post) (hno : no.Keeps post) : (ite q yes no).Keeps post := by
  intro c p hc
  change (if q then yes.procedure else no.procedure).Sound c p _
  split
  · exact hyes c p hc
  · exact hno c p hc

/-! ### Jumps and their targets -/

theorem sound_jump {f : Nat → CompileM β} {next : ∀ offset, Plan (f offset)} {op : Opcode}
    (hc : c.Tidy p) (hop : op.isJump = true)
    (hnext : ∀ offset c', c'.Tidy (p.add op offset) → (∀ j ∈ p.current, j.position < offset) →
      (next offset).procedure.Sound c' (p.add op offset) done) :
    (bind (edit (.jump op)) next).procedure.Sound c p done := by
  refine ⟨hop, fun offset c' hrun => ?_⟩
  obtain ⟨hc', hearlier⟩ := (emitJump_tidy hc hop).ok hrun
  exact hnext offset c' hc' hearlier

/-- The jump at an offset gets its target, and those that are left are known. -/
theorem sound_patch {post : Unit → Compiler → Pending → Prop} {op : Opcode} {offset : Nat}
    {left : Pending} (hc : c.Tidy p) (hj : ⟨op, offset⟩ ∈ p.current)
    (hleft : p.remove offset = left)
    (hpost : ∀ c' : Compiler, c'.Tidy left →
      c'.current.lastOpcode? = c.current.lastOpcode? → post () c' left) :
    (edit (.patch offset)).procedure.Sound c p post := by
  subst hleft
  refine ⟨⟨_, hj, rfl⟩, fun _ c' hrun => ?_⟩
  obtain ⟨hc', hlast⟩ := (patchJump_tidy hc ⟨_, hj, rfl⟩).ok hrun
  exact hpost c' hc' hlast

end

end Plan

open Plan

/-! ## The plans of the compiler -/

theorem PrefixOp.opcode_ne_pop (op : PrefixOp) : op.opcode ≠ .pop := by
  cases op <;> decide

theorem InfixOp.opcode_ne_pop (op : InfixOp) : op.opcode ≠ .pop := by
  cases op <;> decide

theorem Symbol.store?_opcode_ne_pop {x : Symbol} {i : Instruction} (h : x.store? = some i) :
    i.opcode ≠ .pop := by
  unfold Symbol.store? at h
  split at h <;> cases h <;> simp

namespace CompileM

theorem loadOf_ne_pop (x : Symbol) : (loadOf x).1 ≠ .pop := by
  unfold loadOf
  split <;> simp

theorem keeps_fail {α : Type} (e : CompileError) (post : Compiler → Prop) :
    (look (.fail e : LeavesCode (fail e : CompileM α))).Keeps post := by
  intro c p _ b c' hrun
  cases hrun

theorem keeps_emit {op : Opcode} {ns : List Nat} (hop : op ≠ .pop) :
    (planEmit op ns).Keeps NotPop := by
  intro c p hc
  have hfits : op = .pop → c.current.lastOpcode? ≠ some .pop := fun h => absurd h hop
  refine ⟨hfits, fun _ c' hrun => ?_⟩
  obtain ⟨hc', hlast⟩ := (emit_tidy hc ns hfits).ok hrun
  refine ⟨rfl, hc', ?_⟩
  rw [NotPop, hlast]
  exact fun h => hop (Option.some.inj h)

/-- What may be taken back is written after something that may not. -/
theorem sound_emit_pop {c : Compiler} {p : Pending} (hc : c.Tidy p) (hnot : NotPop c) :
    (planEmit .pop []).procedure.Sound c p fun _ c' p' => p' = p ∧ c'.Tidy p ∧ Always c' := by
  have hends : Ends (emit .pop []) c _ _ := emit_tidy hc [] fun _ => hnot
  exact ⟨fun _ => hnot, fun _ c' hrun => ⟨rfl, (hends.ok hrun).1, trivial⟩⟩

theorem keeps_emitConstant (v : Value) : (planEmitConstant v).Keeps NotPop :=
  .bind (keeps_look _) fun _ => keeps_emit (by decide)

theorem keeps_load (x : Symbol) : (planLoad x).Keeps NotPop :=
  .bind (keeps_look _) fun _ => .ite (keeps_fail _ _) (keeps_emit (loadOf_ne_pop x))

theorem keeps_loadAll : ∀ xs : List Symbol, (planLoadAll xs).Keeps Always
  | [] => keeps_pure _
  | x :: xs => .bind (keeps_load x) fun _ => keeps_loadAll xs

theorem keeps_store (x : Symbol) : (planStore x).Keeps Always := by
  intro c p hc
  simp only [planStore]
  split
  · rename_i i hstore
    exact (keeps_emit (Symbol.store?_opcode_ne_pop hstore)).always c p hc
  · exact keeps_fail _ _ c p hc

mutual

theorem keeps_zeroValue : ∀ ty : Ty, (planZeroValue ty).Keeps NotPop
  | .int | .float | .string => keeps_emitConstant _
  | .bool | .null | .array _ | .hash _ _ | .func _ _ => keeps_emit (by decide)
  | .struct _ fields =>
      .bind (keeps_zeroFields fields) fun _ => .bind (keeps_look _) fun _ => keeps_emit (by decide)

theorem keeps_zeroFields : ∀ fields : List (String × Ty), (planZeroFields fields).Keeps Always
  | [] => keeps_pure _
  | (_, ty) :: fields => .bind (keeps_zeroValue ty) fun _ => keeps_zeroFields fields

end

theorem keeps_zeroValueOf : ∀ ty : Option Ty, (planZeroValueOf ty).Keeps NotPop
  | some ty => keeps_zeroValue ty
  | none => keeps_emit (by decide)

theorem sound_lastIs {β : Type} {op : Opcode} {f : Bool → CompileM β} {next : ∀ b, Plan (f b)}
    {done : β → Compiler → Pending → Prop} {c : Compiler} {p : Pending}
    (hyes : c.current.lastOpcode? = some op → (next true).procedure.Sound c p done)
    (hno : c.current.lastOpcode? ≠ some op → (next false).procedure.Sound c p done) :
    (Plan.bind (look (leavesCode_lastIs op)) next).procedure.Sound c p done := by
  intro b c' hrun
  obtain ⟨rfl, rfl⟩ : (c.current.lastOpcode? == some op) = b ∧ c = c' := by
    simpa only [lastIs, OpenCode.lastOpcode?, EStateM.Result.ok.injEq] using hrun
  cases hlast : c.current.lastOpcode? == some op with
  | true => exact hyes (beq_iff_eq.mp hlast)
  | false => exact hno (beq_eq_false_iff_ne.mp hlast)

theorem keeps_closeBranch : planCloseBranch.Keeps NotPop := by
  intro c p hc
  refine sound_lastIs (fun hpop => ?_) fun _ => ?_
  · refine ⟨hpop, fun _ c' hrun => ?_⟩
    obtain ⟨hc', hnot, -⟩ := (removeLast_tidy hc hpop).ok hrun
    exact ⟨rfl, hc', hnot⟩
  · exact keeps_emit (by decide) c p hc

theorem keeps_closeBody : planCloseBody.Keeps Always := by
  have hend : planCloseBody.planEnd.Keeps Always :=
    .bind (keeps_look _) fun _ => .ite (keeps_emit (by decide)).always (keeps_pure _)
  intro c p hc
  refine sound_lastIs (fun hpop => ?_) fun _ => ?_
  · refine ⟨hpop, fun _ c' hrun => ?_⟩
    exact hend c' p ((lastToReturn_tidy hc hpop).ok hrun).1
  · exact hend c p hc

/-- A body that keeps codes tidy may be that of a function: all its jumps have targets when the
function is closed. -/
theorem sound_body {body : CompileM Unit} {plan : Plan body} {name : Option String}
    {signature : Signature} (hplan : plan.Keeps Always) {c : Compiler} {p : Pending}
    (hc : c.Tidy p.enter) :
    (planBody name signature plan).procedure.Sound c p.enter
      fun _ c' p' => p' = p ∧ c'.Tidy p ∧ NotPop c' := by
  refine (keeps_look _).sound_bind hc fun _ c₁ hc₁ _ => ?_
  refine hplan.sound_bind hc₁ fun _ c₂ hc₂ _ => ?_
  refine keeps_closeBody.sound_bind hc₂ fun _ c₃ hc₃ _ => ?_
  refine ⟨⟨rfl, List.cons_ne_nil _ _⟩, fun left c₄ hrun => ?_⟩
  have hc₄ : c₄.Tidy p := (leave_tidy hc₃ (List.cons_ne_nil _ _)).ok hrun
  refine (keeps_loadAll _).sound_bind hc₄ fun _ c₅ hc₅ _ => ?_
  refine (keeps_look _).sound_bind hc₅ fun _ c₆ hc₆ _ => ?_
  refine (keeps_look _).sound_bind hc₆ fun _ c₇ hc₇ _ => ?_
  exact keeps_emit (by decide) c₇ p hc₇

theorem keeps_function {body : CompileM Unit} {plan : Plan body} {signature : Signature}
    (hplan : plan.Keeps Always) :
    ∀ name : Option String, (planFunction signature plan name).Keeps NotPop
  | none => by
      intro c p hc
      refine ⟨trivial, fun _ c₁ hrun => ?_⟩
      exact sound_body hplan ((enter_tidy hc).ok hrun)
  | some name => by
      intro c p hc
      refine ⟨trivial, fun _ c₁ hrun => ?_⟩
      have hc₁ : c₁.Tidy p.enter := (enter_tidy hc).ok hrun
      exact (keeps_look _).sound_bind hc₁ fun _ c₂ hc₂ _ => sound_body hplan hc₂

theorem keeps_call {bound overload : Option String} {callee : Expr} {arguments : List Expr}
    {calleePlan : Plan (expr none callee)} {argumentsPlan : Plan (exprs arguments)}
    (hcallee : calleePlan.Keeps NotPop) (harguments : argumentsPlan.Keeps Always) :
    (planCall calleePlan argumentsPlan : Plan (expr bound (.call callee arguments overload))).Keeps
      NotPop := by
  have hvalues : (planCall.planValues argumentsPlan).Keeps NotPop :=
    .bind harguments fun _ => keeps_emit (by decide)
  intro c p hc
  simp only [planCall]
  split
  · exact Keeps.bind (keeps_look _) (fun x => .bind (keeps_load x) fun _ => hvalues) c p hc
  · exact Keeps.bind hcallee (fun _ => hvalues) c p hc

theorem keeps_fields {initializers : List (String × Expr)}
    {plan : ∀ f, Plan (initializer f initializers)} (h : ∀ f, (plan f).Keeps NotPop) :
    ∀ fields : List (String × Ty), (planFields plan fields).Keeps Always
  | [] => keeps_pure _
  | f :: fields => .bind (h f) fun _ => keeps_fields h fields

/-- A choice: the jump over the first branch gets its target when the jump over the second one has
been written. -/
theorem sound_choice {condition hoisting yes : CompileM Unit} {rest : Nat → CompileM Unit}
    {planCondition : Plan condition} {planHoisting : Plan hoisting} {planYes : Plan yes}
    {planRest : ∀ toEnd, Plan (rest toEnd)} (hcondition : planCondition.Keeps NotPop)
    (hhoisting : planHoisting.Keeps Always) (hyes : planYes.Keeps Always)
    (hrest : ∀ (toEnd : Nat) (c : Compiler) (p : Pending), c.Tidy (p.add .jump toEnd) →
      (∀ j ∈ p.current, j.position < toEnd) →
      (planRest toEnd).procedure.Sound c (p.add .jump toEnd)
        fun _ c' p' => p' = p ∧ c'.Tidy p ∧ NotPop c') :
    (planCondition.bind fun _ => .bind (.edit (.jump .jumpNotTruthy)) fun toAlternative =>
      planHoisting.bind fun _ => planYes.bind fun _ => planCloseBranch.bind fun _ =>
        .bind (.edit (.jump .jump)) fun toEnd => .bind (.edit (.patch toAlternative)) fun _ =>
          planRest toEnd).Keeps NotPop := by
  intro c p hc
  refine hcondition.sound_bind hc fun _ c₁ hc₁ _ => ?_
  refine sound_jump hc₁ rfl fun toAlternative c₂ hc₂ hearlier => ?_
  refine hhoisting.sound_bind hc₂ fun _ c₃ hc₃ _ => ?_
  refine hyes.sound_bind hc₃ fun _ c₄ hc₄ _ => ?_
  refine keeps_closeBranch.sound_bind hc₄ fun _ c₅ hc₅ _ => ?_
  refine sound_jump hc₅ rfl fun toEnd c₆ hc₆ hearlier' => ?_
  have hlater : toAlternative < toEnd := hearlier' ⟨_, toAlternative⟩ List.mem_cons_self
  have hleft : ((p.add .jumpNotTruthy toAlternative).add .jump toEnd).remove toAlternative =
      p.add .jump toEnd := by
    rw [Pending.remove_add_of_ne (Nat.ne_of_gt hlater), Pending.remove_add hearlier]
  have hpatch : (Plan.edit (.patch toAlternative)).procedure.Sound c₆ _
      fun _ c' p' => p' = p.add .jump toEnd ∧ c'.Tidy p' :=
    sound_patch hc₆ (List.mem_cons_of_mem _ List.mem_cons_self) hleft fun c₇ hc₇ _ => ⟨rfl, hc₇⟩
  refine hpatch.bind ?_
  rintro _ c₇ _ ⟨rfl, hc₇⟩
  refine hrest toEnd c₇ p hc₇ fun j hj => ?_
  exact hearlier' j (List.mem_cons_of_mem _ hj)

/-- The end of a choice: the jump over the second branch gets its target. -/
theorem sound_patch_last {c : Compiler} {p : Pending} {op : Opcode} {offset : Nat}
    (hc : c.Tidy (p.add op offset)) (hearlier : ∀ j ∈ p.current, j.position < offset)
    (hnot : NotPop c) :
    (Plan.edit (.patch offset)).procedure.Sound c (p.add op offset)
      fun _ c' p' => p' = p ∧ c'.Tidy p ∧ NotPop c' := by
  refine sound_patch hc List.mem_cons_self (Pending.remove_add hearlier) fun c' hc' hlast => ?_
  exact ⟨rfl, hc', fun hpop => hnot (hlast ▸ hpop)⟩

theorem sound_loop {condition hoisting body : CompileM Unit} {planCondition : Plan condition}
    {planHoisting : Plan hoisting} {planBody : Plan body} {start : Nat}
    (hcondition : planCondition.Keeps NotPop) (hhoisting : planHoisting.Keeps Always)
    (hbody : planBody.Keeps Always) :
    (planCondition.bind fun _ => .bind (.edit (.jump .jumpNotTruthy)) fun toEnd =>
      planHoisting.bind fun _ => planBody.bind fun _ => (planEmit .jump [start]).bind fun _ =>
        .bind (.edit (.patch toEnd)) fun _ => (planEmit .pushNull []).bind fun _ =>
          planEmit .pop []).Keeps Always := by
  intro c p hc
  refine hcondition.sound_bind hc fun _ c₁ hc₁ _ => ?_
  refine sound_jump hc₁ rfl fun toEnd c₂ hc₂ hearlier => ?_
  refine hhoisting.sound_bind hc₂ fun _ c₃ hc₃ _ => ?_
  refine hbody.sound_bind hc₃ fun _ c₄ hc₄ _ => ?_
  refine (keeps_emit (by decide)).sound_bind hc₄ fun _ c₅ hc₅ hnot => ?_
  refine (sound_patch_last hc₅ hearlier hnot).bind ?_
  rintro _ c₆ _ ⟨rfl, hc₆, -⟩
  exact (keeps_emit (by decide)).sound_bind hc₆ fun _ c₇ hc₇ hnot => sound_emit_pop hc₇ hnot

mutual

theorem keeps_expr (bound : Option String) : ∀ e : Expr, (planExpr bound e).Keeps NotPop
  | .int _ | .float _ | .str _ => keeps_emitConstant _
  | .bool true | .bool false | .null => keeps_emit (by decide)
  | .ident _ => .bind (keeps_look _) keeps_load
  | .unary op e => by
      have hoperand := keeps_expr none e
      exact .bind hoperand fun _ => keeps_emit op.opcode_ne_pop
  | .binary op l r => by
      have hl := keeps_expr none l
      have hr := keeps_expr none r
      refine .ite ?_ ?_
      · exact .bind hr fun _ => .bind hl fun _ => keeps_emit op.opcode_ne_pop
      · exact .bind hl fun _ => .bind hr fun _ => keeps_emit op.opcode_ne_pop
  | .cond condition yes none => by
      have hcondition := keeps_expr none condition
      have hyes := keeps_stmts yes
      refine sound_choice hcondition (keeps_look _) hyes fun toEnd c p hc hearlier => ?_
      refine (keeps_emit (by decide)).sound_bind hc fun _ c₁ hc₁ hnot => ?_
      exact sound_patch_last hc₁ hearlier hnot
  | .cond condition yes (some no) => by
      have hcondition := keeps_expr none condition
      have hyes := keeps_stmts yes
      have hno := keeps_stmts no
      refine sound_choice hcondition (keeps_look _) hyes fun toEnd c p hc hearlier => ?_
      refine (keeps_look _).sound_bind hc fun _ c₁ hc₁ _ => ?_
      refine hno.sound_bind hc₁ fun _ c₂ hc₂ _ => ?_
      refine keeps_closeBranch.sound_bind hc₂ fun _ c₃ hc₃ hnot => ?_
      exact sound_patch_last hc₃ hearlier hnot
  | .function name _ body => by
      have hbody := keeps_stmts body
      exact keeps_function (.bind (keeps_look _) fun _ => hbody) (bound <|> name)
  | .call callee arguments _ => by
      have hcallee := keeps_expr none callee
      have harguments := keeps_exprs arguments
      exact keeps_call hcallee harguments
  | .array elements => by
      have helements := keeps_exprs elements
      exact .bind helements fun _ => keeps_emit (by decide)
  | .hash pairs => by
      have hpairs := keeps_exprPairs pairs
      exact .bind hpairs fun _ => keeps_emit (by decide)
  | .index container position => by
      have hcontainer := keeps_expr none container
      have hposition := keeps_expr none position
      exact .bind hcontainer fun _ => .bind hposition fun _ => keeps_emit (by decide)
  | .struct _ initializers => by
      have hinitializer (f : String × Ty) := keeps_initializer f initializers
      refine .bind (keeps_look _) fun st => ?_
      refine .bind (keeps_fields hinitializer st.fields) fun _ => ?_
      exact .bind (keeps_look _) fun _ => keeps_emit (by decide)
  | .select object _ _ => by
      have hobject := keeps_expr none object
      refine .bind (keeps_look _) fun _ => ?_
      exact .bind hobject fun _ => keeps_emit (by decide)

theorem keeps_exprs : ∀ es : List Expr, (planExprs es).Keeps Always
  | [] => keeps_pure _
  | e :: es => by
      have hhead := keeps_expr none e
      have htail := keeps_exprs es
      exact .bind hhead fun _ => htail

theorem keeps_exprPairs : ∀ pairs : List (Expr × Expr), (planExprPairs pairs).Keeps Always
  | [] => keeps_pure _
  | (k, v) :: rest => by
      have hkey := keeps_expr none k
      have hvalue := keeps_expr none v
      have htail := keeps_exprPairs rest
      exact .bind hkey fun _ => .bind hvalue fun _ => htail

theorem keeps_initializer (f : String × Ty) :
    ∀ initializers : List (String × Expr), (planInitializer f initializers).Keeps NotPop
  | [] => keeps_zeroValue f.2
  | (_, e) :: rest => by
      have hvalue := keeps_expr none e
      have htail := keeps_initializer f rest
      exact .ite hvalue htail

theorem keeps_stmt : ∀ s : Stmt, (planStmt s).Keeps Always
  | .expr e => by
      intro c p hc
      refine (keeps_expr none e).sound_bind hc fun _ c₁ hc₁ hnot => ?_
      exact sound_emit_pop hc₁ hnot
  | .declare name _ _ (some e) => by
      have hvalue := keeps_expr (some name) e
      refine .bind (keeps_look _) fun _ => .bind (keeps_look _) fun declared => ?_
      exact .bind hvalue fun _ => .bind (keeps_look _) keeps_store
  | .declare _ _ ty none => by
      refine .bind (keeps_look _) fun _ => .bind (keeps_zeroValueOf ty) fun _ => ?_
      exact .bind (keeps_look _) keeps_store
  | .assign _ e => by
      have hvalue := keeps_expr none e
      refine .bind (keeps_look _) fun x => .bind (keeps_look _) fun _ => ?_
      exact .bind hvalue fun _ => keeps_store x
  | .setIndex container position value => by
      have hcontainer := keeps_expr none container
      have hposition := keeps_expr none position
      have hvalue := keeps_expr none value
      refine .bind hcontainer fun _ => .bind hposition fun _ => .bind hvalue fun _ => ?_
      exact (keeps_emit (by decide)).always
  | .setField object _ value _ => by
      have hobject := keeps_expr none object
      have hvalue := keeps_expr none value
      refine .bind (keeps_look _) fun _ => .bind hobject fun _ => .bind hvalue fun _ => ?_
      exact (keeps_emit (by decide)).always
  | .ret (some e) => by
      have hvalue := keeps_expr none e
      refine .bind (keeps_look _) fun _ => .bind hvalue fun _ => ?_
      exact (keeps_emit (by decide)).always
  | .ret none => by
      refine .bind (keeps_look _) fun _ => ?_
      exact (keeps_emit (by decide)).always
  | .loop condition body => by
      have hcondition := keeps_expr none condition
      have hbody := keeps_stmts body
      refine .bind (keeps_look _) fun _ => .bind (keeps_look _) fun start => ?_
      exact sound_loop hcondition (keeps_look _) hbody
  | .function header body => by
      have hbody := keeps_stmts body
      refine .bind (keeps_look _) fun x => .bind (keeps_function ?_ _) fun _ => keeps_store x
      exact .bind (keeps_look _) fun _ => hbody
  | .structType _ => keeps_look _
  | .block body => by
      have hbody := keeps_stmts body
      exact .bind (keeps_look _) fun _ => hbody

theorem keeps_stmts : ∀ ss : List Stmt, (planStmts ss).Keeps Always
  | [] => keeps_pure _
  | s :: rest => by
      have hhead := keeps_stmt s
      have htail := keeps_stmts rest
      exact .bind hhead fun _ => htail

end

theorem keeps_block (body : List Stmt) : (planBlock body).Keeps Always :=
  .bind (keeps_look _) fun _ => keeps_stmts body

end CompileM

/-! ## Points of a compilation -/

/-- A point of a compilation: what is left to do, the state of the compiler, and the jumps that have
been written without a target and have not got one since. -/
structure Moment (α : Type) : Type 1 where
  rest : Procedure α
  compiler : Compiler
  pending : Pending

namespace Moment

variable {α : Type}

/-- The compilation goes on to the next point. -/
inductive Step : Moment α → Moment α → Prop
  | look {β : Type} {x : CompileM β} {hx : LeavesCode x} {next : β → Procedure α} {c c' : Compiler}
      {p : Pending} {b : β} (run : x c = .ok b c') : Step ⟨.look x hx next, c, p⟩ ⟨next b, c', p⟩
  | edit {β : Type} {e : Edit β} {next : β → Procedure α} {c c' : Compiler} {p : Pending} {b : β}
      (run : e.run c = .ok b c') : Step ⟨.edit e next, c, p⟩ ⟨next b, c', e.pending b p⟩

inductive Stops : Moment α → Stop CompileError → Compiler → Prop
  | look {β : Type} {x : CompileM β} {hx : LeavesCode x} {next : β → Procedure α} {c c' : Compiler}
      {p : Pending} {stop : Stop CompileError} (run : x c = .error stop c') :
      Stops ⟨.look x hx next, c, p⟩ stop c'
  | edit {β : Type} {e : Edit β} {next : β → Procedure α} {c c' : Compiler} {p : Pending}
      {stop : Stop CompileError} (run : e.run c = .error stop c') :
      Stops ⟨.edit e next, c, p⟩ stop c'

/-- The compilation comes from one point to another. -/
def Reaches : Moment α → Moment α → Prop :=
  Relation.ReflTransGen Step

/-- The codes are tidy, and all edits that are left to do fit. -/
def IsSound (s : Moment α) (post : α → Compiler → Pending → Prop) : Prop :=
  s.compiler.Tidy s.pending ∧ s.rest.Sound s.compiler s.pending post

theorem IsSound.step {s s' : Moment α} {post : α → Compiler → Pending → Prop} (hs : s.IsSound post)
    (h : s.Step s') : s'.IsSound post := by
  obtain ⟨htidy, hsound⟩ := hs
  cases h with
  | @look _ _ hx _ c _ _ _ run => exact ⟨((hx c).ok run).tidy htidy, hsound _ _ run⟩
  | @edit _ e _ _ _ _ _ run => exact ⟨(e.tidy htidy hsound.1).ok run, hsound.2 _ _ run⟩

theorem IsSound.reaches {s s' : Moment α} {post : α → Compiler → Pending → Prop}
    (hs : s.IsSound post) (h : s.Reaches s') : s'.IsSound post := by
  induction h with
  | refl => exact hs
  | tail _ hstep ih => exact ih.step hstep

/-- A computation comes to the end of its procedure, or to a point where it stops. -/
theorem ends_run (procedure : Procedure α) (c : Compiler) (p : Pending) :
    Ends procedure.run c (fun a c' => ∃ p', Reaches ⟨procedure, c, p⟩ ⟨.done a, c', p'⟩)
      fun stop c' => ∃ s, Reaches ⟨procedure, c, p⟩ s ∧ s.Stops stop c' := by
  induction procedure generalizing c p with
  | done a => exact Ends.of_pure ⟨p, .refl⟩
  | look x hx next ih =>
      cases hrun : x c with
      | error stop c₁ => exact Ends.bind_of_error hrun ⟨_, .refl, .look hrun⟩
      | ok b c₁ =>
          refine Ends.bind_of_ok hrun ((ih b c₁ p).mono ?_ ?_)
          · rintro a c' ⟨p', h⟩
            exact ⟨p', .head (.look hrun) h⟩
          · rintro stop c' ⟨s, h, hstops⟩
            exact ⟨s, .head (.look hrun) h, hstops⟩
  | edit e next ih =>
      cases hrun : e.run c with
      | error stop c₁ => exact Ends.bind_of_error hrun ⟨_, .refl, .edit hrun⟩
      | ok b c₁ =>
          refine Ends.bind_of_ok hrun ((ih b c₁ (e.pending b p)).mono ?_ ?_)
          · rintro a c' ⟨p', h⟩
            exact ⟨p', .head (.edit hrun) h⟩
          · rintro stop c' ⟨s, h, hstops⟩
            exact ⟨s, .head (.edit hrun) h, hstops⟩

end Moment

/-! ## Codes in order -/

/-- The code consists of whole instructions, and the last one is the one that is remembered.  None
is remembered only if there is none. -/
def OpenCode.IsInOrder (o : OpenCode) : Prop :=
  ∃ is, Written is o.code.bytes.toList ∧ o.last = final? is

/-- The codes of all open scopes are in order. -/
def Compiler.InOrder (c : Compiler) : Prop :=
  ∀ o ∈ c.current :: c.enclosing, o.IsInOrder

theorem OpenCode.Tidy.isInOrder {o : OpenCode} {jumps : List Emitted} {is : List Instruction}
    (h : o.Tidy jumps is) : o.IsInOrder :=
  ⟨is, h.written, h.last⟩

theorem isInOrder_of_forall₂ {os : List OpenCode} {pending : List (List Emitted)}
    (h : List.Forall₂ (fun o jumps => ∃ is, OpenCode.Tidy o jumps is) os pending) :
    ∀ o ∈ os, o.IsInOrder := by
  induction h with
  | nil => simp
  | cons head _ ih =>
      obtain ⟨is, hhead⟩ := head
      exact List.forall_mem_cons.mpr ⟨hhead.isInOrder, ih⟩

theorem Compiler.Tidy.inOrder {c : Compiler} {p : Pending} (hc : c.Tidy p) : c.InOrder := by
  obtain ⟨is, hcurrent⟩ := hc.current
  exact List.forall_mem_cons.mpr ⟨hcurrent.isInOrder, isInOrder_of_forall₂ hc.enclosing⟩

/-- An edit meets what it is meant for.  Taking the last instruction back removes one `pop`, and
turning it into a return writes over one `pop`.  Filling in a target meets a jump that was written
in the same scope and still has none.  A function that is closed is one that was opened, and all its
jumps have targets. -/
def Edit.Hits {β : Type} (e : Edit β) (c : Compiler) (p : Pending) : Prop :=
  match e with
  | write _ _ | jump _ | enter => True
  | patch offset => ∃ op js ks, ⟨op, offset⟩ ∈ p.current ∧ totalWidth js = offset ∧
      Written (js ++ ⟨op, [unknownTarget]⟩ :: ks) c.current.code.bytes.toList ∧
      Ends (patchJump offset) c
        (fun _ c' => Written (js ++ ⟨op, [c.current.code.size]⟩ :: ks) c'.current.code.bytes.toList)
        (Refused c)
  | dropLast => Ends removeLast c
      (fun _ c' =>
        c.current.code.bytes.toList = c'.current.code.bytes.toList ++ [Opcode.pop.toByte])
      fun _ _ => False
  | returnLast => Ends lastToReturn c
      (fun _ c' => ∃ bs, c.current.code.bytes.toList = bs ++ [Opcode.pop.toByte] ∧
        c'.current.code.bytes.toList = bs ++ [Opcode.returnValue.toByte])
      fun _ _ => False
  | leave => c.enclosing ≠ [] ∧ c.chain.pop?.isSome = true ∧ p.current = []

theorem Edit.hits {β : Type} {e : Edit β} {c : Compiler} {p : Pending} (hc : c.Tidy p)
    (hfits : e.Fits c p) : e.Hits c p := by
  cases e with
  | write op ns => trivial
  | jump op => trivial
  | enter => trivial
  | patch offset =>
      obtain ⟨⟨op, _⟩, hj, rfl⟩ := hfits
      obtain ⟨is, h⟩ := hc.current
      obtain ⟨-, js, ks, rfl, hoffset⟩ := h.jumps _ hj
      refine ⟨op, js, ks, hj, hoffset, h.written, ?_⟩
      rw [← hoffset]
      refine (patchJump_ends_of_tidy h).imp ?_
      rintro _ _ ⟨o, rfl, -, ho⟩
      exact ho.written
  | dropLast => exact (removeLast_tidy hc hfits).imp fun _ _ h => h.2.2
  | returnLast => exact (lastToReturn_tidy hc hfits).imp fun _ _ h => h.2
  | leave =>
      have hopen : c.enclosing ≠ [] := by
        intro hnone
        have houter := hc.enclosing
        rw [hnone, List.forall₂_nil_left_iff] at houter
        exact hfits.2 houter
      refine ⟨hopen, ?_, hfits.1⟩
      have hdepth : c.chain.enclosing.length = c.enclosing.length := hc.depth
      cases hscopes : c.chain.enclosing with
      | nil =>
          rw [hscopes] at hdepth
          exact absurd (List.length_eq_zero_iff.mp hdepth.symm) hopen
      | cons s rest => simp only [ScopeChain.pop?, hscopes, Option.isSome_some]

/-- What is done next meets what it is meant for, and all jumps have targets in the end. -/
def Moment.NextHits {α : Type} (s : Moment α) : Prop :=
  match s.rest with
  | .done _ => s.pending = .empty
  | .look _ _ _ => True
  | .edit e _ => e.Hits s.compiler s.pending

namespace Moment.IsSound

variable {α : Type} {s : Moment α} {post : α → Compiler → Pending → Prop}

theorem nextHits (hs : s.IsSound post) (hpost : ∀ a c p, post a c p → p = .empty) : s.NextHits := by
  obtain ⟨rest, c, p⟩ := s
  obtain ⟨htidy, hsound⟩ := hs
  cases rest with
  | done a => exact hpost a c p hsound
  | look x hx next => trivial
  | edit e next => exact Edit.hits htidy hsound.1

/-- A compilation that stops leaves the codes as they were and reports an error. -/
theorem stops (hs : s.IsSound post) {stop : Stop CompileError} {c' : Compiler}
    (h : s.Stops stop c') : c'.InOrder ∧ ∃ e, stop = .error e := by
  obtain ⟨htidy, hsound⟩ := hs
  cases h with
  | @look _ _ hx _ c _ _ _ run =>
      obtain ⟨hsame, hreported⟩ := (hx c).error run
      exact ⟨(hsame.tidy htidy).inOrder, hreported⟩
  | @edit _ e _ _ _ _ _ run =>
      obtain ⟨rfl, hreported⟩ := (e.tidy htidy hsound.1).error run
      exact ⟨htidy.inOrder, hreported⟩

end Moment.IsSound

namespace Compiler

def start (c : Compiler) (program : Program) : Moment Unit :=
  ⟨(planBlock program).procedure, c, .empty⟩

theorem Idle.tidy {c : Compiler} (hc : c.Idle) : c.Tidy .empty := by
  refine ⟨⟨[], hc.current ▸ OpenCode.tidy_empty⟩, ?_, ?_⟩
  · rw [hc.enclosing]
    exact .nil
  · simp [ScopeChain.depth, hc.chain, hc.enclosing]

/-- What the compiler remembers of its codes is right at every point of the compilation of a unit,
be it accepted or not: in every open scope, the code consists of whole instructions, and the last
one is the one remembered.  Therefore every edit meets what it is meant for, and none goes beyond
the end of a code: where the compilation stops, it reports an error.  If the unit is accepted, then
no jump has been left without a target. -/
theorem compile_inOrder {c : Compiler} (hc : c.Idle) (program : Program) :
    (c.start program).rest.run = block program ∧
    (∀ s, (c.start program).Reaches s → s.compiler.InOrder ∧ s.NextHits ∧
      ∀ stop c', s.Stops stop c' → c'.InOrder ∧ ∃ e, stop = .error e) ∧
    (∀ bytecode, (c.compile program).1 = .ok bytecode →
      ∃ c', (c.start program).Reaches ⟨.done (), c', .empty⟩ ∧ c'.current.code = bytecode.code) ∧
    ∀ stop, (c.compile program).1 = .error stop →
      ∃ s c', (c.start program).Reaches s ∧ s.Stops stop c' := by
  have hstart : (c.start program).IsSound _ := ⟨hc.tidy, keeps_block program c .empty hc.tidy⟩
  have hrun := Moment.ends_run (planBlock program).procedure c .empty
  rw [(planBlock program).run_eq] at hrun
  refine ⟨(planBlock program).run_eq, ?_, ?_, ?_⟩
  · intro s hs
    have hsound := hstart.reaches hs
    exact ⟨hsound.1.inOrder, hsound.nextHits fun _ _ _ h => h.1, fun _ _ h => hsound.stops h⟩
  · intro bytecode haccepted
    cases hblock : block program c with
    | error stop c' =>
        rw [compile, hblock] at haccepted
        cases haccepted
    | ok _ c' =>
        rw [compile, hblock] at haccepted
        cases haccepted
        obtain ⟨p, hreaches⟩ := hrun.ok hblock
        obtain ⟨-, rfl, -⟩ := hstart.reaches hreaches
        exact ⟨c', hreaches, rfl⟩
  · intro stop hrefused
    cases hblock : block program c with
    | error stop' c' =>
        rw [compile, hblock] at hrefused
        cases hrefused
        obtain ⟨s, hreaches, hstops⟩ := hrun.error hblock
        exact ⟨s, c', hreaches, hstops⟩
    | ok _ c' =>
        rw [compile, hblock] at hrefused
        cases hrefused

/-- Declares a function whose value is a choice. -/
def choosing (alternative : Expr) : Program :=
  [.declare "choose" false none (some (.function none ⟨[("b", .bool)], some .int⟩
    [.expr (.cond (.ident "b") [.expr (.int 1)] (some [.expr alternative]))]))]

/-- Both branches of the choice have a `pop` taken back, and the one after the choice becomes a
return.  If the second branch is refused, then the compilation stops inside the function. -/
theorem compile_inOrder_choosing :
    (∃ c', (new.start (choosing (.int 2))).Reaches ⟨.done (), c', .empty⟩ ∧ c'.InOrder) ∧
      ∃ s c', (new.start (choosing (.ident "unknown"))).Reaches s ∧ s.NextHits ∧
        s.Stops (.error (.undefinedVariable "unknown")) c' ∧ c'.InOrder := by
  have hidle : new.Idle := ⟨rfl, rfl, rfl⟩
  constructor
  · obtain ⟨-, hpoints, haccepted, -⟩ := compile_inOrder hidle (choosing (.int 2))
    have hcompile : (new.compile (choosing (.int 2))).1.toOption.isSome = true := by
      decide +kernel
    cases hresult : (new.compile (choosing (.int 2))).1 with
    | error stop =>
        rw [hresult] at hcompile
        cases hcompile
    | ok bytecode =>
        obtain ⟨c', hreaches, -⟩ := haccepted bytecode hresult
        exact ⟨c', hreaches, (hpoints _ hreaches).1⟩
  · obtain ⟨-, hpoints, -, hrefused⟩ := compile_inOrder hidle (choosing (.ident "unknown"))
    have hcompile : (new.compile (choosing (.ident "unknown"))).1 =
        .error (.error (.undefinedVariable "unknown")) := by
      decide +kernel
    obtain ⟨s, c', hreaches, hstops⟩ := hrefused _ hcompile
    obtain ⟨-, hhits, hstopped⟩ := hpoints s hreaches
    exact ⟨s, c', hreaches, hhits, hstops, (hstopped _ c' hstops).1⟩

end Compiler

end ScriptEngine
