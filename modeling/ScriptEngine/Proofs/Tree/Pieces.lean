import ScriptEngine.Proofs.Compile.Relation
import ScriptEngine.Proofs.Tree.Simulation

/-!
# Pieces of code that follow an evaluation

A piece of code follows an evaluation if its run does so wherever the piece stands and whatever is
on the stack.  There are three forms, for one value, for several values and for statements, and one
lemma for each way in which larger pieces are made of smaller ones.
-/

namespace ScriptEngine

open Assembly

/-! ## Values -/

/-- The run of the piece of code does what the evaluation does and puts its value on the stack. -/
def GivesValue (code : Code) (pool : Array Value) (bound : Nat) (t : Assembly) (x : Eval Value) :
    Prop :=
  ∀ o k m, code.Contains o (t.instrs o) → m.At code pool o k →
    Simulates bound x m (m.Puts code pool (o + t.size) k)

/-- The run of the piece of code does what the evaluation does and puts its values on the stack, the
first one lowest. -/
def GivesValues (code : Code) (pool : Array Value) (bound : Nat) (t : Assembly)
    (x : Eval (List Value)) (n : Nat) : Prop :=
  ∀ o k m, code.Contains o (t.instrs o) → m.At code pool o k →
    Simulates bound x m fun vs m' =>
      vs.length = n ∧ m'.At code pool (o + t.size) (k + n) ∧ m.SameBelow k m' ∧ m'.Shows k vs

variable {code : Code} {pool : Array Value} {bound : Nat}

namespace GivesValues

variable {t u : Assembly} {i : Instruction} {x y : Eval (List Value)} {n : Nat}

theorem nil : GivesValues code pool bound done (pure []) 0 :=
  fun _ k m _ hm => .of_pure ⟨rfl, hm, .refl m k, .nil⟩

/-- A value below further values. -/
theorem cons {a : Eval Value} (ht : GivesValue code pool bound t a)
    (hu : GivesValues code pool bound u y n) :
    GivesValues code pool bound (t ++ u) (do let v ← a; let vs ← y; return v :: vs) (n + 1) := by
  intro o k m hcode hm
  obtain ⟨hleft, hright⟩ := hcode.pieces
  apply (ht o k m hleft hm).bind
  intro v m₁ hv
  apply (hu _ _ m₁ hright hv.place).bind
  rintro vs m₂ ⟨hlength, hat, hsame, hvs⟩
  refine .of_pure ⟨by rw [List.length_cons, hlength], ?_, hv.same.trans hsame (by omega), ?_⟩
  · rw [size_append, ← Nat.add_assoc, ← Nat.add_assoc, Nat.add_right_comm k n 1]
    exact hat
  · exact .cons (by rw [hsame k (by omega), hv.top]) hvs

theorem one {a : Eval Value} (ht : GivesValue code pool bound t a) :
    GivesValues code pool bound t (do let v ← a; return [v]) 1 := by
  have hcons := cons ht .nil
  simpa only [append_done, pure_bind] using hcons

/-- An instruction takes the values and gives another one. -/
theorem compute {g : List Value → Eval Value} (ht : GivesValues code pool bound t x i.taken)
    (hop : i.opcode.isFirstOrder = true)
    (hconstant : i.opcode = .constant → ∀ v, pool[i.operand 0]? = some v → v.IsData)
    (hg : ∀ vs m f, vs.length = i.taken → m.constants = pool →
      Computes (i.effect (m.view f) vs) (g vs) m) :
    GivesValue code pool bound (t ++ single i) (x >>= g) := by
  intro o k m hcode hm
  obtain ⟨hleft, hright⟩ := hcode.pieces
  apply (ht o k m hleft hm).bind
  rintro vs m₁ ⟨hlength, hat, hsame, hvs⟩
  rw [← hlength] at hat
  have hlast : Simulates bound (g vs) m₁ (m₁.Puts code pool (o + t.size + i.width) k) :=
    .of_computes hat hright.decode hvs hlength hop hconstant fun f =>
      hg vs m₁ f hlength hat.constants
  apply hlast.imp
  intro v m₂ hv
  rw [size_append, size_single, ← Nat.add_assoc]
  exact ⟨hv.place, hsame.trans hv.same (Nat.le_refl k), hv.top⟩

end GivesValues

namespace GivesValue

variable {t u v : Assembly} {i : Instruction} {x y z : Eval Value}

/-- An instruction that takes no values. -/
theorem single (hop : i.opcode.isFirstOrder = true) (htaken : i.taken = 0)
    (hconstant : i.opcode = .constant → ∀ v, pool[i.operand 0]? = some v → v.IsData)
    (hx : ∀ m f, m.constants = pool → Computes (i.effect (m.view f) []) x m) :
    GivesValue code pool bound (single i) x := by
  have hnil : GivesValues code pool bound done (pure []) i.taken := htaken ▸ .nil
  have hcompute := hnil.compute (g := fun _ => x) hop hconstant fun vs m f hlength hm => by
    rw [htaken, List.length_eq_zero_iff] at hlength
    rw [hlength]
    exact hx m f hm
  simpa only [done_append, pure_bind] using hcompute

theorem constant {n : Nat} {w : Value} (hw : pool[n]? = some w) (hdata : w.IsData) :
    GivesValue code pool bound (Assembly.single ⟨.constant, [n]⟩) (pure w) := by
  refine single rfl rfl (fun _ v hv => ?_) fun m f hm => ?_
  · cases hw.symm.trans hv
    exact hdata
  · have heffect : (⟨.constant, [n]⟩ : Instruction).effect (m.view f) [] =
        (m.view f).giveFound ⟨.constant, [n]⟩ m.constants[n]? := rfl
    rw [heffect, hm, hw]
    exact .give w

theorem pushNull : GivesValue code pool bound (Assembly.single ⟨.pushNull, []⟩) (pure .null) :=
  single rfl rfl nofun fun _ _ _ => .give .null

/-- An instruction that takes one value. -/
theorem unary {g : Value → Eval Value} (ht : GivesValue code pool bound t x)
    (hop : i.opcode.isFirstOrder = true) (hconstant : i.opcode ≠ .constant) (htaken : i.taken = 1)
    (hg : ∀ a m f, Computes (i.effect (m.view f) [a]) (g a) m) :
    GivesValue code pool bound (t ++ Assembly.single i) (do g (← x)) := by
  have hone : GivesValues code pool bound t (do let a ← x; return [a]) i.taken := htaken ▸ .one ht
  have hcompute := hone.compute (g := fun vs => g (vs.headD .null)) hop (absurd · hconstant)
    fun vs m f hlength _ => by
      obtain ⟨a, rfl⟩ := List.length_eq_one_iff.mp (hlength.trans htaken)
      exact hg a m f
  simpa only [bind_assoc, pure_bind, List.headD_cons] using hcompute

/-- An instruction that takes two values. -/
theorem binary {g : Value → Value → Eval Value} (ht : GivesValue code pool bound t x)
    (hu : GivesValue code pool bound u y) (hop : i.opcode.isFirstOrder = true)
    (hconstant : i.opcode ≠ .constant) (htaken : i.taken = 2)
    (hg : ∀ a b m f, Computes (i.effect (m.view f) [a, b]) (g a b) m) :
    GivesValue code pool bound (t ++ (u ++ Assembly.single i))
      (do let a ← x; let b ← y; g a b) := by
  have htwo : GivesValues code pool bound (t ++ u)
      (do let a ← x; let vs ← y >>= fun b => pure [b]; return a :: vs) i.taken :=
    htaken ▸ .cons ht (.one hu)
  have hcompute := htwo.compute (g := fun vs => g (vs.headD .null) (vs.tail.headD .null)) hop
    (absurd · hconstant) fun vs m f hlength _ => by
      obtain ⟨a, b, rfl⟩ := List.length_eq_two.mp (hlength.trans htaken)
      exact hg a b m f
  simpa only [append_assoc, bind_assoc, pure_bind, List.headD_cons, List.tail_cons] using hcompute

/-- A test, and a value from one of two sides. -/
theorem choice (ht : GivesValue code pool bound t x) (hu : GivesValue code pool bound u y)
    (hv : GivesValue code pool bound v z) :
    GivesValue code pool bound (choice t u v done) (do if (← x).isTruthy then y else z) := by
  intro o k m hcode hm
  obtain ⟨htest, hbranch, hyes, hjump, hno, -⟩ := hcode.choice
  have hend : o + (Assembly.choice t u v done).size = o + t.size + 3 + u.size + 3 + v.size := by
    simp only [size]
    omega
  rw [hend]
  apply (ht o k m htest hm).bind
  intro c m₁ hc
  refine (Simulates.branch hc.place hbranch hc.top fun m₂ hat₂ hstack₂ => ?_).weaken
    (Nat.le_add_left _ _)
  have hsame₂ : m.SameBelow k m₂ := hc.same.trans (.of_eq hstack₂) (Nat.le_refl k)
  cases htruthy : c.isTruthy with
  | true =>
      rw [htruthy] at hat₂
      rw [if_pos rfl, ← bind_pure y]
      apply (hu _ _ m₂ hyes hat₂).bind
      intro w m₃ hw
      refine (Simulates.jump hw.place hjump fun m₄ hat₄ hstack₄ => ?_).weaken
        (Nat.le_add_left _ _)
      refine .of_pure ⟨hat₄, ?_, by rw [hstack₄, hw.top]⟩
      exact (hsame₂.trans hw.same (Nat.le_refl k)).trans (.of_eq hstack₄) (Nat.le_refl k)
  | false =>
      rw [htruthy] at hat₂
      rw [if_neg Bool.false_ne_true]
      apply (hv _ _ m₂ hno hat₂).imp
      intro w m₃ hw
      exact ⟨hw.place, hsame₂.trans hw.same (Nat.le_refl k), hw.top⟩

end GivesValue

/-! ## Statements -/

/-- What statements leave fits the end of their code. -/
def Yield.Suits : Yield → Assembly → Prop
  | nothing, t => t = done
  | value _, t => t.last? = some ⟨.pop, []⟩
  | written _, t => t ≠ done

namespace Yield

theorem Suits.andThen {y z : Yield} {t u : Assembly} (hy : y.Suits t) (hz : z.Suits u) :
    (y.andThen z).Suits (t ++ u) := by
  cases z with
  | nothing =>
      rw [show u = done from hz, append_done]
      exact hy
  | value v => exact last?_append hz
  | written v => exact fun h => hz (append_eq_done h)

theorem Suits.eq_nothing {y : Yield} (hy : y.Suits done) : y = nothing := by
  cases y with
  | nothing => rfl
  | value v => cases hy
  | written v => exact absurd rfl hy

theorem last?_andThen (y z : Yield) : (y.andThen z).last? = z.last?.or y.last? := by
  cases z <;> rfl

end Yield

/-- The run of the piece of code does what the evaluation does, and the value that was used last
stays above the stack.  If the code ends by taking a value away, then without that it gives the
value that the statements leave. -/
structure Runs (code : Code) (pool : Array Value) (bound : Nat) (t : Assembly) (x : Eval Yield) :
    Prop where
  whole : ∀ o k m, code.Contains o (t.instrs o) → m.At code pool o k →
    Simulates bound x m fun y m' => m'.At code pool (o + t.size) k ∧ m.SameBelow k m' ∧
      y.Suits t ∧ m'.stack[k]? = y.last?.or m.stack[k]?
  value : ∀ u, t = u ++ single ⟨.pop, []⟩ → ∀ o k m, code.Contains o (u.instrs o) →
    m.At code pool o k →
    Simulates bound x m fun y m' => ∃ v, y = .value v ∧ m.Puts code pool (o + u.size) k v m'

namespace Runs

variable {t u : Assembly} {i : Instruction} {x y : Eval Yield}

theorem nil : Runs code pool bound done (pure .nothing) where
  whole _ k m _ hm := .of_pure ⟨hm, .refl m k, rfl, rfl⟩
  value u hu := absurd hu.symm (append_single_ne_done u _)

/-- Statements after a statement. -/
theorem append (ht : Runs code pool bound t x) (hu : Runs code pool bound u y) :
    Runs code pool bound (t ++ u)
      (do let first ← x; let later ← y; return first.andThen later) where
  whole := by
    intro o k m hcode hm
    obtain ⟨hleft, hright⟩ := hcode.pieces
    apply (ht.whole o k m hleft hm).bind
    rintro first m₁ ⟨hat₁, hsame₁, hsuits₁, hlast₁⟩
    apply (hu.whole _ k m₁ hright hat₁).bind
    rintro later m₂ ⟨hat₂, hsame₂, hsuits₂, hlast₂⟩
    refine .of_pure ⟨?_, hsame₁.trans hsame₂ (Nat.le_refl k), hsuits₁.andThen hsuits₂, ?_⟩
    · rw [size_append, ← Nat.add_assoc]
      exact hat₂
    · rw [hlast₂, hlast₁, Yield.last?_andThen, Option.or_assoc]
  value := by
    intro w hw o k m hcode hm
    by_cases hdone : u = done
    -- the later statements are empty and leave the value where it is
    · subst hdone
      rw [append_done] at hw
      have hafter : code.Contains o ((w ++ done).instrs o) := by rwa [append_done]
      apply (ht.value w hw o k m hcode hm).bind
      rintro first m₁ ⟨v, rfl, hv⟩
      apply (hu.whole _ _ m₁ hafter.pieces.2 hv.place).bind
      rintro later m₂ ⟨hat, hsame, hsuits, -⟩
      obtain rfl : later = .nothing := hsuits.eq_nothing
      refine .of_pure ⟨v, rfl, hat, hv.same.trans hsame (Nat.le_succ k), ?_⟩
      rw [hsame k (Nat.lt_succ_self k), hv.top]
    · obtain ⟨u', hu', rfl⟩ := append_eq_append_single hdone hw
      obtain ⟨hleft, hright⟩ := hcode.pieces
      apply (ht.whole o k m hleft hm).bind
      rintro first m₁ ⟨hat₁, hsame₁, -, -⟩
      apply (hu.value u' hu' _ k m₁ hright hat₁).bind
      rintro later m₂ ⟨v, rfl, hv⟩
      refine .of_pure ⟨v, rfl, ?_, hsame₁.trans hv.same (Nat.le_refl k), hv.top⟩
      rw [size_append, ← Nat.add_assoc]
      exact hv.place

/-- A value is computed and taken away. -/
theorem of_value {a : Eval Value} (ht : GivesValue code pool bound t a) :
    Runs code pool bound (t ++ single ⟨.pop, []⟩) (do return .value (← a)) where
  whole := by
    intro o k m hcode hm
    obtain ⟨hleft, hright⟩ := hcode.pieces
    apply (ht o k m hleft hm).bind
    intro v m₁ hv
    have hplace : m₁.At code pool (o + t.size) (k + [v].length) := hv.place
    have hpop : Simulates bound (pure ()) m₁ fun _ m₂ =>
        m₂.At code pool (o + t.size + 1) k ∧ m₂.stack = m₁.stack :=
      .of_carries hplace hright.decode (.cons hv.top .nil) rfl rfl nofun
        fun f => ⟨rfl, rfl, congrArg _ (m₁.worldAfter_nothing f).symm⟩
    rw [← pure_bind () fun _ => pure (Yield.value v)]
    apply hpop.bind
    rintro - m₂ ⟨hat, hstack⟩
    refine .of_pure ⟨?_, hv.same.trans (.of_eq hstack) (Nat.le_refl k), ?_, ?_⟩
    · rw [size_append, ← Nat.add_assoc]
      exact hat
    · exact last?_append_single t _
    · rw [hstack, hv.top]
      rfl
  value := by
    intro w hw o k m hcode hm
    obtain ⟨rfl, -⟩ := append_single_inj hw
    apply (ht o k m hcode hm).bind
    intro v m₁ hv
    exact .of_pure ⟨v, rfl, hv⟩

/-- Values are computed and written by an instruction. -/
theorem of_write {a : Eval (List Value)} {g : List Value → Eval Unit}
    (ht : GivesValues code pool bound t a i.taken) (hop : i.opcode.isFirstOrder = true)
    (hconstant : i.opcode ≠ .constant) (hpop : i.opcode ≠ .pop) (hpos : 0 < i.taken)
    (hg : ∀ vs m f, vs.length = i.taken → Carries (i.effect (m.view f) vs) (g vs) m) :
    Runs code pool bound (t ++ single i)
      (do let vs ← a; g vs; return .written (vs.headD .null)) where
  whole := by
    intro o k m hcode hm
    obtain ⟨hleft, hright⟩ := hcode.pieces
    apply (ht o k m hleft hm).bind
    rintro vs m₁ ⟨hlength, hat₁, hsame, hvs⟩
    rw [← hlength] at hat₁
    have hwrite : Simulates bound (g vs) m₁ fun _ m₂ =>
        m₂.At code pool (o + t.size + i.width) k ∧ m₂.stack = m₁.stack :=
      .of_carries hat₁ hright.decode hvs hlength hop hconstant fun f => hg vs m₁ f hlength
    apply hwrite.bind
    rintro - m₂ ⟨hat₂, hstack⟩
    refine .of_pure ⟨?_, hsame.trans (.of_eq hstack) (Nat.le_refl k), ?_, ?_⟩
    · rw [size_append, size_single, ← Nat.add_assoc]
      exact hat₂
    · exact append_single_ne_done t i
    · obtain ⟨v, ws, rfl⟩ := List.exists_cons_of_length_pos (hlength ▸ hpos)
      rw [hstack]
      exact hvs 0 v rfl
  value := by
    intro w hw
    exact absurd (congrArg Instruction.opcode (append_single_inj hw).2) hpop

/-- The value of a block. -/
theorem leavesValue (ht : Runs code pool bound t x) (hu : LeavesValue t u) :
    GivesValue code pool bound u (do return (← x).blockValue) := by
  intro o k m hcode hm
  cases hu with
  | value =>
      apply (ht.value u rfl o k m hcode hm).bind
      rintro y m₁ ⟨v, rfl, hv⟩
      exact .of_pure hv
  | null hlast =>
      obtain ⟨hleft, hright⟩ := hcode.pieces
      apply (ht.whole o k m hleft hm).bind
      rintro y m₁ ⟨hat, hsame, hsuits, -⟩
      have hnull : y.blockValue = .null := by
        cases y with
        | value v => exact absurd hsuits hlast
        | _ => rfl
      rw [hnull]
      apply (GivesValue.pushNull _ k m₁ hright hat).imp
      intro v m₂ hv
      rw [size_append, ← Nat.add_assoc]
      exact ⟨hv.place, hsame.trans hv.same (Nat.le_refl k), hv.top⟩

/-- The rounds of a loop. -/
theorem rounds {c : Eval Value} (ht : GivesValue code pool bound t c)
    (hu : Runs code pool bound u x) {o k n : Nat} {v : Assembly} {m : Machine}
    (hcode : code.Contains o ((Assembly.loop t u v).instrs o)) (hm : m.At code pool o k)
    (hn : n ≤ bound) :
    Simulates n (Eval.rounds c (discard x) n) m fun _ m' =>
      m'.At code pool (o + t.size + 3 + u.size + 3) k ∧ m.SameBelow k m' := by
  obtain ⟨htest, hbranch, hbody, hjump, -⟩ := hcode.loop
  induction n generalizing m with
  | zero => exact .inr ⟨0, m, rfl, Nat.le_refl 0⟩
  | succ n ih =>
      -- a round takes at least one step: the test of the condition
      apply ((ht o k m htest hm).weaken hn).bind
      intro w m₁ hw
      rw [Nat.add_comm n 1]
      refine Simulates.branch hw.place hbranch hw.top fun m₂ hat₂ hstack₂ => ?_
      have hsame₂ : m.SameBelow k m₂ := hw.same.trans (.of_eq hstack₂) (Nat.le_refl k)
      cases htruthy : w.isTruthy with
      | false =>
          rw [htruthy] at hat₂
          exact .of_pure ⟨hat₂, hsame₂⟩
      | true =>
          rw [htruthy] at hat₂
          rw [if_pos rfl]
          have hround := hu.whole _ k m₂ hbody hat₂
          have hdiscard : Simulates bound ((fun _ => ()) <$> x) m₂ fun _ m' =>
              m'.At code pool (o + t.size + 3 + u.size) k ∧ m₂.SameBelow k m' :=
            hround.map fun _ _ h => ⟨h.1, h.2.1⟩
          apply (hdiscard.weaken (by omega)).bind
          rintro - m₃ ⟨hat₃, hsame₃⟩
          refine Simulates.weaken (?_ : Simulates (1 + n) _ _ _) (Nat.le_add_left _ _)
          refine .jump hat₃ hjump fun m₄ hat₄ hstack₄ => ?_
          apply (ih hat₄ (by omega)).imp
          rintro - m₅ ⟨hat₅, hsame₅⟩
          refine ⟨hat₅, (hsame₂.trans hsame₃ (Nat.le_refl k)).trans ?_ (Nat.le_refl k)⟩
          exact .trans (.of_eq hstack₄) hsame₅ (Nat.le_refl k)

/-- A loop gives null. -/
theorem loop {c : Eval Value} (ht : GivesValue code pool bound t c)
    (hu : Runs code pool bound u x) :
    GivesValue code pool bound (Assembly.loop t u (single ⟨.pushNull, []⟩))
      (do Eval.rounds c (discard x) bound; return .null) := by
  intro o k m hcode hm
  apply (rounds ht hu hcode hm (Nat.le_refl bound)).bind
  rintro - m₁ ⟨hat, hsame⟩
  have hend : o + (Assembly.loop t u (single ⟨.pushNull, []⟩)).size =
      o + t.size + 3 + u.size + 3 + (single ⟨.pushNull, []⟩).size := by
    simp only [size]
    omega
  rw [hend]
  obtain ⟨-, -, -, -, hrest⟩ := hcode.loop
  apply (GivesValue.pushNull _ k m₁ hrest hat).imp
  intro v m₂ hv
  exact ⟨hv.place, hsame.trans hv.same (Nat.le_refl k), hv.top⟩

end Runs

end ScriptEngine
