import ScriptEngine.Proofs.Machine.Capacity
import ScriptEngine.Proofs.Value.Circles
import ScriptEngine.Proofs.Value.Dict

/-!
# The integrity of the heap

A heap is intact if its objects refer only to containers that are there and every hash has an index
that agrees with its entries.  Whatever code and constants a machine runs, as long as it starts with
an intact heap and refers only to containers of it, it keeps both: every container that a step
mentions has been on the stack, in the globals or in another object before, or is new, and hashes
change by insertions only (`Machine.IsIntact.run_one`).
-/

namespace ScriptEngine

namespace Heap

variable {h h' : Heap} {v : Value}

/-- Objects refer only to containers that are there, and the index of every hash agrees with its
entries. -/
structure IsIntact (h : Heap) : Prop where
  closed : h.All h.Owns
  indexed : ∀ d ∈ h.hashes, d.IsIndexed

/-- Every container of the first heap is there in the second one. -/
def IsPartOf (h h' : Heap) : Prop :=
  ∀ v, h.Owns v → h'.Owns v

theorem IsPartOf.refl (h : Heap) : h.IsPartOf h :=
  fun _ hv => hv

theorem IsPartOf.trans {h'' : Heap} (h₁ : h.IsPartOf h') (h₂ : h'.IsPartOf h'') : h.IsPartOf h'' :=
  fun v hv => h₂ v (h₁ v hv)

theorem isIntact_empty : Heap.empty.IsIntact :=
  ⟨.empty, by simp [Heap.empty]⟩

namespace IsIntact

theorem hash (hh : h.IsIntact) (a : Nat) : (h.hash a).IsIndexed := by
  unfold Heap.hash
  cases ha : h.hashes[a]? with
  | none => exact Dict.isIndexed_empty
  | some d => exact hh.indexed d (Array.mem_of_getElem? ha)

/-- A heap whose values and hashes are as they should be, and which has lost no container. -/
theorem of_isPartOf (hpart : h.IsPartOf h') (hclosed : h'.All h.Owns)
    (hindexed : ∀ d ∈ h'.hashes, d.IsIndexed) : h'.IsIntact :=
  ⟨hclosed.imp hpart, hindexed⟩

theorem newArray (hh : h.IsIntact) {vs : Array Value} (hvs : ∀ v ∈ vs, h.Owns v) :
    (h.newArray vs).2.IsIntact :=
  of_isPartOf (Adds.newArray h vs).owns (hh.closed.newArray hvs) hh.indexed

theorem newHash (hh : h.IsIntact) {d : Dict Value} (hd : ∀ e ∈ d.entries, h.Owns e.2)
    (hindexed : d.IsIndexed) : (h.newHash d).2.IsIntact :=
  of_isPartOf (Adds.newHash h d).owns (hh.closed.newHash hd)
    (Array.forall_mem_push hh.indexed hindexed)

theorem newStruct (hh : h.IsIntact) {t : StructType} {vs : Array Value}
    (hvs : ∀ v ∈ vs, h.Owns v) : (h.newStruct t vs).2.IsIntact :=
  of_isPartOf (Adds.newStruct h t vs).owns (hh.closed.newStruct hvs) hh.indexed

theorem newClosure (hh : h.IsIntact) {f : Function} {vs : Array Value}
    (hvs : ∀ v ∈ vs, h.Owns v) : (h.newClosure f vs).2.IsIntact :=
  of_isPartOf (Adds.newClosure h f vs).owns (hh.closed.newClosure hvs) hh.indexed

theorem setField (hh : h.IsIntact) (a k : Nat) (hv : h.Owns v) : (h.setField a k v).IsIntact := by
  have hstores : h.Stores (.struct a) v (h.setField a k v) := .setField h a k
  exact of_isPartOf hstores.owns (hh.closed.setField hv) hh.indexed

theorem write (hh : h.IsIntact) (place : Place) (hv : h.Owns v) : (h.write place v).IsIntact := by
  refine of_isPartOf (Stores.write h place).owns (hh.closed.write hv) ?_
  cases place with
  | element a n => exact hh.indexed
  | tail a => exact hh.indexed
  | entry a key => exact Array.forall_mem_modify hh.indexed fun d hd => hd.insert key v

/-- What a built-in function replies is added to the heap. -/
theorem answer (hh : h.IsIntact) {reply : Reply} (hreply : reply.All h.Owns) :
    (h.answer reply).2.IsIntact ∧ h.IsPartOf (h.answer reply).2 ∧
      (h.answer reply).2.Owns ((h.answer reply).1.getD .null) := by
  cases reply with
  | nothing => exact ⟨hh, .refl _, trivial⟩
  | value v => exact ⟨hh, .refl _, hreply⟩
  | array vs =>
      refine ⟨hh.newArray hreply, (Adds.newArray h vs).owns, ?_⟩
      simp [Heap.answer, Heap.newArray, Owns]
  | print text => exact ⟨hh, .refl _, trivial⟩

end IsIntact

end Heap

theorem Exec.storePairs_isIndexed {d d' : Dict Value} {vs : List Value} (hd : d.IsIndexed)
    (h : storePairs d vs = .ok d') : d'.IsIndexed := by
  fun_induction storePairs d vs with
  | case1 d k v rest key hkey ih => exact ih (hd.insert key v) h
  | case2 => cases h
  | case3 =>
      cases h
      exact hd

/-! ## Computations that keep a machine intact -/

/-- The heap is intact, and everything refers only to containers of it. -/
structure Machine.IsIntact (m : Machine) : Prop where
  constants : ∀ v ∈ m.constants, m.heap.Owns v
  stack : ∀ v ∈ m.stack, m.heap.Owns v
  globals : ∀ v ∈ m.globals.slots, m.heap.Owns v
  heap : m.heap.IsIntact

theorem Machine.IsIntact.setHeap {m : Machine} {h : Heap} (hm : m.IsIntact)
    (hpart : m.heap.IsPartOf h) (hh : h.IsIntact) : { m with heap := h }.IsIntact where
  constants v hv := hpart v (hm.constants v hv)
  stack v hv := hpart v (hm.stack v hv)
  globals v hv := hpart v (hm.globals v hv)
  heap := hh

/-- The computation leaves the machine intact, however it ends; it loses no container, and its
result is good for the heap that it leaves. -/
def Preserves {α : Type} (good : Heap → α → Prop) (x : Exec α) (m : Machine) : Prop :=
  Ends x m (fun a m' => m'.IsIntact ∧ m.heap.IsPartOf m'.heap ∧ good m'.heap a)
    fun _ m' => m'.IsIntact

namespace Preserves

variable {α β : Type} {good : Heap → α → Prop} {good' : Heap → β → Prop} {m : Machine} {x : Exec α}

theorem bind {k : α → Exec β} (hx : Preserves good x m)
    (hk : ∀ a m', m'.IsIntact → m.heap.IsPartOf m'.heap → good m'.heap a →
      Preserves good' (k a) m') : Preserves good' (x >>= k) m := by
  refine Ends.bind hx ?_
  rintro a m' ⟨hm', hpart, ha⟩
  refine (hk a m' hm' hpart ha).imp ?_
  rintro b m'' ⟨hm'', hpart', hb⟩
  exact ⟨hm'', hpart.trans hpart', hb⟩

theorem get_bind {k : Machine → Exec α} (hk : Preserves good (k m) m) :
    Preserves good (get >>= k) m :=
  Ends.get_bind hk

theorem throw (hm : m.IsIntact) (stop : Stop RuntimeError) :
    Preserves good (throw stop : Exec α) m :=
  Ends.of_throw hm

theorem fail (hm : m.IsIntact) (e : RuntimeError) : Preserves good (Exec.fail e : Exec α) m :=
  throw hm _

theorem crash (hm : m.IsIntact) (c : Crash) : Preserves good (Exec.crash c : Exec α) m :=
  throw hm _

theorem pure (hm : m.IsIntact) {a : α} (ha : good m.heap a) :
    Preserves good (Pure.pure a : Exec α) m :=
  Ends.of_pure ⟨hm, .refl _, ha⟩

theorem ofExcept (hm : m.IsIntact) {r : Except RuntimeError α}
    (hr : ∀ a, r = .ok a → good m.heap a) : Preserves good (Exec.ofExcept r) m := by
  cases r with
  | ok a => exact pure hm (hr a rfl)
  | error e => exact fail hm e

theorem push (hm : m.IsIntact) {v : Value} (hv : m.heap.Owns v) :
    Preserves (fun _ _ => True) (Exec.push v) m := by
  by_cases hroom : m.sp < m.stack.size
  · refine Ends.of_ok (if_pos hroom) ⟨?_, .refl _, trivial⟩
    exact { hm with stack := Array.forall_mem_set hm.stack hv }
  · exact Ends.of_error (if_neg hroom) hm

theorem pop (hm : m.IsIntact) : Preserves Heap.Owns Exec.pop m := by
  unfold Preserves Ends Exec.pop
  by_cases hempty : m.sp = 0
  · simp only [hempty, if_true]
    exact hm
  · simp only [hempty, if_false]
    cases hslot : m.stack[m.sp - 1]? with
    | some v => exact ⟨{ hm with }, .refl _, hm.stack v (Array.mem_of_getElem? hslot)⟩
    | none => exact { hm with }

theorem takeTop (hm : m.IsIntact) (count : Nat) :
    Preserves (fun h vs => ∀ v ∈ vs, h.Owns v) (Exec.takeTop count) m := by
  unfold Preserves Ends Exec.takeTop
  by_cases hfew : m.sp < count
  · rw [if_pos hfew]
    exact hm
  · rw [if_neg hfew]
    by_cases hpast : m.stack.size < m.sp
    · rw [if_pos hpast]
      exact hm
    · rw [if_neg hpast]
      refine ⟨{ hm with }, .refl _, fun v hv => ?_⟩
      obtain ⟨k, hk, rfl⟩ := Array.mem_iff_getElem.mp hv
      rw [Array.getElem_extract]
      exact hm.stack _ (Array.getElem_mem _)

theorem constant (hm : m.IsIntact) (op : Opcode) (index : Nat) :
    Preserves Heap.Owns (Exec.constant op index) m := by
  unfold Preserves Ends Exec.constant
  cases hconstant : m.constants[index]? with
  | some v => exact ⟨hm, .refl _, hm.constants v (Array.mem_of_getElem? hconstant)⟩
  | none => exact hm

/-- A new object is put on the stack. -/
theorem allocate (hm : m.IsIntact) {new : Heap → Value × Heap}
    (hpart : m.heap.IsPartOf (new m.heap).2) (hheap : (new m.heap).2.IsIntact)
    (hvalue : (new m.heap).2.Owns (new m.heap).1) :
    Preserves (fun _ _ => True) (Exec.allocate new >>= fun v => Exec.push v) m := by
  have hnew : Preserves Heap.Owns (Exec.allocate new) m :=
    Ends.of_ok rfl ⟨hm.setHeap hpart hheap, hpart, hvalue⟩
  exact hnew.bind fun v m' hm' _ hv => push hm' hv

theorem frame_bind {k : Frame → Exec α} (hm : m.IsIntact) (hk : ∀ f, Preserves good (k f) m) :
    Preserves good (Exec.frame >>= k) m := by
  cases hframes : m.frames with
  | nil =>
      have hframe : Exec.frame m = .error (.crash .noOpenCall) m := by
        simp only [Exec.frame, hframes]
      exact Ends.bind_of_error hframe hm
  | cons f fs => exact Ends.bind_of_ok (Exec.frame_eq hframes) (hk f)

theorem modifyFrame (hm : m.IsIntact) (change : Frame → Frame) :
    Preserves (fun _ _ => True) (Exec.modifyFrame change) m := by
  unfold Preserves Ends Exec.modifyFrame
  cases m.frames with
  | nil => exact hm
  | cons f fs => exact ⟨{ hm with }, .refl _, trivial⟩

end Preserves

/-! ## Instructions -/

/-- The computation of an instruction leaves the machine intact, however it ends. -/
abbrev Executed (x : Exec Unit) (m : Machine) : Prop :=
  Preserves (fun _ _ => True) x m

namespace Executed

variable {m : Machine}

/-- Takes two values and goes on with them. -/
theorem pop_two (hm : m.IsIntact) {k : Value → Value → Exec Unit}
    (hk : ∀ v w m', m'.IsIntact → m.heap.IsPartOf m'.heap → m'.heap.Owns v → Executed (k v w) m') :
    Executed (Exec.pop >>= fun v => Exec.pop >>= fun w => k v w) m := by
  refine .bind (.pop hm) fun v m₁ hm₁ hpart₁ hv => .bind (.pop hm₁) fun w m₂ hm₂ hpart₂ _ => ?_
  exact hk v w m₂ hm₂ (hpart₁.trans hpart₂) (hpart₂ v hv)

/-- Puts the result of a computation that does not involve the machine. -/
theorem push_result (hm : m.IsIntact) {r : Except RuntimeError Value}
    (hr : ∀ v, r = .ok v → m.heap.Owns v) :
    Executed (Exec.ofExcept r >>= fun v => Exec.push v) m :=
  .bind (.ofExcept hm hr) fun _ _ hm' _ hv => .push hm' hv

theorem binary (hm : m.IsIntact) (op : Operation) : Executed (Exec.binary op) m :=
  pop_two hm fun _ _ m' hm' _ _ =>
    push_result hm' fun _ hv => m'.heap.owns_of_isPlain (Operation.isPlain_of_apply hv)

theorem equality (hm : m.IsIntact) (expected : Bool) : Executed (Exec.equality expected) m :=
  pop_two hm fun _ _ _ hm' _ _ => .push hm' trivial

theorem negate (hm : m.IsIntact) :
    Executed (do Exec.push (← Exec.ofExcept (← Exec.pop).opposite)) m :=
  .bind (.pop hm) fun _ m' hm' _ _ =>
    push_result hm' fun _ hv => m'.heap.owns_of_isPlain (Value.isPlain_of_opposite hv)

theorem jumpNotTruthy (hm : m.IsIntact) (target : Nat) :
    Executed (Exec.jumpNotTruthy target) m := by
  refine .bind (.pop hm) fun v m' hm' _ _ => ?_
  cases v.isTruthy with
  | true => exact .pure hm' trivial
  | false => exact .modifyFrame hm' _

theorem setGlobal (hm : m.IsIntact) (index : Nat) : Executed (Exec.setGlobal index) m := by
  refine .bind (.pop hm) fun v m' hm' _ hv => ?_
  unfold Preserves Ends
  by_cases hindex : index < m'.globals.size
  · simp only [hindex, if_true]
    exact ⟨{ hm' with globals := Array.forall_mem_set hm'.globals hv }, .refl _, trivial⟩
  · simp only [hindex, if_false]
    exact hm'

theorem getGlobal (hm : m.IsIntact) (index : Nat) : Executed (Exec.getGlobal index) m :=
  .get_bind (push_result hm fun v hv => hm.globals v (Globals.mem_of_get hv))

theorem setLocal (hm : m.IsIntact) (index : Nat) : Executed (Exec.setLocal index) m := by
  refine .frame_bind hm fun f => .bind (.pop hm) fun v m' hm' _ hv => ?_
  unfold Preserves Ends
  by_cases hslot : f.base + index < m'.stack.size
  · simp only [hslot, if_true]
    exact ⟨{ hm' with stack := Array.forall_mem_set hm'.stack hv }, .refl _, trivial⟩
  · simp only [hslot, if_false]
    exact hm'

theorem getLocal (hm : m.IsIntact) (index : Nat) : Executed (Exec.getLocal index) m := by
  refine .frame_bind hm fun f => .get_bind ?_
  cases hslot : m.stack[f.base + index]? with
  | some v => exact .push hm (hm.stack v (Array.mem_of_getElem? hslot))
  | none => exact .crash hm _

theorem getFree (hm : m.IsIntact) (index : Nat) : Executed (Exec.getFree index) m := by
  refine .frame_bind hm fun f => .get_bind ?_
  cases hfree : (m.closureOf f).captured[index]? with
  | some v =>
      exact .push hm (Machine.captured_all hm.heap.closed f v (Array.mem_of_getElem? hfree))
  | none => exact .fail hm _

theorem getBuiltin (hm : m.IsIntact) (index : Nat) : Executed (Exec.getBuiltin index) m := by
  unfold Exec.getBuiltin
  cases Builtin.ofIndex? index with
  | some b => exact .push hm trivial
  | none => exact .fail hm _

theorem currentClosure (hm : m.IsIntact) : Executed Exec.currentClosure m := by
  refine .frame_bind hm fun f => .get_bind ?_
  cases f.routine with
  | closure address => exact .push hm trivial
  | main code =>
      cases m.mainAddress with
      | some address => exact .push hm trivial
      | none =>
          refine Ends.modify_bind ?_
          exact Preserves.allocate (m := { m with mainAddress := some m.heap.closures.size })
            { hm with } (Heap.Adds.newClosure _ _ _).owns (hm.heap.newClosure (by simp)) trivial

theorem makeArray (hm : m.IsIntact) (count : Nat) : Executed (Exec.makeArray count) m :=
  .bind (.takeTop hm count) fun vs m' hm' _ hvs =>
    .allocate hm' (Heap.Adds.newArray _ vs).owns (hm'.heap.newArray hvs)
      (by simp [Heap.Owns, Heap.newArray])

theorem makeHash (hm : m.IsIntact) (count : Nat) : Executed (Exec.makeHash count) m := by
  refine .bind (.takeTop hm count) fun vs m₁ hm₁ _ hvs => ?_
  have hpairs : Preserves (fun h d => (∀ e ∈ d.entries, h.Owns e.2) ∧ d.IsIndexed)
      (Exec.ofExcept (Exec.storePairs .empty vs.toList)) m₁ := by
    apply Preserves.ofExcept hm₁
    intro d hd
    exact ⟨Exec.storePairs_all (by simp [Dict.empty]) (by simpa using hvs) hd,
      Exec.storePairs_isIndexed Dict.isIndexed_empty hd⟩
  apply hpairs.bind
  rintro d m₂ hm₂ - ⟨hentries, hindexed⟩
  exact .allocate hm₂ (Heap.Adds.newHash _ d).owns (hm₂.heap.newHash hentries hindexed)
    (by simp [Heap.Owns, Heap.newHash])

theorem getIndex (hm : m.IsIntact) : Executed Exec.getIndex m :=
  pop_two hm fun _ _ _ hm' _ _ =>
    .get_bind (push_result hm' fun _ hv => hm'.heap.closed.index trivial hv)

theorem setHeap (hm : m.IsIntact) {g : Machine → Machine} {h : Heap}
    (hg : g m = { m with heap := h }) (hpart : m.heap.IsPartOf h) (hh : h.IsIntact) :
    Executed (modify g) m := by
  refine Ends.of_modify ?_
  rw [hg]
  exact ⟨hm.setHeap hpart hh, hpart, trivial⟩

theorem setIndex (hm : m.IsIntact) : Executed Exec.setIndex m := by
  refine .bind (.pop hm) fun v m₁ hm₁ _ hv => pop_two hm₁ fun _ _ m₂ hm₂ hpart₂ _ => .get_bind ?_
  have hplace (r : Except RuntimeError Place) : Preserves (fun _ _ => True) (Exec.ofExcept r) m₂ :=
    .ofExcept hm₂ fun _ _ => trivial
  apply (hplace _).bind
  intro place m₃ hm₃ hpart₃ _
  have hv₃ : m₃.heap.Owns v := hpart₃ v (hpart₂ v hv)
  exact setHeap hm₃ rfl (Heap.Stores.write m₃.heap place).owns (hm₃.heap.write place hv₃)

theorem makeClosure (hm : m.IsIntact) (index count : Nat) :
    Executed (Exec.makeClosure index count) m := by
  refine .bind (.constant hm .closure index) fun v m₁ hm₁ _ _ => ?_
  cases v with
  | function f =>
      exact .bind (.takeTop hm₁ count) fun vs m₂ hm₂ _ hvs =>
        .allocate hm₂ (Heap.Adds.newClosure _ _ vs).owns (hm₂.heap.newClosure hvs) trivial
  | _ => exact .fail hm₁ _

theorem makeStruct (hm : m.IsIntact) (index count : Nat) :
    Executed (Exec.makeStruct index count) m := by
  refine .bind (.constant hm .struct index) fun v m₁ hm₁ _ _ => ?_
  cases v with
  | structType t =>
      exact .bind (.takeTop hm₁ count) fun vs m₂ hm₂ _ hvs =>
        .allocate hm₂ (Heap.Adds.newStruct _ _ vs).owns (hm₂.heap.newStruct hvs)
          (by simp [Heap.Owns, Heap.newStruct])
  | _ => exact .fail hm₁ _

theorem getField (hm : m.IsIntact) (index : Nat) : Executed (Exec.getField index) m := by
  refine .bind (.pop hm) fun object m' hm' _ _ => .get_bind ?_
  cases object with
  | struct a =>
      simp only
      cases hfield : (m'.heap.struct a).fields[index]? with
      | some v => exact .push hm' (hm'.heap.closed.struct a v (Array.mem_of_getElem? hfield))
      | none => exact .fail hm' _
  | _ => exact .fail hm' _

theorem setField (hm : m.IsIntact) (index : Nat) : Executed (Exec.setField index) m := by
  refine pop_two hm fun value object m' hm' _ hvalue => .get_bind ?_
  cases object with
  | struct a =>
      by_cases hindex : index < (m'.heap.struct a).fields.size
      · simp only [hindex, if_true]
        exact setHeap hm' rfl (Heap.Stores.setField _ a index).owns
          (hm'.heap.setField a index hvalue)
      · simp only [hindex, if_false]
        exact .fail hm' _
  | _ => exact .fail hm' _

theorem callClosure (hm : m.IsIntact) (address argc : Nat) :
    Executed (Exec.callClosure address argc) m := by
  unfold Executed Preserves Ends Exec.callClosure
  dsimp only
  split_ifs
  · exact hm
  · exact hm
  · exact hm
  · exact hm
  · exact ⟨{ hm with stack := Machine.nullFrom_forall hm.stack trivial }, .refl _, trivial⟩

theorem callBuiltin (hm : m.IsIntact) (b : Builtin) (argc : Nat) :
    Executed (Exec.callBuiltin b argc) m := by
  refine .get_bind ?_
  by_cases hpast : m.stack.size < m.sp
  · rw [if_pos hpast]
    exact .crash hm _
  · rw [if_neg hpast]
    have hargs : ∀ v ∈ (m.stack.extract (m.sp - argc) m.sp).toList, m.heap.Owns v := by
      intro v hv
      obtain ⟨k, hk, rfl⟩ := Array.mem_iff_getElem.mp (Array.mem_toList_iff.mp hv)
      rw [Array.getElem_extract]
      exact hm.stack _ (Array.getElem_mem _)
    cases hreply : b.reply m.heap (m.stack.extract (m.sp - argc) m.sp).toList with
    | error stop => exact .throw hm stop
    | ok reply =>
        have hall := Builtin.reply_all (fun _ => trivial) hm.heap.closed hargs hreply
        obtain ⟨hheap, hpart, hvalue⟩ := hm.heap.answer hall
        have hafter : { m with
            sp := m.sp - (argc + 1)
            heap := (m.heap.answer reply).2
            output := m.output ++ reply.printed }.IsIntact := { hm.setHeap hpart hheap with }
        refine (Preserves.push hafter hvalue).imp ?_
        rintro _ m' ⟨hm', hpart', -⟩
        exact ⟨hm', hpart.trans hpart', trivial⟩

theorem call (hm : m.IsIntact) (argc : Nat) : Executed (Exec.call argc) m := by
  refine .get_bind ?_
  by_cases hfew : m.sp < argc + 1
  · rw [if_pos hfew]
    exact .fail hm _
  · rw [if_neg hfew]
    cases m.stack[m.sp - (argc + 1)]? with
    | none => exact .crash hm _
    | some v =>
        cases v with
        | closure a => exact callClosure hm a argc
        | builtin b => exact callBuiltin hm b argc
        | _ => exact .fail hm _

theorem returnFrom (hm : m.IsIntact) {v : Value} (hv : m.heap.Owns v) :
    Executed (Exec.returnFrom v) m := by
  refine Ends.modify_bind ?_
  cases hframes : m.frames with
  | nil => exact Preserves.push hm hv
  | cons f fs =>
      exact Preserves.push (m := { m with frames := fs, sp := f.base - 1 }) { hm with } hv

/-- Executing an instruction leaves an intact machine intact, whatever the instruction and the stack
are. -/
theorem execute (hm : m.IsIntact) (i : Instruction) : Executed (Exec.execute i) m := by
  obtain ⟨op, ns⟩ := i
  cases op with
  | constant => exact .bind (.constant hm _ _) fun _ _ hm' _ hv => .push hm' hv
  | pushTrue | pushFalse | pushNull => exact .push hm trivial
  | add | sub | mul | div | greater | greaterOrEqual | and | or => exact binary hm _
  | equal | notEqual => exact equality hm _
  | negate => exact negate hm
  | not => exact .bind (.pop hm) fun _ _ hm' _ _ => .push hm' trivial
  | jump => exact .modifyFrame hm _
  | jumpNotTruthy => exact jumpNotTruthy hm _
  | getGlobal | getConstGlobal => exact getGlobal hm _
  | setGlobal | setConstGlobal => exact setGlobal hm _
  | getLocal | getConstLocal => exact getLocal hm _
  | setLocal | setConstLocal => exact setLocal hm _
  | getFree => exact getFree hm _
  | getBuiltin => exact getBuiltin hm _
  | currentClosure => exact currentClosure hm
  | array => exact makeArray hm _
  | hash => exact makeHash hm _
  | index => exact getIndex hm
  | setIndex => exact setIndex hm
  | call => exact call hm _
  | returnValue => exact .bind (.pop hm) fun _ _ hm' _ hv => returnFrom hm' hv
  | returnNull => exact returnFrom hm trivial
  | closure => exact makeClosure hm _ _
  | struct => exact makeStruct hm _ _
  | getField => exact getField hm _
  | setField => exact setField hm _
  | pop => exact Ends.of_discard ((Preserves.pop hm).imp fun _ _ h => ⟨h.1, h.2.1, trivial⟩)

end Executed

/-! ## Runs -/

namespace Machine

variable {m : Machine}

/-- One step leaves an intact machine intact, however it ends. -/
theorem IsIntact.run_one (hm : m.IsIntact) : (m.run 1).machine.IsIntact := by
  rcases m.run_one_eq_finished_or with hrun | ⟨f, fs, hframes, hip⟩
  · rw [hrun]
    exact hm
  · cases hdecode : (m.codeOf f).decode f.ip with
    | error e =>
        rcases run_one_of_decode_eq_error hframes hip hdecode with
          ⟨byte, -, hrun⟩ | ⟨-, offset, hrun⟩ <;> rw [hrun]
        · exact hm
        · exact { hm with }
    | ok i =>
        have hexecuted := Executed.execute
          (m := { m with frames := f.goTo (f.ip + i.width) :: fs }) { hm with } i
        rw [run_one_of_decode_eq_ok hframes hdecode]
        cases hexec : Exec.execute i { m with frames := f.goTo (f.ip + i.width) :: fs } with
        | ok u m' => exact (hexecuted.ok hexec).1
        | error stop m' => exact hexecuted.error hexec

/-- A run leaves an intact machine intact. -/
theorem IsIntact.run (hm : m.IsIntact) (n : Nat) : (m.run n).machine.IsIntact :=
  run_induction (fun _ => IsIntact.run_one) hm n

/-- A machine is intact that is about to run a code on an intact heap. -/
theorem isIntact_initial {constants : Array Value} {globals : Globals} {heap : Heap} (code : Code)
    (limits : Limits) (hconstants : ∀ v ∈ constants, heap.Owns v)
    (hglobals : ∀ v ∈ globals.slots, heap.Owns v) (hheap : heap.IsIntact) :
    (initial code constants limits globals heap).IsIntact where
  constants := hconstants
  stack := by
    intro v hv
    obtain ⟨-, rfl⟩ := Array.mem_replicate.mp hv
    trivial
  globals := hglobals
  heap := hheap

end Machine

end ScriptEngine
