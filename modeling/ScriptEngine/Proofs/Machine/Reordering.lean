import ScriptEngine.Proofs.Compile.Reordering
import ScriptEngine.Proofs.Machine.Declaring
import ScriptEngine.Proofs.Machine.Renumbering
import ScriptEngine.Proofs.Machine.Rendering

/-!
# Declaring functions in another order

Two programs that differ in the order of their first function declarations compile to units that are
the same up to the numbers of global slots and constants and up to the order in which closures are
made.  Running the first unit with the numbers of the second one changes nothing but numbers
(`Machine.IsRenumberable.run`); after the declarations, it and the second unit run the same code,
with other addresses for closures (`Excerpt.Mirrors.run`).  Hence the programs print the same and
end in the same way.
-/

namespace ScriptEngine

variable {ν : Numbering} {places places' : List (Nat × Nat)} {t : Assembly} {unit unit' : Bytecode}
  {limits : Limits}

/-! ## Units -/

theorem Assembly.balanced_declaring_append {allowed : Instruction → Prop} {k : Nat}
    (hstore : ∀ slot, allowed ⟨.setConstGlobal, [slot]⟩) :
    Balanced allowed 0 (declaring places ++ t) k ↔
      (∀ place ∈ places, allowed ⟨.closure, [place.1, 0]⟩) ∧ Balanced allowed 0 t k := by
  induction places with
  | nil => simp [declaring]
  | cons place places ih =>
      rw [List.forall_mem_cons, and_assoc, ← ih]
      constructor
      · intro h
        cases h with
        | op closure _ _ tail =>
            cases tail with
            | op _ _ _ tail => exact ⟨closure, tail⟩
      · rintro ⟨hclosure, h⟩
        exact .op hclosure rfl (Nat.zero_le _) (.op (hstore _) rfl (Nat.le_refl _) h)

theorem Code.Contains.after_declaring {c : Code}
    (h : c.Contains 0 ((Assembly.declaring places ++ t).instrs 0)) :
    c.Contains (7 * places.length) (t.instrs (7 * places.length)) := by
  rw [Assembly.instrs_append] at h
  have hrest := h.append_right
  simp only [Nat.zero_add, Assembly.totalWidth_instrs, Assembly.size_declaring] at hrest
  exact hrest

/-- The unit is written as safe structured code, and so are its functions. -/
structure Bytecode.Follows (unit : Bytecode) (t : Assembly) : Prop where
  contains : unit.code.Contains 0 (t.instrs 0)
  size : unit.code.size = t.size
  balanced : t.Balanced ((Code.mainRoom unit.constants).Admits (Function.Safe unit.constants)) 0 0
  functions : ∀ f, Value.function f ∈ unit.constants → f.content.code.IsLaidOut

namespace Bytecode.Follows

theorem isLaidOut (h : unit.Follows t) : unit.code.IsLaidOut :=
  ⟨_, t, 0, h.contains, h.size, h.balanced⟩

theorem sound_machine (h : unit.Follows t) (limits : Limits) :
    (unit.machine limits).Sound unit.code := by
  obtain ⟨within, hcode⟩ := Code.safeMain_of_balanced h.contains h.size h.balanced
  refine Machine.sound_initial limits hcode ((Session.sound_new limits).store.continues ?_)
  intro k v hv
  cases hv

end Bytecode.Follows

theorem Bytecode.conducts_machine (unit : Bytecode) (limits : Limits) :
    (unit.machine limits).Conducts fun _ => True := by
  refine Machine.conducts_initial limits _ ?_ ?_ ?_
  · exact fun _ _ _ _ _ _ => trivial
  · exact fun _ _ _ _ => trivial
  · intro c hc
    exact absurd hc (Array.not_mem_empty c)

/-- The functions among the constants that are declared in the first slots, in this order. -/
abbrev declared (constants : Array Value) (places : List (Nat × Nat)) : List Function :=
  places.map fun place => functionAt constants place.1

/-- The code of the unit begins by declaring functions in the first slots. -/
structure Bytecode.BeginsWith (unit : Bytecode) (places : List (Nat × Nat)) (t : Assembly) : Prop
    extends unit.Follows (.declaring places ++ t) where
  slots : places.map Prod.snd = List.range places.length
  functions_at : ∀ place ∈ places, ∃ f, unit.constants[place.1]? = some (.function f)

namespace Bytecode.BeginsWith

theorem declares (h : unit.BeginsWith places t) :
    unit.code.Declares unit.constants 0 (declared unit.constants places) := by
  have hcode := h.contains
  rw [Assembly.instrs_append] at hcode
  refine Code.declares_of_contains hcode.append_left ?_ h.functions_at
  rw [h.slots, List.range_eq_range']

theorem slot_eq (h : unit.BeginsWith places t) {k : Nat} {place : Nat × Nat}
    (hk : places[k]? = some place) : place.2 = k := by
  have hslot := congrArg (·[k]?) h.slots
  have hlt := (List.getElem?_eq_some_iff.mp hk).1
  simp only [List.getElem?_map, hk, Option.map_some, List.getElem?_range hlt] at hslot
  exact Option.some.inj hslot

end Bytecode.BeginsWith

/-- The second unit is the first one with other numbers and another order of declarations. -/
structure Bytecode.Reorders (ν : Numbering) (places places' : List (Nat × Nat)) (t : Assembly)
    (unit unit' : Bytecode) : Prop where
  first : unit.BeginsWith places t
  second : unit'.BeginsWith places' (t.renumber ν)
  rearranges : Rearranges ν places.length places places' unit.constants unit'.constants

namespace Bytecode.Reorders

theorem length_places (h : Reorders ν places places' t unit unit') :
    places'.length = places.length := by
  rw [h.rearranges.places.length_eq, List.length_map]

/-- The first unit with the numbers and the constants of the second one. -/
theorem follows_renumber (h : Reorders ν places places' t unit unit') :
    (⟨unit.code.renumber ν, unit'.constants⟩ : Bytecode).Follows
      (.declaring (places.map (Prod.map ν.constants ν.slots)) ++ t.renumber ν) := by
  have hnarrow := h.rearranges.narrow
  have hcode := h.first.contains
  have hstructured : (Assembly.declaring places ++ t).renumber ν =
      .declaring (places.map (Prod.map ν.constants ν.slots)) ++ t.renumber ν := by
    rw [Assembly.renumber_append, Assembly.renumber_declaring]
  have hstore (slot : Nat) : (Code.mainRoom unit'.constants).Admits
      (Function.Safe unit'.constants) ⟨.setConstGlobal, [slot]⟩ := trivial
  obtain ⟨hplaces, hrest⟩ := (Assembly.balanced_declaring_append hstore).mp h.second.balanced
  rw [← hstructured]
  refine ⟨?_, ?_, ?_, h.second.functions⟩
  · rw [Assembly.instrs_renumber]
    have hadds := Code.adds_of_contains hcode (by rw [h.first.size, Assembly.totalWidth_instrs])
    exact (hadds.renumber hnarrow).contains
  · rw [Assembly.size_renumber, ← h.first.size]
    exact h.first.isLaidOut.size_renumber hnarrow
  · rw [hstructured]
    refine (Assembly.balanced_declaring_append hstore).mpr ⟨fun place hplace => ?_, hrest⟩
    exact hplaces place (h.rearranges.places.mem_iff.mpr hplace)

/-- The code after the declarations stands at the same place in the second unit and in the
renumbered first one. -/
theorem contains_rest (h : Reorders ν places places' t unit unit') :
    (unit.code.renumber ν).Contains (7 * places.length)
        ((t.renumber ν).instrs (7 * places.length)) ∧
      unit'.code.Contains (7 * places.length) ((t.renumber ν).instrs (7 * places.length)) := by
  have hrest := h.follows_renumber.contains.after_declaring
  have hrest' := h.second.contains.after_declaring
  rw [List.length_map] at hrest
  rw [h.length_places] at hrest'
  exact ⟨hrest, hrest'⟩

theorem size_second (h : Reorders ν places places' t unit unit') :
    unit'.code.size = 7 * places.length + (t.renumber ν).size := by
  rw [h.second.size, Assembly.size_append, Assembly.size_declaring, h.length_places]

theorem balanced_rest (h : Reorders ν places places' t unit unit') :
    (t.renumber ν).Balanced ((Code.mainRoom unit'.constants).Admits
      (Function.Safe unit'.constants)) 0 0 :=
  ((Assembly.balanced_declaring_append fun _ => trivial).mp h.second.balanced).2

end Bytecode.Reorders

/-! ## After the declarations -/

namespace Bytecode.Reorders

/-- After the declarations, the second unit is an excerpt of the renumbered first one.  The closure
of a declared function has the number of its slot. -/
def excerpt (h : Reorders ν places places' t unit unit') : Excerpt where
  whole := unit.code.renumber ν
  part := unit'.code
  start := 0
  names := ν.slots
  inside := Assembly.Between (7 * places.length) ((t.renumber ν).instrs (7 * places.length))
  embeds := by
    intro offset i hinside hi
    obtain ⟨hrest, hrest'⟩ := h.contains_rest
    refine ⟨i, ?_, .refl i⟩
    have hsame : (unit.code.renumber ν).Contains (7 * places.length)
        (((t.renumber ν).instrs (7 * places.length)).map id) := by rwa [List.map_id]
    refine Code.decode_map hrest' ?_ hsame (fun _ => rfl) hinside hi
    rw [h.size_second, Assembly.totalWidth_instrs]
  onward := by
    intro offset target i hinside hi hnext
    exact Code.between_next h.balanced_rest h.contains_rest.2 h.size_second hinside hi hnext

/-- Each declared function is found in the second unit under the other number of its slot. -/
theorem functionAt_slots (h : Reorders ν places places' t unit unit') (k : Nat) :
    (declared unit'.constants places')[ν.slots k]? =
      (declared unit.constants places)[k]?.map (Function.renumber ν) := by
  rw [List.getElem?_map, List.getElem?_map]
  by_cases hk : k < places.length
  · have hplace := List.getElem?_eq_getElem hk
    generalize places[k] = place at hplace
    obtain ⟨f, hf⟩ := h.first.functions_at place (List.mem_of_getElem? hplace)
    have hmem : Prod.map ν.constants ν.slots place ∈ places' :=
      h.rearranges.places.mem_iff.mpr (List.mem_map_of_mem (List.mem_of_getElem? hplace))
    obtain ⟨j, hj⟩ := List.mem_iff_getElem?.mp hmem
    have hslots : ν.slots place.2 = j := h.second.slot_eq hj
    rw [h.first.slot_eq hplace] at hslots
    have hf' : unit'.constants[ν.constants place.1]? =
        some (.function ⟨ν.constants f.mark, f.content.renumber ν⟩) := by
      rw [h.rearranges.constants, hf]
      rfl
    rw [hslots, hj, hplace, Option.map_some, Option.map_some, Option.map_some, functionAt_eq hf]
    exact congrArg some (functionAt_eq hf')
  · have hle := Nat.le_of_not_lt hk
    rw [h.rearranges.fixed k hle, List.getElem?_eq_none hle,
      List.getElem?_eq_none (h.length_places.symm ▸ hle)]
    rfl

end Bytecode.Reorders

/-- The first slots hold the closures that were made for them, whatever their order. -/
theorem Globals.holding_renumber {size count : Nat} (hfixed : ∀ k, count ≤ k → ν.slots k = k)
    (hfits : count ≤ size) :
    ((holding size count).renumber ν).rename ν.slots = holding size count := by
  have hsize : ∀ k, size ≤ k → ν.slots k = k := fun k hk => hfixed k (Nat.le_trans hfits hk)
  have hslots (k : Nat) : ((holding size count).renumber ν).slots[ν.slots k]? =
      (holding size count).slots[k]? :=
    getElem?_renumber (by rwa [size_holding]) k
  refine ext_of_slots ν fun k => ?_
  rw [rename, Array.getElem?_map, hslots, getElem?_holding, getElem?_holding]
  simp only [Numbering.slots_lt_iff hfixed, Numbering.slots_lt_iff hsize]
  by_cases hk : k < size
  · by_cases hcount : k < count
    · simp only [if_pos hk, if_pos hcount]
      rfl
    · simp only [if_pos hk, if_neg hcount]
      rfl
  · simp only [if_neg hk]
    rfl

/-- A machine that is about to run a unit, renumbered, is about to run the renumbered unit. -/
theorem Bytecode.machine_renumber (unit : Bytecode) (constants : Array Value) (limits : Limits) :
    (unit.machine limits).renumber ν constants =
      (⟨unit.code.renumber ν, constants⟩ : Bytecode).machine limits := by
  have hheap : Heap.empty.renumber ν = .empty := by
    simp only [Heap.renumber, Heap.empty, Array.map_empty]
  simp only [machine, Machine.renumber, Machine.initial, Globals.ofSize_renumber, hheap]
  rfl

/-- The value that the second machine took last is the one that the first one took last, up to the
numbers in code and the addresses `σ` of closures. -/
structure Machine.TakesAlike (ν : Numbering) (σ : Nat → Nat) (m m' : Machine) : Prop where
  heap : (m.heap.renumber ν).Renamed σ m'.heap
  last : m'.lastTaken = m.lastTaken.rename σ
  text : m'.heap.text? m'.lastTaken = m.heap.text? m.lastTaken

namespace Bytecode.Reorders

variable {n n' : Machine}

/-- The heaps after the declarations. -/
theorem heap_renamed (h : Reorders ν places places' t unit unit')
    (hn : n.HasDeclared unit limits (declared unit.constants places))
    (hn' : n'.HasDeclared unit' limits (declared unit'.constants places')) :
    (n.heap.renumber ν).Renamed ν.slots n'.heap := by
  rw [hn.heap, hn'.heap]
  refine ⟨ν.slots.injective, Array.map_empty.symm, Array.map_empty.symm, Array.map_empty.symm,
    ?_, ?_, ?_⟩
  · simp only [Heap.renumber, Array.size_map, size_closuresOf, List.length_map, h.length_places]
  · intro k c hc
    simp only [Heap.renumber, Array.getElem?_map, getElem?_closuresOf] at hc
    rw [getElem?_closuresOf, h.functionAt_slots]
    obtain ⟨d, hd, rfl⟩ := Option.map_eq_some_iff.mp hc
    obtain ⟨f, hf, rfl⟩ := Option.map_eq_some_iff.mp hd
    simp only [hf, Option.map_some, Closure.rename, Closure.renumber, Array.map_empty]
  · intro k hk
    simp only [Heap.renumber, Array.size_map, size_closuresOf, List.length_map] at hk
    exact h.rearranges.fixed k hk

/-- After the declarations, the machines correspond. -/
theorem mirrors (h : Reorders ν places places' t unit unit')
    (hn : n.HasDeclared unit limits (declared unit.constants places))
    (hn' : n'.HasDeclared unit' limits (declared unit'.constants places')) :
    h.excerpt.Mirrors "" 0 (n.renumber ν unit'.constants) n' := by
  have hfits := hn.fits
  have hlength (constants : Array Value) : (declared constants places).length = places.length :=
    List.length_map _
  have hlength' (constants : Array Value) : (declared constants places').length = places.length :=
    (List.length_map _).trans h.length_places
  rw [hlength] at hfits
  have hglobals : n'.globals = (n.globals.renumber ν).rename ν.slots := by
    rw [hn.globals, hn'.globals, hlength, hlength',
      Globals.holding_renumber h.rearranges.fixed hfits]
  have hcalls : h.excerpt.Calls (n.renumber ν unit'.constants).frames n'.frames := by
    rw [Machine.frames_renumber hn.frames, hn'.frames, hlength, hlength']
    have hstart : h.excerpt.inside (7 * places.length) := ⟨[], _, rfl, rfl⟩
    exact .main hstart
  exact {
    globals := hglobals
    heap := h.heap_renamed hn hn'
    output := by
      change n.output = "" ++ n'.output
      rw [hn.output, hn'.output]
      rfl
    constants := by
      rw [hn'.constants]
      exact .refl _
    maxFrames := hn'.maxFrames.trans hn.maxFrames.symm
    sp := hn'.sp.trans hn.sp.symm
    sp_le := Nat.le_of_eq hn.sp
    slots := ⟨hn'.stack.trans hn.stack.symm, fun k hk => absurd hk (Nat.not_lt_zero k)⟩
    calls := hcalls }

theorem isRenumberable (h : Reorders ν places places' t unit unit')
    (hfits : places.length ≤ limits.globalsSize) :
    (unit.machine limits).IsRenumberable ν unit'.constants unit.code where
  narrow := h.rearranges.narrow
  slots k hk := by
    have hsize : limits.globalsSize ≤ k := by
      rw [← Array.size_replicate (n := limits.globalsSize) (v := Value.null)]
      exact hk
    exact h.rearranges.fixed k (Nat.le_trans hfits hsize)
  constants := h.rearranges.constants
  conducts := unit.conducts_machine limits
  top := h.first.isLaidOut
  functions := h.first.functions
  closures c hc := absurd hc (Array.not_mem_empty c)

/-- When the second machine is at the end of its code, so is the renumbered first one. -/
theorem nextByte?_eq_none (h : Reorders ν places places' t unit unit') {touched : Nat}
    {j j' : Machine} (hmirrors : h.excerpt.Mirrors "" touched j j') (hj' : j'.Sound unit'.code)
    (hbyte : j'.nextByte? = none) : j.nextByte? = none := by
  have hsize : (unit.code.renumber ν).size = unit'.code.size := by
    rw [h.size_second, h.follows_renumber.size, Assembly.size_append, Assembly.size_declaring,
      List.length_map]
  obtain ⟨-, hframes⟩ := hmirrors.at_end hj' hbyte
  simp only [Machine.nextByte?, hframes]
  exact Array.getElem?_eq_none (Nat.le_of_eq hsize)

/-- When the second machine finishes, so does the renumbered first one, in the same number of
steps. -/
theorem finishes (h : Reorders ν places places' t unit unit')
    (hn : n.HasDeclared unit limits (declared unit.constants places))
    (hn' : n'.HasDeclared unit' limits (declared unit'.constants places'))
    (hsound : (n.renumber ν unit'.constants).Sound (unit.code.renumber ν))
    (hsound' : n'.Sound unit'.code) {steps : Nat} {j' : Machine}
    (hrun : n'.run steps = .finished j') :
    ∃ j touched, (n.renumber ν unit'.constants).run steps = .finished j ∧
      j.sp = 0 ∧ h.excerpt.Mirrors "" touched j j' ∧ (0 < t.size → 0 < touched) := by
  have hmirrors := h.mirrors hn hn'
  have hends := hsound'.run steps
  rw [hrun] at hends
  obtain ⟨hbyte, hj', -⟩ := hends
  suffices hcomes : ∃ k j touched, k < steps ∧ (0 < t.size → 0 < touched) ∧
      (n.renumber ν unit'.constants).run k = .unfinished j ∧
      h.excerpt.Mirrors "" touched j j' by
    obtain ⟨k, j, touched, hk, htouched, hj, hlast⟩ := hcomes
    have hnone := h.nextByte?_eq_none hlast hj' hbyte
    refine ⟨j, touched, ?_, (hlast.at_end hj' hbyte).1, hlast, htouched⟩
    obtain ⟨l, rfl⟩ := Nat.exists_eq_add_of_lt hk
    rw [Nat.add_assoc, Machine.run_add hj]
    simp only [Machine.run, hnone]
  rcases Nat.eq_zero_or_pos t.size with hempty | hpos
  · have halike := hmirrors.run hsound hsound' steps
    rw [hrun] at halike
    obtain ⟨k, j, touched, hk, -, hj, hlast, -⟩ := halike
    exact ⟨k, j, touched, hk, fun hpos => absurd hempty (Nat.ne_of_gt hpos), hj, hlast⟩
  · obtain ⟨i, is, hinstrs⟩ : ∃ i is, (t.renumber ν).instrs (7 * places.length) = i :: is := by
      refine List.exists_cons_of_ne_nil fun hnil => ?_
      have hwidth := (t.renumber ν).totalWidth_instrs (7 * places.length)
      rw [hnil, Assembly.size_renumber] at hwidth
      exact absurd hwidth (Nat.ne_of_lt hpos)
    have hcode := h.contains_rest.2
    rw [hinstrs] at hcode
    have hlength : (declared unit'.constants places').length = places.length :=
      (List.length_map _).trans h.length_places
    have hframes := hn'.frames
    rw [hlength] at hframes
    obtain ⟨k, j, touched, hk, htouched, hj, hlast, -⟩ := hmirrors.run_finished hsound hsound'
      hframes hn'.sp hcode.decode (h.balanced_rest.head_plain hinstrs) hrun
    exact ⟨k, j, touched, hk, fun _ => htouched, hj, hlast⟩

/-- The machines took the same value last. -/
theorem takesAlike (h : Reorders ν places places' t unit unit') {touched : Nat} {j j' : Machine}
    (hmirrors : h.excerpt.Mirrors "" touched (j.renumber ν unit'.constants) j')
    (hsp : j.sp < touched) : j.TakesAlike ν ν.slots j' := by
  have hlast := hmirrors.lastTaken hsp
  refine ⟨hmirrors.heap, hlast, ?_⟩
  rw [hlast, ← j.heap.text?_renumber (ν := ν)]
  exact hmirrors.heap.text? _

/-- From the end of the declarations on, the machines run alike. -/
theorem alike_after (h : Reorders ν places places' t unit unit') {k : Nat}
    (hm : (unit.machine limits).run k = .unfinished n)
    (hm' : (unit'.machine limits).run k = .unfinished n')
    (hn : n.HasDeclared unit limits (declared unit.constants places))
    (hn' : n'.HasDeclared unit' limits (declared unit'.constants places')) (steps : Nat) :
    Run.Alike (fun j j' => 0 < t.size → ∃ σ, j.TakesAlike ν σ j') (n.run steps) (n'.run steps) := by
  have hfits : places.length ≤ limits.globalsSize := by
    have hfits := hn.fits
    rwa [List.length_map] at hfits
  have hrenumbered := (h.isRenumberable hfits).run (h.first.sound_machine limits)
  rw [machine_renumber] at hrenumbered
  -- the renumbered first machine after the declarations
  have hmiddle := hrenumbered k
  rw [hm] at hmiddle
  generalize hk : Machine.run k _ = r at hmiddle
  cases hmiddle
  have hsound := (h.follows_renumber.sound_machine limits).run k
  have hsound' := (h.second.sound_machine limits).run k
  rw [hk] at hsound
  rw [hm'] at hsound'
  have hlater := hrenumbered (k + steps)
  rw [Machine.run_add hm, Machine.run_add hk] at hlater
  have halike := (h.mirrors hn hn').run hsound.1 hsound'.1 steps
  generalize n.run steps = r at hlater ⊢
  cases hrun : n'.run steps with
  | unfinished j' =>
      rw [hrun] at halike
      obtain ⟨j, height, -, hj, hmirrors, -⟩ := halike
      rw [hj] at hlater
      cases hlater
      exact .unfinished (hmirrors.output.trans String.empty_append).symm
  | stopped stop j' =>
      rw [hrun] at halike
      obtain ⟨j, hj, hleaves⟩ := halike
      rw [hj] at hlater
      cases hlater with
      | stopped houtput =>
          exact .stopped ((hleaves.output.trans String.empty_append).symm.trans houtput)
  | finished j' =>
      obtain ⟨j, touched, hj, hsp, hmirrors, htouched⟩ :=
        h.finishes hn hn' hsound.1 hsound'.1 hrun
      rw [hj] at hlater
      cases hlater
      refine .finished (hmirrors.output.trans String.empty_append).symm fun hpos => ?_
      exact ⟨_, h.takesAlike hmirrors (hsp ▸ htouched hpos)⟩

/-- Units that declare the same functions in different orders run alike. -/
theorem alike (h : Reorders ν places places' t unit unit') (limits : Limits) (steps : Nat) :
    Run.Alike (fun j j' => 0 < t.size → ∃ σ, j.TakesAlike ν σ j') ((unit.machine limits).run steps)
      ((unit'.machine limits).run steps) := by
  refine (Machine.hasDeclared_nil unit limits).alike (Machine.hasDeclared_nil unit' limits) rfl
    h.first.declares h.second.declares ?_ (fun k n n' hm hm' hn hn' => ?_) steps
  · rw [List.length_map, List.length_map, h.length_places]
  · exact h.alike_after hm hm' hn hn'

end Bytecode.Reorders

/-! ## Programs -/

/-- A program that is compiled alone is written as safe structured code. -/
theorem CompilesUnit.follows {program : Program} {E : Env}
    (h : CompilesUnit Compiler.new.env program t E unit) : unit.Follows t := by
  have hE : Compiler.new.env.Sound := Compiler.sound_resume ScopeChain.Sound.withBuiltins #[]
  have hdepth : E.chain.depth = 0 := h.rules.depth_eq
  have hbalanced := h.rules.balanced hE 0
  rw [Env.Balances, (h.rules.sound hE).room_eq_mainRoom hdepth, ← h.constants] at hbalanced
  refine ⟨h.contains, h.size, hbalanced, fun f hf => ?_⟩
  obtain ⟨k, hk⟩ := Array.mem_iff_getElem?.mp hf
  have hrealizes := h.realizes Compiler.attends_new (Compiler.registers_resume _ _)
  exact hrealizes.functions (k, f.content) (mem_functionsFrom.mpr ⟨Nat.zero_le _, f.mark, hk⟩)

section

variable {ds ds' : List FunctionDeclaration} {rest : Program}

theorem DeclaresFirst.beginsWith {E : Env} (h : DeclaresFirst ds rest places t E)
    (hunit : CompilesUnit Compiler.new.env (ds.map FunctionDeclaration.stmt ++ rest)
      (.declaring places ++ t) E unit) : unit.BeginsWith places t where
  toFollows := hunit.follows
  slots := by rw [h.length_places, h.slots]
  functions_at place hplace := by
    obtain ⟨f, hf⟩ := h.functions place hplace
    exact ⟨_, hunit.constants ▸ hf⟩

/-- With its first declarations in another order, an accepted program is accepted, too. -/
theorem compileProgram_reorders (hperm : ds.Perm ds') (hrest : rest.DeclaresNoFunction)
    (hfree : Program.IsStructFree (ds.map FunctionDeclaration.stmt ++ rest))
    (hunit : compileProgram (ds.map FunctionDeclaration.stmt ++ rest) = .ok unit) :
    ∃ ν places places' t unit',
      compileProgram (ds'.map FunctionDeclaration.stmt ++ rest) = .ok unit' ∧
      Bytecode.Reorders ν places places' t unit unit' ∧
      ((∃ s ∈ rest, s.isIdle = false) → 0 < t.size) := by
  obtain ⟨t, E, hcompiles⟩ := exists_compilesUnit hunit
  obtain ⟨places, t, rfl, hfirst⟩ := hcompiles.rules.exists_declaresFirst hrest
  obtain ⟨bytes, hwritten, -⟩ := hcompiles.contains
  have hwritable : (.declaring places ++ t : Assembly).Writable 0 := hwritten.fitsFormat
  obtain ⟨ν, places', E', hsecond, hrearranges⟩ :=
    DeclaresFirst.perm [] hfirst hperm hrest hfree hwritable
  obtain ⟨unit', hunit', hcompiles'⟩ :=
    compileProgram_of_compiles hsecond.compiles (hrearranges.writable hwritable)
  refine ⟨ν, places, places', t, unit', hunit', ?_, ?_⟩
  · rw [← hcompiles.constants, ← hcompiles'.constants, List.nil_append, ← hfirst.length_places]
      at hrearranges
    exact ⟨hfirst.beginsWith hcompiles, hsecond.beginsWith hcompiles', hrearranges⟩
  · rintro ⟨s, hs, hbusy⟩
    obtain ⟨F, -, hafter⟩ := hfirst.afterwards
    refine Nat.pos_of_ne_zero fun hempty => ?_
    have hfreeRest : Stmt.areStructFree rest = true :=
      Stmt.areStructFree_iff.mpr fun s hs => hfree s (List.mem_append_right _ hs)
    have hidle := Stmt.areIdle_iff.mp (hafter.isIdle hfreeRest hempty) s hs
    rw [hbusy] at hidle
    cases hidle

/-- The order of the function declarations that a program without structs begins with does not
matter.  In every order the program is accepted or in none; and with any limits, the runs print the
same and stop for the same reason or finish.  If they finish, the values taken last are the same up
to the numbers of global slots and constants in code and the addresses of closures, and have the
same text, provided that some statement after the declarations is not an empty block. -/
theorem compileProgram_perm_declarations (hperm : ds.Perm ds') (hrest : rest.DeclaresNoFunction)
    (hfree : Program.IsStructFree (ds.map FunctionDeclaration.stmt ++ rest)) :
    let program := ds.map FunctionDeclaration.stmt ++ rest
    let program' := ds'.map FunctionDeclaration.stmt ++ rest
    ((∃ unit, compileProgram program = .ok unit) ↔ ∃ unit', compileProgram program' = .ok unit') ∧
      ∀ unit unit', compileProgram program = .ok unit → compileProgram program' = .ok unit' →
        ∃ ν : Numbering, ν.IsNarrow ∧ ∀ limits steps,
          Run.Alike
            (fun m m' => (∃ s ∈ rest, s.isIdle = false) → ∃ σ, m.TakesAlike ν σ m')
            ((unit.machine limits).run steps) ((unit'.machine limits).run steps) := by
  intro program program'
  refine ⟨⟨?_, ?_⟩, fun unit unit' hunit hunit' => ?_⟩
  · rintro ⟨unit, hunit⟩
    obtain ⟨ν, places, places', t, unit', hunit', -⟩ :=
      compileProgram_reorders hperm hrest hfree hunit
    exact ⟨unit', hunit'⟩
  · rintro ⟨unit', hunit'⟩
    obtain ⟨ν, places, places', t, unit, hunit, -⟩ :=
      compileProgram_reorders hperm.symm hrest (hfree.perm hperm) hunit'
    exact ⟨unit, hunit⟩
  · obtain ⟨ν, places, places', t, unit₁, hunit₁, hreorders, hbusy⟩ :=
      compileProgram_reorders hperm hrest hfree hunit
    obtain rfl : unit₁ = unit' := Except.ok.inj (hunit₁.symm.trans hunit')
    refine ⟨ν, hreorders.rearranges.narrow, fun limits steps => ?_⟩
    exact (hreorders.alike limits steps).imp fun _ _ hsame hs => hsame (hbusy hs)

end

instance Run.decidableFinished (r : Run) (p : Machine → Prop) [DecidablePred p] :
    Decidable (∃ m, r = .finished m ∧ p m) :=
  match r with
  | .stopped _ _ | .unfinished _ => isFalse (by simp)
  | .finished m => decidable_of_iff (p m) (by simp)

/-- Two functions that call each other. -/
def parity : List FunctionDeclaration :=
  [⟨⟨"isEven", none, ⟨[("n", .int)], some .bool⟩⟩,
      [.expr (.call (.ident "puts") [.ident "n"] none),
        .ret (some (.cond (.binary .equal (.ident "n") (.int 0)) [.expr (.bool true)]
          (some [.expr (.call (.ident "isOdd")
            [.binary .subtract (.ident "n") (.int 1)] none)])))]⟩,
    ⟨⟨"isOdd", none, ⟨[("n", .int)], some .bool⟩⟩,
      [.ret (some (.cond (.binary .equal (.ident "n") (.int 0)) [.expr (.bool false)]
          (some [.expr (.call (.ident "isEven")
            [.binary .subtract (.ident "n") (.int 1)] none)])))]⟩]

/-- Calls a function and ends with the other one as its value. -/
def parityUse : Program :=
  [.expr (.call (.ident "puts") [.call (.ident "isOdd") [.int 3] none] none),
    .expr (.ident "isEven")]

theorem compileProgram_perm_declarations_parity :
    ∃ unit unit' m m',
      compileProgram (parity.map FunctionDeclaration.stmt ++ parityUse) = .ok unit ∧
      compileProgram (parity.reverse.map FunctionDeclaration.stmt ++ parityUse) = .ok unit' ∧
      (unit.machine ⟨16, 8, 2⟩).run 99 = .finished m ∧
      (unit'.machine ⟨16, 8, 2⟩).run 99 = .finished m' ∧ m'.output = "2\n0\ntrue\n" ∧
      ∃ ν σ, m.TakesAlike ν σ m' ∧ m.lastTaken = .closure 0 ∧ m'.lastTaken = .closure (σ 0) ∧
        m'.heap.text? m'.lastTaken = some "Closure[isEven]" := by
  have hfirst : ∃ unit,
      compileProgram (parity.map FunctionDeclaration.stmt ++ parityUse) = .ok unit ∧
      ∃ m, (unit.machine ⟨16, 8, 2⟩).run 99 = .finished m ∧ m.output = "2\n0\ntrue\n" ∧
        m.lastTaken = .closure 0 ∧ m.heap.text? m.lastTaken = some "Closure[isEven]" := by
    decide +kernel
  obtain ⟨unit, hunit, m, hm, houtput, hlast, htext⟩ := hfirst
  have hrest : parityUse.DeclaresNoFunction := by simp [Program.DeclaresNoFunction, parityUse]
  have hfree : Program.IsStructFree (parity.map FunctionDeclaration.stmt ++ parityUse) := by
    unfold Program.IsStructFree
    decide +kernel
  obtain ⟨haccepted, hruns⟩ :=
    compileProgram_perm_declarations (List.reverse_perm parity).symm hrest hfree
  obtain ⟨unit', hunit'⟩ := haccepted.mp ⟨unit, hunit⟩
  obtain ⟨ν, -, hruns⟩ := hruns unit unit' hunit hunit'
  have halike := hruns ⟨16, 8, 2⟩ 99
  rw [hm] at halike
  generalize hm' : (unit'.machine ⟨16, 8, 2⟩).run 99 = r at halike
  cases halike with
  | finished houtput' hagree =>
      obtain ⟨σ, htakes⟩ := hagree ⟨_, List.mem_cons_self, rfl⟩
      refine ⟨unit, unit', m, _, hunit, hunit', hm, hm', houtput'.trans houtput, ν, σ, htakes,
        hlast, ?_, htakes.text.trans htext⟩
      rw [htakes.last, hlast]
      rfl

/-- Two functions that do nothing. -/
def idleFunctions : List FunctionDeclaration :=
  [⟨⟨"f", none, ⟨[], none⟩⟩, []⟩, ⟨⟨"g", none, ⟨[], none⟩⟩, []⟩]

/-- Where nothing but an empty block comes after the declarations, the value of the program is the
closure of the function that is declared last, and depends on the order. -/
theorem lastDeclared_depends_on_order :
    Program.IsStructFree (idleFunctions.map FunctionDeclaration.stmt ++ [.block []]) ∧
      ∃ unit unit' m m',
        compileProgram (idleFunctions.map FunctionDeclaration.stmt ++ [.block []]) = .ok unit ∧
        compileProgram (idleFunctions.reverse.map FunctionDeclaration.stmt ++ [.block []]) =
          .ok unit' ∧
        (unit.machine ⟨8, 1, 2⟩).run 9 = .finished m ∧
        (unit'.machine ⟨8, 1, 2⟩).run 9 = .finished m' ∧
        m.heap.text? m.lastTaken = some "Closure[g]" ∧
        m'.heap.text? m'.lastTaken = some "Closure[f]" := by
  have hfree : Program.IsStructFree
      (idleFunctions.map FunctionDeclaration.stmt ++ [.block []]) := by
    unfold Program.IsStructFree
    decide +kernel
  have hfirst : ∃ unit,
      compileProgram (idleFunctions.map FunctionDeclaration.stmt ++ [.block []]) = .ok unit ∧
      ∃ m, (unit.machine ⟨8, 1, 2⟩).run 9 = .finished m ∧
        m.heap.text? m.lastTaken = some "Closure[g]" := by
    decide +kernel
  have hsecond : ∃ unit,
      compileProgram (idleFunctions.reverse.map FunctionDeclaration.stmt ++ [.block []]) =
        .ok unit ∧
      ∃ m, (unit.machine ⟨8, 1, 2⟩).run 9 = .finished m ∧
        m.heap.text? m.lastTaken = some "Closure[f]" := by
    decide +kernel
  obtain ⟨unit, hunit, m, hm, htext⟩ := hfirst
  obtain ⟨unit', hunit', m', hm', htext'⟩ := hsecond
  exact ⟨hfree, unit, unit', m, m', hunit, hunit', hm, hm', htext, htext'⟩

end ScriptEngine
