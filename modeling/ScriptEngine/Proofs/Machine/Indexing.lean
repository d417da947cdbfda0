import ScriptEngine.Proofs.Machine.Integrity

/-!
# Reading and writing by index

A write by index goes to a place of a container (`Heap.Names`): to a position that an array has, to
the one just past its end, or to a key of a hash.  Afterwards every handle to the container reads
the value there, and what it reads at any other position is what it read before; the other objects
of the heap are the same (`Heap.HasStored`).  Reading accepts more positions than writing, and gives
null where nothing is stored.  The heap is taken to be intact, as the heaps of all sessions are
(`Session.isIntact_evalAll`).
-/

namespace ScriptEngine

inductive Object
  | elements (xs : Array Value)
  | entries (d : Dict Value)
  | fields (s : Instance)
  | closure (c : Closure)

/-- A container is read by integers if it is an array, and by values that stand for keys if it is a
hash. -/
inductive Readable : Value → Value → Prop
  | element (a : Nat) (i : Int64) : Readable (.array a) (.int i)
  | entry (a : Nat) {position : Value} {key : Key} (hashable : position.key? = some key) :
      Readable (.hash a) position

namespace Heap

variable {h h' : Heap} {container position value : Value}

/-- The object that a value is a handle of. -/
def object? (h : Heap) : Value → Option Object
  | .array a => h.arrays[a]?.map .elements
  | .hash a => h.hashes[a]?.map .entries
  | .struct a => h.structs[a]?.map .fields
  | .closure a => h.closures[a]?.map .closure
  | _ => none

/-- A container can be written at a position: an array from its start up to and including its end,
and a hash under every key. -/
inductive Writable (h : Heap) : Value → Value → Prop
  | element {a : Nat} {i : Int64} (start : 0 ≤ i.toInt) (stop : i.toInt ≤ (h.array a).size) :
      h.Writable (.array a) (.int i)
  | entry (a : Nat) {position : Value} {key : Key} (hashable : position.key? = some key) :
      h.Writable (.hash a) position

/-- A position of a container at which nothing is stored. -/
inductive Vacant (h : Heap) : Value → Value → Prop
  | element {a : Nat} {i : Int64} (outside : i.toInt < 0 ∨ (h.array a).size ≤ i.toInt) :
      h.Vacant (.array a) (.int i)
  | entry {a : Nat} {position : Value} {key : Key} (hashable : position.key? = some key)
      (missing : key ∉ (h.hash a).keys) : h.Vacant (.hash a) position

/-- The second heap is the first one after a value has been stored in a container at a position. -/
structure HasStored (h : Heap) (container position value : Value) (h' : Heap) : Prop where
  /-- Every handle to the container reads the value. -/
  here : ∀ c, c.identical container = true → h'.index c position = .ok value
  /-- At other positions it reads what it read before. -/
  elsewhere : ∀ c j, c.identical container = true → j ≠ position → h'.index c j = h.index c j
  /-- An array grows by one exactly if the position was its length. -/
  length : ∀ a i, container = .array a → position = .int i →
    (h'.array a).size = (h.array a).size + if i.toInt = (h.array a).size then 1 else 0
  /-- A hash keeps its keys in their order; a new one comes last. -/
  order : ∀ a key, container = .hash a → position.key? = some key →
    (h'.hash a).keys = if key ∈ (h.hash a).keys then (h.hash a).keys else (h.hash a).keys ++ [key]
  /-- No other object changes, and none is added. -/
  frame : ∀ c, c.identical container = false → h'.object? c = h.object? c

/-! ## Places -/

/-- A position of a container names a place. -/
inductive Names (h : Heap) : Value → Value → Place → Prop
  | element {a n : Nat} {i : Int64} (number : i.toInt = n) (inside : n < (h.array a).size) :
      h.Names (.array a) (.int i) (.element a n)
  | tail {a : Nat} {i : Int64} (number : i.toInt = (h.array a).size) :
      h.Names (.array a) (.int i) (.tail a)
  | entry {a : Nat} {position : Value} {key : Key} (hashable : position.key? = some key) :
      h.Names (.hash a) position (.entry a key)

theorem position?_eq_some_iff {i : Int64} {n : Nat} : position? i = some n ↔ i.toInt = n :=
  Int.mem_toNat?

theorem place_eq_ok_iff {place : Place} :
    h.place container position = .ok place ↔ h.Names container position place := by
  constructor
  · intro hplace
    cases container with
    | array a =>
        cases position with
        | int i =>
            simp only [Heap.place] at hplace
            split at hplace
            next n hn =>
              have hnumber := position?_eq_some_iff.mp hn
              split at hplace
              next hinside =>
                cases hplace
                exact .element hnumber hinside
              next =>
                split at hplace
                next hend =>
                  cases hplace
                  exact .tail (hend ▸ hnumber)
                next => cases hplace
            next => cases hplace
        | _ => cases hplace
    | hash a =>
        simp only [Heap.place] at hplace
        split at hplace
        next key hkey =>
          cases hplace
          exact .entry hkey
        next => cases hplace
    | _ => cases hplace
  · intro hnames
    cases hnames with
    | element number inside =>
        simp [Heap.place, position?_eq_some_iff.mpr number, inside]
    | tail number =>
        simp [Heap.place, position?_eq_some_iff.mpr number]
    | entry hashable => simp [Heap.place, hashable]

theorem setIndex_eq_ok_iff :
    h.setIndex container position value = .ok h' ↔
      ∃ place, h.Names container position place ∧ h' = h.write place value := by
  simp only [Heap.setIndex, ← place_eq_ok_iff]
  cases h.place container position with
  | ok place => simp [Except.map, eq_comm]
  | error e => simp [Except.map]

/-- The positions that name a place are those that can be written. -/
theorem exists_names_iff :
    (∃ place, h.Names container position place) ↔ h.Writable container position := by
  constructor
  · rintro ⟨place, hnames⟩
    cases hnames with
    | element number inside => exact .element (by omega) (by omega)
    | tail number => exact .element (by omega) (by omega)
    | entry hashable => exact .entry _ hashable
  · intro hwritable
    cases hwritable with
    | @element a i start stop =>
        obtain ⟨n, hn⟩ := Int.eq_ofNat_of_zero_le start
        by_cases hinside : n < (h.array a).size
        · exact ⟨_, .element hn hinside⟩
        · exact ⟨_, .tail (by omega)⟩
    | entry a hashable => exact ⟨_, .entry hashable⟩

/-! ## Reading -/

theorem index_hash {a : Nat} {key : Key} (hkey : position.key? = some key) :
    h.index (.hash a) position = .ok (((h.hash a).get? key).getD .null) := by
  simp only [Heap.index, hkey]

/-- Reading fails exactly where a container cannot be read. -/
theorem index_eq_error_iff :
    (∃ e, h.index container position = .error e) ↔ ¬Readable container position := by
  constructor
  · rintro ⟨e, he⟩ hreadable
    cases hreadable with
    | element a i => cases he
    | entry a hashable =>
        rw [index_hash hashable] at he
        cases he
  · intro hreadable
    cases container with
    | array a =>
        cases position with
        | int i => exact absurd (.element a i) hreadable
        | _ => exact ⟨_, rfl⟩
    | hash a =>
        cases hkey : position.key? with
        | some key => exact absurd (.entry a hkey) hreadable
        | none => exact ⟨.unhashableKey position.kind, by simp only [Heap.index, hkey]⟩
    | _ => exact ⟨_, rfl⟩

/-- Where nothing is stored, null is read. -/
theorem index_of_vacant (hh : h.IsIntact) (hvacant : h.Vacant container position) :
    h.index container position = .ok .null := by
  cases hvacant with
  | @element a i outside =>
      have hnone : ((position? i).bind fun n => (h.array a)[n]?) = none := by
        cases hn : position? i with
        | none => rfl
        | some n =>
            have hnumber := position?_eq_some_iff.mp hn
            exact Array.getElem?_eq_none (by omega)
      simp only [Heap.index, hnone, Option.getD_none]
  | @entry a _ key hashable missing =>
      rw [index_hash hashable, (hh.hash a).get?_eq_none_iff.mpr missing, Option.getD_none]

/-! ## Writing -/

/-- A row of objects after one of them has been changed. -/
theorem getD_modify {α : Type} {row : Array α} {a b : Nat} {change : α → α} {absent : α}
    (ha : a < row.size) :
    (row.modify a change)[b]?.getD absent =
      if a = b then change (row[a]?.getD absent) else row[b]?.getD absent := by
  rw [Array.getElem?_modify]
  by_cases hab : a = b
  · subst hab
    simp [ha]
  · simp [hab]

theorem eq_array_of_identical {c : Value} {a : Nat} (hc : c.identical (.array a) = true) :
    c = .array a := by
  cases c <;> simp_all [Value.identical]

theorem eq_hash_of_identical {c : Value} {a : Nat} (hc : c.identical (.hash a) = true) :
    c = .hash a := by
  cases c <;> simp_all [Value.identical]

namespace HasStored

/-- An array has been given an element, at a position that it had or just past its end. -/
theorem array {a n : Nat} {i : Int64} {change : Array Value → Array Value}
    (ha : a < h.arrays.size) (hnumber : i.toInt = n)
    (hhere : (change (h.array a))[n]? = some value)
    (helsewhere : ∀ k, k ≠ n → (change (h.array a))[k]? = (h.array a)[k]?)
    (hsize : (change (h.array a)).size = (h.array a).size + if n = (h.array a).size then 1 else 0) :
    h.HasStored (.array a) (.int i) value { h with arrays := h.arrays.modify a change } := by
  have hchanged :
      Heap.array { h with arrays := h.arrays.modify a change } a = change (h.array a) := by
    simp only [Heap.array, getD_modify ha, if_true]
  refine ⟨?_, ?_, ?_, ?_, ?_⟩
  · intro c hc
    obtain rfl := eq_array_of_identical hc
    simp only [Heap.index, hchanged, position?_eq_some_iff.mpr hnumber, Option.bind_some, hhere,
      Option.getD_some]
  · intro c j hc hj
    obtain rfl := eq_array_of_identical hc
    cases j with
    | int j =>
        simp only [Heap.index, hchanged]
        cases hk : position? j with
        | none => rfl
        | some k =>
            have hother : k ≠ n := by
              rintro rfl
              have hsame : j.toInt = i.toInt := (position?_eq_some_iff.mp hk).trans hnumber.symm
              exact hj (congrArg Value.int (Int64.toInt_inj.mp hsame))
            simp only [Option.bind_some, helsewhere k hother]
    | _ => rfl
  · rintro b j ⟨⟩ ⟨⟩
    rw [hchanged, hsize, hnumber]
    simp only [Int.ofNat_inj]
  · rintro b key ⟨⟩
  · intro c hc
    cases c with
    | array b =>
        have hab : a ≠ b := by
          rintro rfl
          simp [Value.identical] at hc
        simp only [object?, Array.getElem?_modify, if_neg hab]
    | _ => rfl

/-- A hash has been given an entry. -/
theorem hash {a : Nat} {key : Key} (ha : a < h.hashes.size) (hd : (h.hash a).IsIndexed)
    (hkey : position.key? = some key) :
    h.HasStored (.hash a) position value
      { h with hashes := h.hashes.modify a fun d => d.insert key value } := by
  have hchanged : Heap.hash { h with hashes := h.hashes.modify a fun d => d.insert key value } a =
      (h.hash a).insert key value := by
    simp only [Heap.hash, getD_modify ha, if_true]
  refine ⟨?_, ?_, ?_, ?_, ?_⟩
  · intro c hc
    obtain rfl := eq_hash_of_identical hc
    rw [index_hash hkey, hchanged, hd.get?_insert, if_pos rfl, Option.getD_some]
  · intro c j hc hj
    obtain rfl := eq_hash_of_identical hc
    cases hkey' : j.key? with
    | none => simp only [Heap.index, hkey']
    | some key' =>
        have hother : key ≠ key' := by
          rintro rfl
          rw [Value.eq_toValue_of_key? hkey, Value.eq_toValue_of_key? hkey'] at hj
          exact hj rfl
        rw [index_hash hkey', index_hash hkey', hchanged, hd.get?_insert, if_neg hother]
  · rintro b i ⟨⟩
  · rintro b key' ⟨⟩ hkey'
    obtain rfl := Option.some.inj (hkey.symm.trans hkey')
    rw [hchanged, hd.keys_insert]
  · intro c hc
    cases c with
    | hash b =>
        have hab : a ≠ b := by
          rintro rfl
          simp [Value.identical] at hc
        simp only [object?, Array.getElem?_modify, if_neg hab]
    | _ => rfl

/-- A write stores the value at the position. -/
theorem write {place : Place} (hh : h.IsIntact) (hcontainer : h.Owns container)
    (hnames : h.Names container position place) :
    h.HasStored container position value (h.write place value) := by
  cases hnames with
  | @element a n i number inside =>
      refine array hcontainer number ?_ ?_ ?_
      · simp [inside]
      · intro k hk
        simp [hk.symm]
      · simp [Nat.ne_of_lt inside]
  | @tail a i number =>
      refine array hcontainer number ?_ ?_ ?_
      · simp
      · intro k hk
        simp [Array.getElem?_push, hk]
      · simp
  | @entry a _ key hashable => exact hash hcontainer (hh.hash a) hashable

end HasStored

end Heap

/-! ## The instructions -/

namespace Machine

variable {m : Machine} {below : Nat} {container position value : Value}

/-- Writing by index takes its operands from the stack and replaces the heap, or reports why not. -/
theorem setIndex_eq (htop : m.Top below [container, position, value]) :
    Exec.setIndex m =
      match m.heap.setIndex container position value with
      | .ok heap => .ok () { m with sp := below, heap }
      | .error e => .error (.error e) { m with sp := below } := by
  have hthree : m.Top below ([container, position] ++ [value]) := htop
  have htwo : { m with sp := below + 2 }.Top below ([container] ++ [position]) := hthree.dropLast
  have hone : { m with sp := below + 1 }.Top below ([] ++ [container]) := htwo.dropLast
  have hpop₁ : Exec.pop m = .ok value { m with sp := below + 2 } := hthree.pop
  have hpop₂ : Exec.pop { m with sp := below + 2 } = .ok position { m with sp := below + 1 } :=
    htwo.pop
  have hpop₃ : Exec.pop { m with sp := below + 1 } = .ok container { m with sp := below } :=
    hone.pop
  have hget (m : Machine) : (get : Exec Machine) m = .ok m m := rfl
  simp only [Exec.setIndex, Bind.bind, EStateM.bind, hpop₁, hpop₂, hpop₃, hget, Heap.setIndex]
  cases m.heap.place container position with
  | ok place => rfl
  | error e => rfl

/-- Reading by index puts what is read in the place of its operands, or reports why not. -/
theorem getIndex_eq (htop : m.Top below [container, position]) :
    Exec.getIndex m =
      match m.heap.index container position with
      | .ok v => .ok () { m with stack := m.stack.setIfInBounds below v, sp := below + 1 }
      | .error e => .error (.error e) { m with sp := below } := by
  have htwo : m.Top below ([container] ++ [position]) := htop
  have hone : { m with sp := below + 1 }.Top below ([] ++ [container]) := htwo.dropLast
  have hpop₁ : Exec.pop m = .ok position { m with sp := below + 1 } := htwo.pop
  have hpop₂ : Exec.pop { m with sp := below + 1 } = .ok container { m with sp := below } :=
    hone.pop
  have hroom : below < m.stack.size := by
    have hsp := htop.sp
    have hle := htop.le
    simp only [List.length_cons, List.length_nil] at hsp
    omega
  have hget (m : Machine) : (get : Exec Machine) m = .ok m m := rfl
  simp only [Exec.getIndex, Bind.bind, EStateM.bind, hpop₁, hpop₂, hget]
  cases m.heap.index container position with
  | ok v => exact if_pos hroom
  | error e => rfl

end Machine

namespace Heap

/-- Writing and reading by index obey the laws of a store, in every intact heap and for every
container that it has.  A write succeeds exactly where the container can be written, and the heap is
then the one before with the value stored there; it is intact again, so that the laws go on to hold.
A read fails exactly where the container cannot be read, and gives null where nothing is stored.
The instructions do the same to the heap of their machine; reading changes nothing but the stack. -/
theorem index_obeys_store_laws {h : Heap} (hh : h.IsIntact) {container : Value}
    (hcontainer : h.Owns container) (position value : Value) :
    ((∃ h', h.setIndex container position value = .ok h') ↔ h.Writable container position) ∧
    (∀ h', h.setIndex container position value = .ok h' →
      h.HasStored container position value h' ∧ (h.Owns value → h'.IsIntact)) ∧
    ((∃ e, h.index container position = .error e) ↔ ¬Readable container position) ∧
    (h.Vacant container position → h.index container position = .ok .null) ∧
    ∀ (m : Machine) (below : Nat), m.heap = h →
      (m.Top below [container, position, value] → Exec.setIndex m =
        match h.setIndex container position value with
        | .ok heap => .ok () { m with sp := below, heap }
        | .error e => .error (.error e) { m with sp := below }) ∧
      (m.Top below [container, position] → Exec.getIndex m =
        match h.index container position with
        | .ok v => .ok () { m with stack := m.stack.setIfInBounds below v, sp := below + 1 }
        | .error e => .error (.error e) { m with sp := below }) := by
  refine ⟨?_, ?_, index_eq_error_iff, index_of_vacant hh, ?_⟩
  · rw [← exists_names_iff]
    simp only [setIndex_eq_ok_iff]
    constructor
    · rintro ⟨h', place, hnames, -⟩
      exact ⟨place, hnames⟩
    · rintro ⟨place, hnames⟩
      exact ⟨_, place, hnames, rfl⟩
  · intro h' hset
    obtain ⟨place, hnames, rfl⟩ := setIndex_eq_ok_iff.mp hset
    exact ⟨.write hh hcontainer hnames, hh.write place⟩
  · rintro m below rfl
    exact ⟨Machine.setIndex_eq, Machine.getIndex_eq⟩

/-- An array that holds itself and a hash, which holds the array. -/
def entangled : Heap :=
  { arrays := #[#[.array 0, .hash 0]]
    hashes := #[Dict.empty.insert (.str "k") (.array 0)]
    structs := #[]
    closures := #[] }

theorem isIntact_entangled : entangled.IsIntact where
  closed := by
    constructor <;> decide +kernel
  indexed := by
    simp only [entangled, List.mem_toArray, List.mem_singleton, forall_eq]
    exact Dict.isIndexed_empty.insert _ _

/-- The array is written just past its end: it grows, and the hash that holds it stays as it is. -/
theorem index_obeys_store_laws_entangled :
    entangled.IsIntact ∧ entangled.Owns (.array 0) ∧
      ∃ h', entangled.setIndex (.array 0) (.int 2) (.int 7) = .ok h' ∧
        h'.index (.array 0) (.int 2) = .ok (.int 7) ∧
        h'.index (.array 0) (.int 0) = .ok (.array 0) ∧
        (h'.array 0).size = 3 ∧ h'.object? (.hash 0) = entangled.object? (.hash 0) := by
  have howns : entangled.Owns (.array 0) := by decide
  obtain ⟨hwrites, hstored, -⟩ :=
    index_obeys_store_laws isIntact_entangled howns (.int 2) (.int 7)
  obtain ⟨h', hset⟩ := hwrites.mpr (.element (by decide) (by decide))
  have hafter := (hstored h' hset).1
  refine ⟨isIntact_entangled, howns, h', hset, hafter.here _ rfl, ?_, ?_, hafter.frame _ rfl⟩
  · rw [hafter.elsewhere _ (.int 0) rfl (by decide)]
    rfl
  · rw [hafter.length 0 2 rfl rfl]
    rfl

end Heap

end ScriptEngine
