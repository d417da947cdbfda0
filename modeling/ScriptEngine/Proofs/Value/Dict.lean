import Mathlib.Data.Finset.Card
import Mathlib.Data.List.Dedup
import ScriptEngine.Proofs.Lists
import ScriptEngine.Value.Basic
import ScriptEngine.Value.Dict

/-!
# Dictionaries and their insertions

A dictionary keeps its entries in an array and the positions of their keys in an index.  The two
stay consistent under every insertion (`Dict.IsIndexed.insert`), whether it adds an entry or
replaces one where it stands.  Hence the index never points past the entries, and a dictionary is
known by its list of keys and by what it gives for each of them.  Both are read off the insertions
that made it.
-/

namespace ScriptEngine

namespace Dict

variable {α : Type} {d : Dict α} {key key' : Key} {value value' : α}

/-- The keys in the order of their first insertion. -/
def keys (d : Dict α) : List Key :=
  d.toList.map Prod.fst

/-- The index holds the position of every entry, and nothing else. -/
structure IsIndexed (d : Dict α) : Prop where
  size : d.slots.size = d.entries.size
  slot_iff : ∀ (key : Key) (slot : Nat),
    d.slots[key]? = some slot ↔ ∃ value, d.entries[slot]? = some (key, value)

theorem isIndexed_empty : (Dict.empty : Dict α).IsIndexed where
  size := by simp [empty]
  slot_iff := by simp [empty]

namespace IsIndexed

/-- No position of the index is past the entries. -/
theorem lt_size (hd : d.IsIndexed) {slot : Nat} (hslot : d.slots[key]? = some slot) :
    slot < d.entries.size := by
  obtain ⟨value, hvalue⟩ := (hd.slot_iff key slot).mp hslot
  exact (Array.getElem?_eq_some_iff.mp hvalue).1

/-- The entry of a key is the only one with that key. -/
theorem slot_unique (hd : d.IsIndexed) {slot slot' : Nat} (h : d.entries[slot]? = some (key, value))
    (h' : d.entries[slot']? = some (key, value')) : slot = slot' := by
  have hslot := (hd.slot_iff key slot).mpr ⟨value, h⟩
  have hslot' := (hd.slot_iff key slot').mpr ⟨value', h'⟩
  exact Option.some.inj (hslot.symm.trans hslot')

theorem nodup_keys (hd : d.IsIndexed) : d.keys.Nodup := by
  rw [List.nodup_iff_pairwise_ne, keys, List.pairwise_map, List.pairwise_iff_getElem]
  intro i j hi hj hij hkey
  simp only [toList, Array.length_toList] at hi hj
  simp only [toList, Array.getElem_toList] at hkey
  have hi' : d.entries[i]? = some (d.entries[j].1, d.entries[i].2) := by
    rw [← hkey]
    exact Array.getElem?_eq_getElem hi
  have hsame : i = j := hd.slot_unique hi' (Array.getElem?_eq_getElem hj)
  omega

/-- What is listed is what is found. -/
theorem mem_toList_iff (hd : d.IsIndexed) : (key, value) ∈ d.toList ↔ d.get? key = some value := by
  simp only [toList, Array.mem_toList_iff, Array.mem_iff_getElem?, get?,
    Std.TreeMap.get?_eq_getElem?]
  constructor
  · rintro ⟨slot, hslot⟩
    simp [(hd.slot_iff key slot).mpr ⟨value, hslot⟩, hslot]
  · intro hget
    cases hslot : d.slots[key]? with
    | none => simp [hslot] at hget
    | some slot =>
        obtain ⟨old, hold⟩ := (hd.slot_iff key slot).mp hslot
        rw [hslot, Option.map_eq_some_iff] at hget
        obtain ⟨e, he, rfl⟩ := hget
        rw [hold] at he
        exact ⟨slot, by rw [hold, ← Option.some.inj he]⟩

theorem mem_keys_iff (hd : d.IsIndexed) : key ∈ d.keys ↔ ∃ value, d.get? key = some value := by
  simp [keys, ← hd.mem_toList_iff]

theorem get?_eq_none_iff (hd : d.IsIndexed) : d.get? key = none ↔ key ∉ d.keys := by
  rw [hd.mem_keys_iff, ← Option.ne_none_iff_exists', not_not]

/-- The entries are the keys in order, each with what is found under it. -/
theorem toList_eq (hd : d.IsIndexed) :
    d.toList.map some = d.keys.map fun key => (d.get? key).map fun value => (key, value) := by
  rw [keys, List.map_map]
  apply List.map_congr_left
  rintro ⟨key, value⟩ hmem
  simp [hd.mem_toList_iff.mp hmem]

end IsIndexed

/-! ## One insertion -/

/-- An insertion replaces the entry with the key, or adds one if there is none. -/
theorem insert_cases (hd : d.IsIndexed) (key : Key) (value : α) :
    (∃ slot old, d.entries[slot]? = some (key, old) ∧
      d.insert key value = { d with entries := d.entries.setIfInBounds slot (key, value) }) ∨
    (d.slots[key]? = none ∧
      d.insert key value =
        { entries := d.entries.push (key, value),
          slots := d.slots.insert key d.entries.size }) := by
  unfold insert
  rw [Std.TreeMap.get?_eq_getElem?]
  cases hslot : d.slots[key]? with
  | some slot =>
      obtain ⟨old, hold⟩ := (hd.slot_iff key slot).mp hslot
      exact .inl ⟨slot, old, hold, rfl⟩
  | none => exact .inr ⟨rfl, rfl⟩

namespace IsIndexed

/-- An insertion keeps the index and the entries consistent. -/
theorem insert (hd : d.IsIndexed) (key : Key) (value : α) : (d.insert key value).IsIndexed := by
  rcases insert_cases hd key value with ⟨slot, old, hold, heq⟩ | ⟨hnew, heq⟩
  · rw [heq]
    constructor
    · simpa using hd.size
    · intro key' slot'
      rw [hd.slot_iff, Array.getElem?_setIfInBounds]
      by_cases hsame : slot = slot'
      · subst hsame
        obtain ⟨hlt, hget⟩ := Array.getElem?_eq_some_iff.mp hold
        simp [hlt, hget]
      · simp [hsame]
  · rw [heq]
    have hfresh (slot : Nat) (v : α) : d.entries[slot]? ≠ some (key, v) := by
      intro hslot
      rw [(hd.slot_iff key slot).mpr ⟨v, hslot⟩] at hnew
      cases hnew
    constructor
    · have habsent : d.slots.contains key = false := by
        simp [Std.TreeMap.contains_eq_isSome_getElem?, hnew]
      simp [Std.TreeMap.size_insert, habsent, hd.size]
    · intro key' slot'
      simp only [Std.TreeMap.getElem?_insert, Std.compare_eq_iff_eq, Array.getElem?_push]
      by_cases hkey : key = key' <;> by_cases hslot : slot' = d.entries.size
      · simp [hkey, hslot]
      · subst hkey
        simp [hslot, hfresh, Ne.symm hslot]
      · simp [hkey, hslot, hd.slot_iff]
      · simp [hkey, hslot, hd.slot_iff]

/-- The keys keep their order; a new one comes last. -/
theorem keys_insert (hd : d.IsIndexed) (key : Key) (value : α) :
    (d.insert key value).keys = if key ∈ d.keys then d.keys else d.keys ++ [key] := by
  rcases insert_cases hd key value with ⟨slot, old, hold, heq⟩ | ⟨hnew, heq⟩
  · have hmem : key ∈ d.keys :=
      List.mem_map.mpr ⟨(key, old), Array.mem_toList_iff.mpr (Array.mem_of_getElem? hold), rfl⟩
    rw [if_pos hmem, heq]
    apply List.ext_getElem?
    intro i
    simp only [keys, toList, List.getElem?_map, Array.getElem?_toList, Array.getElem?_setIfInBounds]
    by_cases hi : slot = i
    · subst hi
      obtain ⟨hlt, hget⟩ := Array.getElem?_eq_some_iff.mp hold
      simp [hlt, hget]
    · simp [hi]
  · have hmem : key ∉ d.keys := by
      rw [← hd.get?_eq_none_iff, get?, Std.TreeMap.get?_eq_getElem?, hnew]
    rw [if_neg hmem, heq]
    simp [keys, toList]

/-- What is inserted is found, and under other keys nothing changes. -/
theorem get?_insert (hd : d.IsIndexed) (key : Key) (value : α) (key' : Key) :
    (d.insert key value).get? key' = if key = key' then some value else d.get? key' := by
  rcases insert_cases hd key value with ⟨slot, old, hold, heq⟩ | ⟨hnew, heq⟩
  · have hslot : d.slots[key]? = some slot := (hd.slot_iff key slot).mpr ⟨old, hold⟩
    simp only [heq, get?, Std.TreeMap.get?_eq_getElem?]
    by_cases hkey : key = key'
    · subst hkey
      simp [hslot, (Array.getElem?_eq_some_iff.mp hold).1]
    · rw [if_neg hkey]
      cases hslot' : d.slots[key']? with
      | none => rfl
      | some slot' =>
          have hother : slot ≠ slot' := by
            rintro rfl
            obtain ⟨old', hold'⟩ := (hd.slot_iff key' slot).mp hslot'
            rw [hold] at hold'
            exact hkey (congrArg Prod.fst (Option.some.inj hold'))
          simp [hother]
  · simp only [heq, get?, Std.TreeMap.get?_eq_getElem?, Std.TreeMap.getElem?_insert,
      Std.compare_eq_iff_eq]
    by_cases hkey : key = key'
    · simp [hkey]
    · simp only [if_neg hkey]
      cases hslot' : d.slots[key']? with
      | none => rfl
      | some slot' =>
          have hlt := hd.lt_size hslot'
          simp [Array.getElem?_push, Nat.ne_of_lt hlt]

end IsIndexed

end Dict

/-! ## Any number of insertions -/

/-- A value to be stored, and the value that stands for the key under which it is stored. -/
structure Insertion where
  key : Value
  value : Value
  hashKey : Key
  isKey : key.key? = some hashKey

namespace Insertion

/-- The last of several insertions under a key. -/
def last? (calls : List Insertion) (key : Key) : Option Insertion :=
  (calls.filter fun call => call.hashKey = key).getLast?

theorem last?_append_singleton (calls : List Insertion) (call : Insertion) (key : Key) :
    last? (calls ++ [call]) key = if call.hashKey = key then some call else last? calls key := by
  unfold last?
  by_cases hkey : call.hashKey = key
  · simp [hkey]
  · simp [hkey]

theorem hashKey_of_last? {calls : List Insertion} {key : Key} {call : Insertion}
    (h : last? calls key = some call) : call.hashKey = key := by
  have hmem := List.mem_of_getLast? h
  simpa using (List.mem_filter.mp hmem).2

end Insertion

namespace Dict

/-- The dictionary that insertions make, one after another. -/
def ofInsertions (calls : List Insertion) : Dict Value :=
  calls.foldl (fun d call => d.insert call.hashKey call.value) .empty

theorem ofInsertions_append_singleton (calls : List Insertion) (call : Insertion) :
    ofInsertions (calls ++ [call]) = (ofInsertions calls).insert call.hashKey call.value := by
  simp [ofInsertions]

theorem isIndexed_ofInsertions (calls : List Insertion) : (ofInsertions calls).IsIndexed := by
  induction calls using List.reverseRecOn with
  | nil => exact isIndexed_empty
  | append_singleton calls call ih =>
      rw [ofInsertions_append_singleton]
      exact ih.insert _ _

/-- The keys are listed in the order in which they first occur. -/
theorem keys_ofInsertions (calls : List Insertion) :
    (ofInsertions calls).keys = (calls.map Insertion.hashKey).eraseDups := by
  induction calls using List.reverseRecOn with
  | nil => rfl
  | append_singleton calls call ih =>
      rw [ofInsertions_append_singleton, (isIndexed_ofInsertions calls).keys_insert, ih,
        List.map_append, List.map_singleton, eraseDups_concat]
      simp only [List.mem_eraseDups]

/-- Under each key the value of the last insertion is found. -/
theorem get?_ofInsertions (calls : List Insertion) (key : Key) :
    (ofInsertions calls).get? key = (Insertion.last? calls key).map Insertion.value := by
  induction calls using List.reverseRecOn with
  | nil => rfl
  | append_singleton calls call ih =>
      rw [ofInsertions_append_singleton, (isIndexed_ofInsertions calls).get?_insert,
        Insertion.last?_append_singleton, ih]
      split <;> rfl

/-- The dictionary that insertions make is ordered by first insertion.  Its index has one position
for each entry, and it is the right one; the keys are distinct; the entries are the keys in the
order of their first insertion, each with the key and the value of its last insertion; and under
each key the value of the last insertion is found, or nothing if there was none. -/
theorem ofInsertions_isOrdered (calls : List Insertion) :
    let d := ofInsertions calls
    let inserted := calls.map Insertion.hashKey
    (d.slots.size = d.entries.size ∧
      (∀ (i : Nat) (e : Key × Value), d.entries[i]? = some e → d.slots.get? e.1 = some i) ∧
      ∀ (key : Key) (i : Nat), d.slots.get? key = some i → i < d.entries.size) ∧
    (d.toList.map Prod.fst).Nodup ∧
    (d.toList.map fun e => some (e.1.toValue, e.2)) =
      (inserted.eraseDups.map fun key =>
        (Insertion.last? calls key).map fun call => (call.key, call.value)) ∧
    d.size = inserted.toFinset.card ∧
    ∀ key, d.get? key = (Insertion.last? calls key).map Insertion.value := by
  intro d inserted
  have hd : d.IsIndexed := isIndexed_ofInsertions calls
  have hkeys : d.keys = inserted.eraseDups := keys_ofInsertions calls
  refine ⟨⟨hd.size, ?_, ?_⟩, hd.nodup_keys, ?_, ?_, get?_ofInsertions calls⟩
  · rintro i ⟨key, value⟩ he
    exact (hd.slot_iff key i).mpr ⟨value, he⟩
  · intro key i hi
    exact hd.lt_size hi
  · calc
      (d.toList.map fun e => some (e.1.toValue, e.2))
          = (d.toList.map some).map (Option.map fun e => (e.1.toValue, e.2)) := by
        simp
      _ = d.keys.map fun key => (d.get? key).map fun value => (key.toValue, value) := by
        rw [hd.toList_eq, List.map_map]
        simp [Function.comp_def]
      _ = _ := by
        rw [hkeys]
        apply List.map_congr_left
        intro key _
        rw [get?_ofInsertions]
        cases hlast : Insertion.last? calls key with
        | none => rfl
        | some call =>
            have hkey : call.key = key.toValue := by
              rw [← Insertion.hashKey_of_last? hlast]
              exact Value.eq_toValue_of_key? call.isKey
            simp [hkey]
  · have hfinset : inserted.toFinset = d.keys.toFinset := by
      ext key
      simp [hkeys, List.mem_eraseDups]
    calc
      d.size = d.keys.length := by simp [size, keys, toList]
      _ = d.keys.toFinset.card := (List.toFinset_card_of_nodup hd.nodup_keys).symm
      _ = inserted.toFinset.card := by rw [hfinset]

end Dict

end ScriptEngine
