import ScriptEngine.Proofs.Machine.Integrity

/-!
# Deep equality

Two values are alike if they show the same at the top and their parts are alike: the elements of
arrays at each position, the values of hashes under each key, the fields of struct instances
(`Heap.alike_iff`).  The values that can be compared are those that do not contain themselves and
have no NaN in them; what is true of the tops of such values carries over to the whole by induction
on what they hold (`Heap.Comparable.induction`).  The heap is taken to be intact, as the heaps of
all sessions are (`Session.isIntact_evalAll`).
-/

namespace ScriptEngine

open Float.Model (UnpackedFloat)
open Relation (ReflTransGen)

namespace Dict

variable {α : Type} {d d' : Dict α}

/-- Looking through the entries finds what the index finds. -/
theorem IsIndexed.lookup_toList (hd : d.IsIndexed) (key : Key) :
    d.toList.lookup key = d.get? key := by
  cases hlookup : d.toList.lookup key with
  | none =>
      have hmem : key ∉ d.keys := by
        intro hmem
        obtain ⟨e, he, rfl⟩ := List.mem_map.mp hmem
        simpa using List.lookup_eq_none_iff.mp hlookup e he
      exact (hd.get?_eq_none_iff.mpr hmem).symm
  | some value =>
      obtain ⟨before, after, hlist, -⟩ := List.lookup_eq_some_iff.mp hlookup
      have hmem : (key, value) ∈ d.toList := by simp [hlist]
      exact (hd.mem_toList_iff.mp hmem).symm

/-- Dictionaries of one size agree under all keys if they agree under the keys of one of them. -/
theorem IsIndexed.rel_iff (hd : d.IsIndexed) (hd' : d'.IsIndexed) {r : α → α → Prop} :
    (∀ key, Option.Rel r (d.get? key) (d'.get? key)) ↔
      d.keys.length = d'.keys.length ∧
        ∀ key x, d.get? key = some x → ∃ y, d'.get? key = some y ∧ r x y := by
  constructor
  · intro hrel
    have hkeys : d.keys.Perm d'.keys := by
      apply (List.perm_ext_iff_of_nodup hd.nodup_keys hd'.nodup_keys).mpr
      intro key
      have hkey := hrel key
      rw [hd.mem_keys_iff, hd'.mem_keys_iff]
      cases hx : d.get? key <;> cases hy : d'.get? key <;> simp_all
    refine ⟨hkeys.length_eq, fun key x hx => ?_⟩
    have hkey := hrel key
    rw [hx] at hkey
    cases hy : d'.get? key with
    | none => simp [hy] at hkey
    | some y => exact ⟨y, rfl, by simpa [hy] using hkey⟩
  · rintro ⟨hlength, hfound⟩ key
    have hsubset : d.keys ⊆ d'.keys := by
      intro key hmem
      obtain ⟨x, hx⟩ := hd.mem_keys_iff.mp hmem
      obtain ⟨y, hy, -⟩ := hfound key x hx
      exact hd'.mem_keys_iff.mpr ⟨y, hy⟩
    -- as there are no more keys in the second than in the first, they are the same
    have hkeys : d.keys.Perm d'.keys :=
      (hd.nodup_keys.subperm hsubset).perm_of_length_le hlength.ge
    cases hx : d.get? key with
    | some x =>
        obtain ⟨y, hy, hxy⟩ := hfound key x hx
        rw [hy]
        exact .some hxy
    | none =>
        have hmem : key ∉ d'.keys := fun hmem =>
          hd.get?_eq_none_iff.mp hx (hkeys.mem_iff.mpr hmem)
        rw [hd'.get?_eq_none_iff.mpr hmem]
        exact .none

end Dict

/-! ## Trees -/

namespace Tree

/-- What sort of thing a tree is unfolded from. -/
def kind : Tree → Kind
  | null => .null
  | bool _ => .bool
  | int _ => .int
  | float _ => .float
  | str _ => .string
  | array _ => .array
  | hash _ => .hash
  | struct _ _ => .struct
  | closure _ => .closure
  | function _ => .function
  | structType _ => .structType
  | builtin _ => .builtin

theorem kind_eq_of_same {s t : Tree} (hsame : s.same t = true) : s.kind = t.kind := by
  cases s <;> cases t <;> first | rfl | cases hsame

theorem sameList_iff {ss ts : List Tree} :
    sameList ss ts = true ↔
      ∀ i : Nat, Option.Rel (fun s t => same s t = true) ss[i]? ts[i]? := by
  induction ss generalizing ts with
  | nil =>
      cases ts with
      | nil => simp [sameList]
      | cons t ts =>
          refine iff_of_false (by simp [sameList]) fun hrel => ?_
          simpa using hrel 0
  | cons s ss ih =>
      cases ts with
      | nil =>
          refine iff_of_false (by simp [sameList]) fun hrel => ?_
          simpa using hrel 0
      | cons t ts =>
          simp only [sameList, Bool.and_eq_true, ih]
          constructor
          · rintro ⟨hhead, htail⟩ i
            cases i with
            | zero => simpa using hhead
            | succ i => simpa using htail i
          · intro hrel
            constructor
            · simpa using hrel 0
            · intro i
              simpa using hrel (i + 1)

theorem sameEntries_iff {es fs : List (Key × Tree)} :
    sameEntries es fs = true ↔
      ∀ e ∈ es, ∃ t, fs.lookup e.1 = some t ∧ e.2.same t = true := by
  induction es with
  | nil => simp [sameEntries]
  | cons e es ih =>
      obtain ⟨key, s⟩ := e
      simp only [sameEntries, Bool.and_eq_true, ih, List.forall_mem_cons]
      cases fs.lookup key <;> simp

end Tree

namespace Heap

variable {h : Heap} {u v w : Value}

/-! ## Values that can be compared -/

/-- A value can be compared: it does not contain itself, and no number in it is NaN. -/
structure Comparable (h : Heap) (v : Value) : Prop where
  acyclic : ¬h.ContainsItself v
  numbers : ∀ x, ReflTransGen h.Holds v (.float x) → x.isNaN = false

def tree (h : Heap) (v : Value) : Tree :=
  (h.tree? v).getD .null

/-- What a value holds can be unfolded one level below it. -/
theorem exists_unfolded?_of_holds {depth : Nat} {t : Tree}
    (ht : h.unfolded? (depth + 1) v = some t) (hholds : h.Holds v w) :
    ∃ u, h.unfolded? depth w = some u := by
  apply Option.ne_none_iff_exists'.mp
  intro hw
  rw [unfolded?_succ_eq_none_iff.mpr ⟨w, hholds, hw⟩] at ht
  cases ht

namespace Comparable

theorem of_holds (hv : h.Comparable v) (hholds : h.Holds v w) : h.Comparable w where
  acyclic hself := hv.acyclic (hself.head hholds)
  numbers x hx := hv.numbers x (.head hholds hx)

theorem tree?_eq (hv : h.Comparable v) : h.tree? v = some (h.tree v) := by
  obtain ⟨t, ht⟩ := Option.ne_none_iff_exists'.mp (mt tree?_eq_none_iff.mp hv.acyclic)
  rw [tree, ht, Option.getD_some]

/-- What is true of a value if it is true of what the value holds is true of all values that can be
compared. -/
@[elab_as_elim]
theorem induction {motive : ∀ v, h.Comparable v → Prop}
    (step : ∀ v (hv : h.Comparable v),
      (∀ w (hholds : h.Holds v w), motive w (hv.of_holds hholds)) → motive v hv)
    {v : Value} (hv : h.Comparable v) : motive v hv := by
  obtain ⟨depth, t, ht⟩ : ∃ depth t, h.unfolded? depth v = some t := ⟨_, _, hv.tree?_eq⟩
  induction depth generalizing v t with
  | zero =>
      refine step v hv fun w hholds => ?_
      cases v <;> first | cases hholds | cases ht
  | succ depth ih =>
      refine step v hv fun w hholds => ?_
      obtain ⟨u, hu⟩ := exists_unfolded?_of_holds ht hholds
      exact ih (hv.of_holds hholds) u hu

/-- The trees of what a value holds are found one level below its own. -/
theorem unfolded?_of_holds (hv : h.Comparable v) (hholds : h.Holds v w) :
    h.unfolded? h.size w = some (h.tree w) := by
  obtain ⟨t, ht⟩ := exists_unfolded?_of_holds hv.tree?_eq hholds
  have htree : h.tree? w = some t := unfolded?_succ_of_eq_some ht
  rw [tree, htree, Option.getD_some, ht]

theorem tree_array {a : Nat} (hv : h.Comparable (.array a)) :
    h.tree (.array a) = .array ((h.array a).toList.map h.tree) := by
  have helements : ∀ w ∈ (h.array a).toList, h.unfolded? h.size w = some (h.tree w) :=
    fun w hw => hv.unfolded?_of_holds hw
  rw [tree, tree?, unfolded?, mapM_eq_some_map helements]
  rfl

theorem tree_hash {a : Nat} (hv : h.Comparable (.hash a)) :
    h.tree (.hash a) = .hash ((h.hash a).toList.map fun e => (e.1, h.tree e.2)) := by
  have hentries : ∀ e ∈ (h.hash a).toList,
      ((h.unfolded? h.size e.2).map fun t => (e.1, t)) = some (e.1, h.tree e.2) := by
    intro e he
    rw [hv.unfolded?_of_holds (List.mem_map_of_mem he), Option.map_some]
  rw [tree, tree?, unfolded?, mapM_eq_some_map hentries]
  rfl

theorem tree_struct {a : Nat} (hv : h.Comparable (.struct a)) :
    h.tree (.struct a) =
      .struct (h.struct a).type ((h.struct a).fields.toList.map h.tree) := by
  have hfields : ∀ w ∈ (h.struct a).fields.toList, h.unfolded? h.size w = some (h.tree w) :=
    fun w hw => hv.unfolded?_of_holds hw
  rw [tree, tree?, unfolded?, mapM_eq_some_map hfields]
  rfl

end Comparable

end Heap

/-! ## The head of a value and its parts -/

/-- A number as it is compared: both zeros count as one. -/
def comparand (x : Float) : UnpackedFloat :=
  match x.toModel.unpack with
  | .zero _ => .zero .positive
  | number => number

theorem compare_finite_eq_iff {s t : UnpackedFloat.Sign} {m n : Nat} {d e : Int} (hm : 0 < m)
    (hn : 0 < n) :
    (UnpackedFloat.finite s m d hm).compare (.finite t n e hn) = some .eq ↔
      UnpackedFloat.finite s m d hm = .finite t n e hn := by
  have hthen : (compare d e).then (compare m n) = .eq ↔ m = n ∧ d = e := by
    rw [Ordering.then_eq_eq, Int.compare_eq_eq, Nat.compare_eq_eq, and_comm]
  rw [UnpackedFloat.finite.injEq]
  cases s with
  | positive =>
      cases t with
      | positive =>
          change some ((compare d e).then (compare m n)) = some .eq ↔ _
          simpa using hthen
      | negative => constructor <;> rintro ⟨⟨⟩⟩
  | negative =>
      cases t with
      | positive => constructor <;> rintro ⟨⟨⟩⟩
      | negative =>
          change some ((compare d e).then (compare m n)).swap = some .eq ↔ _
          simpa using hthen

/-- Numbers other than NaN are equal if they are the same up to the sign of zero. -/
theorem beq_iff_comparand {x y : Float} (hx : x.isNaN = false) (hy : y.isNaN = false) :
    (x == y) = true ↔ comparand x = comparand y := by
  change x.toModel.unpack.isNaN = false at hx
  change y.toModel.unpack.isNaN = false at hy
  change (x.toModel.unpack.compare y.toModel.unpack == some .eq) = true ↔ _
  unfold comparand
  generalize x.toModel.unpack = a at hx ⊢
  generalize y.toModel.unpack = b at hy ⊢
  rw [beq_iff_eq]
  cases a with
  | notANumber => cases hx
  | infinity s =>
      cases b with
      | notANumber => cases hy
      | infinity t => cases s <;> cases t <;> constructor <;> intro heq <;> cases heq <;> rfl
      | zero t => cases s <;> constructor <;> intro heq <;> cases heq
      | finite t n e hn => cases s <;> constructor <;> intro heq <;> cases heq
  | zero s =>
      cases b with
      | notANumber => cases hy
      | infinity t => cases t <;> constructor <;> intro heq <;> cases heq
      | zero t => exact iff_of_true rfl rfl
      | finite t n e hn => cases t <;> constructor <;> intro heq <;> cases heq
  | finite s m d hm =>
      cases b with
      | notANumber => cases hy
      | infinity t => cases t <;> constructor <;> intro heq <;> cases heq
      | zero t => cases s <;> constructor <;> intro heq <;> cases heq
      | finite t n e hn => exact compare_finite_eq_iff hm hn

/-- What a value shows without its parts. -/
inductive Head
  | null
  | bool (b : Bool)
  | int (n : Int64)
  | float (number : UnpackedFloat)
  | str (s : String)
  | array
  | hash
  | struct (type : StructType)
  | closure (address : Nat)
  | function (f : Function)
  | structType (t : StructType)
  | builtin (b : Builtin)

/-- Where a part is in its container. -/
inductive Selector
  | position (i : Nat)
  | key (k : Key)

theorem Value.kind_eq_of_identical {v w : Value} (hvw : v.identical w = true) :
    v.kind = w.kind := by
  cases v <;> cases w <;> first | rfl | cases hvw

namespace Heap

variable {h : Heap} {u v w : Value}

def head (h : Heap) : Value → Head
  | .null => .null
  | .bool b => .bool b
  | .int n => .int n
  | .float x => .float (comparand x)
  | .str s => .str s
  | .array _ => .array
  | .hash _ => .hash
  | .struct a => .struct (h.struct a).type
  | .closure a => .closure a
  | .function f => .function f.content
  | .structType t => .structType t.content
  | .builtin b => .builtin b

/-- A part of a container. -/
def part? (h : Heap) : Value → Selector → Option Value
  | .array a, .position i => (h.array a)[i]?
  | .hash a, .key k => (h.hash a).get? k
  | .struct a, .position i => (h.struct a).fields[i]?
  | _, _ => none

theorem holds_of_part? (hh : h.IsIntact) {p : Selector} (hpart : h.part? v p = some w) :
    h.Holds v w := by
  cases v with
  | array a =>
      cases p with
      | position i => exact Array.mem_toList_iff.mpr (Array.mem_of_getElem? hpart)
      | key k => cases hpart
  | hash a =>
      cases p with
      | position i => cases hpart
      | key k => exact List.mem_map_of_mem ((hh.hash a).mem_toList_iff.mpr hpart)
  | struct a =>
      cases p with
      | position i => exact Array.mem_toList_iff.mpr (Array.mem_of_getElem? hpart)
      | key k => cases hpart
  | _ => cases hpart

/-- Values are alike if their trees are the same. -/
theorem alike_eq (hv : h.Comparable v) (hw : h.Comparable w) :
    h.alike v w = (h.tree v).same (h.tree w) := by
  simp only [alike, hv.tree?_eq, hw.tree?_eq]

/-- Parts are alike if their trees are the same. -/
theorem rel_tree_iff (hh : h.IsIntact) (hv : h.Comparable v) (hw : h.Comparable w)
    (p : Selector) :
    Option.Rel (fun x y => (h.tree x).same (h.tree y) = true) (h.part? v p) (h.part? w p) ↔
      Option.Rel (fun x y => h.alike x y = true) (h.part? v p) (h.part? w p) := by
  cases hx : h.part? v p with
  | none => cases h.part? w p <;> simp
  | some x =>
      cases hy : h.part? w p with
      | none => simp
      | some y =>
          have hx' := hv.of_holds (holds_of_part? hh hx)
          have hy' := hw.of_holds (holds_of_part? hh hy)
          simp [alike_eq hx' hy']

/-! ## Values of different sorts -/

theorem kind_of_unfolded? {depth : Nat} {t : Tree} (ht : h.unfolded? depth v = some t) :
    t.kind = v.kind := by
  cases depth with
  | zero => cases v <;> cases ht <;> rfl
  | succ depth =>
      cases v with
      | array a =>
          obtain ⟨ts, -, rfl⟩ := Option.map_eq_some_iff.mp ht
          rfl
      | hash a =>
          obtain ⟨es, -, rfl⟩ := Option.map_eq_some_iff.mp ht
          rfl
      | struct a =>
          obtain ⟨ts, -, rfl⟩ := Option.map_eq_some_iff.mp ht
          rfl
      | _ =>
          cases ht
          rfl

theorem kind_eq_of_alike (halike : h.alike v w = true) : v.kind = w.kind := by
  unfold alike at halike
  split at halike
  next s t hs ht =>
    rw [← kind_of_unfolded? hs, ← kind_of_unfolded? ht]
    exact Tree.kind_eq_of_same halike
  next => cases halike

theorem kind_eq_of_head (hhead : h.head v = h.head w) : v.kind = w.kind := by
  cases v <;> cases w <;> first | rfl | cases hhead

/-- Values that are not taken apart are alike if they are equal. -/
theorem alike_eq_identical
    (hkind : v.kind ∉ [.array, .hash, .struct, .structType, .function]) :
    h.alike v w = v.identical w := by
  by_cases hsame : v.kind = w.kind
  · cases v <;> cases w <;> cases hsame <;> simp [Value.kind] at hkind
    all_goals simp only [alike, tree?, unfolded?, Tree.same, Value.identical]
    rw [Bool.eq_iff_iff, beq_iff_eq, beq_iff_eq, Builtin.name_inj]
  · rw [Bool.eq_iff_iff]
    exact iff_of_false (fun halike => hsame (kind_eq_of_alike halike))
      fun hidentical => hsame (Value.kind_eq_of_identical hidentical)

/-! ## One comparison -/

theorem sameList_map_iff {xs ys : Array Value} :
    Tree.sameList (xs.toList.map h.tree) (ys.toList.map h.tree) = true ↔
      ∀ i : Nat, Option.Rel (fun x y => (h.tree x).same (h.tree y) = true) xs[i]? ys[i]? := by
  rw [Tree.sameList_iff]
  apply forall_congr'
  intro i
  rw [List.getElem?_map, List.getElem?_map, Array.getElem?_toList, Array.getElem?_toList]
  cases xs[i]? <;> cases ys[i]? <;> simp

theorem lookup_map_tree (es : List (Key × Value)) (key : Key) :
    (es.map fun e => (e.1, h.tree e.2)).lookup key = (es.lookup key).map h.tree := by
  induction es with
  | nil => rfl
  | cons e es ih =>
      obtain ⟨key', x⟩ := e
      rw [List.map_cons, List.lookup_cons, List.lookup_cons, ih]
      cases key == key' <;> rfl

theorem same_hash_iff {d d' : Dict Value} (hd : d.IsIndexed) (hd' : d'.IsIndexed) :
    Tree.same (.hash (d.toList.map fun e => (e.1, h.tree e.2)))
        (.hash (d'.toList.map fun e => (e.1, h.tree e.2))) = true ↔
      ∀ key, Option.Rel (fun x y => (h.tree x).same (h.tree y) = true) (d.get? key)
        (d'.get? key) := by
  rw [hd.rel_iff hd']
  simp only [Tree.same, Bool.and_eq_true, beq_iff_eq, List.length_map, Tree.sameEntries_iff,
    List.forall_mem_map, lookup_map_tree, hd'.lookup_toList, Option.map_eq_some_iff, Dict.keys]
  apply and_congr_right
  intro _
  constructor
  · intro hentries key x hx
    obtain ⟨_, ⟨y, hy, rfl⟩, hxy⟩ := hentries (key, x) (hd.mem_toList_iff.mpr hx)
    exact ⟨y, hy, hxy⟩
  · rintro hfound ⟨key, x⟩ hmem
    obtain ⟨y, hy, hxy⟩ := hfound key x (hd.mem_toList_iff.mp hmem)
    exact ⟨h.tree y, ⟨y, hy, rfl⟩, hxy⟩

theorem forall_selector_iff {p : Selector → Prop} :
    (∀ s, p s) ↔ (∀ i, p (.position i)) ∧ ∀ key, p (.key key) := by
  constructor
  · intro hp
    exact ⟨fun i => hp _, fun key => hp _⟩
  · rintro ⟨hposition, hkey⟩ s
    cases s with
    | position i => exact hposition i
    | key key => exact hkey key

/-- Two values are alike if they have the same head and their parts are alike. -/
theorem alike_iff (hh : h.IsIntact) (hv : h.Comparable v) (hw : h.Comparable w) :
    h.alike v w = true ↔
      h.head v = h.head w ∧
        ∀ p, Option.Rel (fun x y => h.alike x y = true) (h.part? v p) (h.part? w p) := by
  by_cases hsame : v.kind = w.kind
  · simp only [← rel_tree_iff hh hv hw, alike_eq hv hw, forall_selector_iff]
    cases v <;> cases w <;> cases hsame
    case pos.array.array.refl a b =>
      rw [hv.tree_array, hw.tree_array, Tree.same, sameList_map_iff]
      simp [head, part?]
    case pos.hash.hash.refl a b =>
      rw [hv.tree_hash, hw.tree_hash, same_hash_iff (hh.hash a) (hh.hash b)]
      simp [head, part?]
    case pos.struct.struct.refl a b =>
      rw [hv.tree_struct, hw.tree_struct, Tree.same, Bool.and_eq_true, sameList_map_iff]
      simp [head, part?]
    case pos.float.float.refl x y =>
      have hbeq := beq_iff_comparand (hv.numbers x .refl) (hw.numbers y .refl)
      simpa [tree, tree?, unfolded?, Tree.same, head, part?] using hbeq
    all_goals simp [tree, tree?, unfolded?, Tree.same, head, part?]
  -- values of different sorts are not alike, and have different heads
  · exact iff_of_false (fun halike => hsame (kind_eq_of_alike halike))
      fun hparts => hsame (kind_eq_of_head hparts.1)

/-! ## The relation -/

theorem rel_flip {α : Type} {r s : α → α → Prop} {x? y? : Option α} (hrel : Option.Rel r x? y?)
    (hrs : ∀ x y, x? = some x → y? = some y → r x y → s y x) : Option.Rel s y? x? := by
  cases hrel with
  | some hxy => exact .some (hrs _ _ rfl rfl hxy)
  | none => exact .none

theorem rel_comp {α : Type} {r s t : α → α → Prop} {x? y? z? : Option α}
    (hxy : Option.Rel r x? y?) (hyz : Option.Rel s y? z?)
    (hrst : ∀ x y z, x? = some x → y? = some y → z? = some z → r x y → s y z → t x z) :
    Option.Rel t x? z? := by
  cases hxy with
  | some hxy =>
      cases hyz with
      | some hyz => exact .some (hrst _ _ _ rfl rfl rfl hxy hyz)
  | none =>
      cases hyz with
      | none => exact .none

theorem alike_refl (hh : h.IsIntact) (hv : h.Comparable v) : h.alike v v = true := by
  induction hv using Comparable.induction with
  | step v hv ih =>
      rw [alike_iff hh hv hv]
      refine ⟨rfl, fun p => ?_⟩
      cases hx : h.part? v p with
      | none => exact .none
      | some x => exact .some (ih x (holds_of_part? hh hx))

theorem alike_symm (hh : h.IsIntact) (hv : h.Comparable v) (hw : h.Comparable w)
    (hvw : h.alike v w = true) : h.alike w v = true := by
  induction hv using Comparable.induction generalizing w with
  | step v hv ih =>
      obtain ⟨hhead, hparts⟩ := (alike_iff hh hv hw).mp hvw
      rw [alike_iff hh hw hv]
      refine ⟨hhead.symm, fun p => rel_flip (hparts p) fun x y hx hy hxy => ?_⟩
      have hy' := hw.of_holds (holds_of_part? hh hy)
      exact ih x (holds_of_part? hh hx) hy' hxy

theorem alike_trans (hh : h.IsIntact) (hu : h.Comparable u) (hv : h.Comparable v)
    (hw : h.Comparable w) (huv : h.alike u v = true) (hvw : h.alike v w = true) :
    h.alike u w = true := by
  induction hu using Comparable.induction generalizing v w with
  | step u hu ih =>
      obtain ⟨hhead, hparts⟩ := (alike_iff hh hu hv).mp huv
      obtain ⟨hhead', hparts'⟩ := (alike_iff hh hv hw).mp hvw
      rw [alike_iff hh hu hw]
      refine ⟨hhead.trans hhead', fun p => ?_⟩
      apply rel_comp (hparts p) (hparts' p)
      intro x y z hx hy hz hxy hyz
      have hy' := hv.of_holds (holds_of_part? hh hy)
      have hz' := hw.of_holds (holds_of_part? hh hz)
      exact ih x (holds_of_part? hh hx) hy' hz' hxy hyz

/-- Hashes are alike if they have the same keys and alike values under each. -/
theorem alike_hash_iff (hh : h.IsIntact) {a b : Nat} (ha : h.Comparable (.hash a))
    (hb : h.Comparable (.hash b)) :
    h.alike (.hash a) (.hash b) = true ↔
      (∀ key, key ∈ (h.hash a).keys ↔ key ∈ (h.hash b).keys) ∧
        ∀ key x y, (h.hash a).get? key = some x → (h.hash b).get? key = some y →
          h.alike x y = true := by
  have hparts : h.alike (.hash a) (.hash b) = true ↔ ∀ key,
      Option.Rel (fun x y => h.alike x y = true) ((h.hash a).get? key) ((h.hash b).get? key) := by
    rw [alike_iff hh ha hb, forall_selector_iff]
    simp [head, part?]
  rw [hparts]
  simp only [(hh.hash a).mem_keys_iff, (hh.hash b).mem_keys_iff, ← forall_and]
  apply forall_congr'
  intro key
  cases (h.hash a).get? key <;> cases (h.hash b).get? key <;> simp

/-- Equal values are alike. -/
theorem alike_of_identical (hh : h.IsIntact) (hv : h.Comparable v) (hvw : v.identical w = true) :
    h.alike v w = true := by
  have hsame := Value.kind_eq_of_identical hvw
  cases v <;> cases w <;> cases hsame
  case array.array.refl a b =>
    obtain rfl : a = b := by simpa [Value.identical] using hvw
    exact alike_refl hh hv
  case hash.hash.refl a b =>
    obtain rfl : a = b := by simpa [Value.identical] using hvw
    exact alike_refl hh hv
  case struct.struct.refl a b =>
    obtain rfl : a = b := by simpa [Value.identical] using hvw
    exact alike_refl hh hv
  case function.function.refl f g =>
    obtain rfl : f = g := by simpa [Value.identical] using hvw
    exact alike_refl hh hv
  case structType.structType.refl t t' =>
    obtain rfl : t = t' := by simpa [Value.identical] using hvw
    exact alike_refl hh hv
  all_goals
    rw [alike_eq_identical (by simp [Value.kind])]
    exact hvw

/-- Being alike is an equivalence on the values of an intact heap that can be compared.  Hashes are
alike exactly if they have the same keys and alike values under each of them, in whatever order they
were inserted.  Equal values are alike; for everything but arrays, hashes, struct instances, struct
types and compiled functions, being alike is being equal. -/
theorem alike_isEquivalence {h : Heap} (hh : h.IsIntact) :
    Equivalence (fun v w : { v // h.Comparable v } => h.alike v w = true) ∧
    (∀ a b, h.Comparable (.hash a) → h.Comparable (.hash b) →
      (h.alike (.hash a) (.hash b) = true ↔
        (∀ key, key ∈ (h.hash a).keys ↔ key ∈ (h.hash b).keys) ∧
          ∀ key x y, (h.hash a).get? key = some x → (h.hash b).get? key = some y →
            h.alike x y = true)) ∧
    (∀ v w, h.Comparable v → v.identical w = true → h.alike v w = true) ∧
    ∀ v w, v.kind ∉ [.array, .hash, .struct, .structType, .function] →
      h.alike v w = v.identical w := by
  refine ⟨⟨?_, ?_, ?_⟩, ?_, ?_, ?_⟩
  · intro v
    exact alike_refl hh v.2
  · intro v w hvw
    exact alike_symm hh v.2 w.2 hvw
  · intro u v w huv hvw
    exact alike_trans hh u.2 v.2 w.2 huv hvw
  · intro a b ha hb
    exact alike_hash_iff hh ha hb
  · intro v w hv hvw
    exact alike_of_identical hh hv hvw
  · intro v w hkind
    exact alike_eq_identical hkind

/-- Two hashes with the same entries, inserted in different orders; the arrays in them hold zeros of
different signs. -/
def twins : Heap :=
  { arrays := #[#[.float 0], #[.float (-0)]]
    hashes := #[(Dict.empty.insert (.str "x") (.array 0)).insert (.int 1) .null,
      (Dict.empty.insert (.int 1) .null).insert (.str "x") (.array 1)]
    structs := #[]
    closures := #[] }

theorem isIntact_twins : twins.IsIntact where
  closed := by
    constructor <;> decide +kernel
  indexed := by
    intro d hd
    simp only [twins, List.mem_toArray, List.mem_cons, List.not_mem_nil, or_false] at hd
    rcases hd with rfl | rfl
    · exact (Dict.isIndexed_empty.insert _ _).insert _ _
    · exact (Dict.isIndexed_empty.insert _ _).insert _ _

theorem comparable_twins (a : Nat) (ha : a < 2) : twins.Comparable (.hash a) where
  acyclic := by
    have htree : ∀ a < 2, twins.tree? (.hash a) ≠ none := by decide +kernel
    exact fun hself => htree a ha (tree?_eq_none_iff.mpr hself)
  numbers := by
    intro x hx
    have hall : twins.All (· ∈ [.float 0, .float (-0), .array 0, .array 1, .null]) := by
      constructor <;> decide +kernel
    rcases hx.cases_tail with hself | ⟨w, -, hholds⟩
    · cases hself
    · have hmem := hall.holds hholds
      simp only [List.mem_cons, Value.float.injEq, reduceCtorEq, List.not_mem_nil, or_false] at hmem
      rcases hmem with rfl | rfl <;> decide +kernel

/-- The hashes are alike both ways, but not equal. -/
theorem alike_isEquivalence_twins :
    twins.IsIntact ∧ twins.Comparable (.hash 0) ∧ twins.Comparable (.hash 1) ∧
      twins.alike (.hash 0) (.hash 1) = true ∧ twins.alike (.hash 1) (.hash 0) = true ∧
      Value.identical (.hash 0) (.hash 1) = false := by
  obtain ⟨hequivalence, -⟩ := alike_isEquivalence isIntact_twins
  have h₀ : twins.Comparable (.hash 0) := comparable_twins 0 (by decide)
  have h₁ : twins.Comparable (.hash 1) := comparable_twins 1 (by decide)
  have halike : twins.alike (.hash 0) (.hash 1) = true := by decide +kernel
  have hsymm : twins.alike (.hash 1) (.hash 0) = true :=
    hequivalence.symm (x := ⟨_, h₀⟩) (y := ⟨_, h₁⟩) halike
  exact ⟨isIntact_twins, h₀, h₁, halike, hsymm, rfl⟩

end Heap

end ScriptEngine
