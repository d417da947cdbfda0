import Mathlib.Data.List.Nodup
import ScriptEngine.Machine.Configuration

/-!
# Reading limits back

A configuration that sets keys to numbers, one in each line, is read back as it was written: a line
is read up to its end and leaves what comes after it (`Toml.lines?_setting`), and so the document
has the keys with their numbers (`Toml.document?_settingsText`).  The limits are those that it sets,
whatever their order and whatever other keys there are (`Limits.ofToml?_settingsText`).
-/

namespace ScriptEngine

namespace Toml

/-! ## Lines that set a key -/

/-- A key that need not be quoted. -/
def IsBareKey (key : String) : Prop :=
  key.toList ≠ [] ∧ ∀ c ∈ key.toList, isBare c = true

instance (key : String) : Decidable (IsBareKey key) :=
  inferInstanceAs (Decidable (_ ∧ _))

/-- The largest integer of 64 bits. -/
def greatestInteger : Nat := 9223372036854775807

/-- A document that sets keys to numbers, one in each line. -/
def settingsText : List (String × Nat) → String
  | [] => ""
  | (key, n) :: rest => key ++ " = " ++ toString n ++ "\n" ++ settingsText rest

theorem toList_settingsText_cons (key : String) (n : Nat) (rest : List (String × Nat)) :
    (settingsText ((key, n) :: rest)).toList = key.toList ++
      ' ' :: '=' :: ' ' :: (Nat.toDigits 10 n ++ '\n' :: (settingsText rest).toList) := by
  simp [settingsText]

/-! ## Keys -/

/-- A character of a class differs from one outside it. -/
theorem ne_of_class {p : Char → Bool} {c d : Char} (hc : p c = true) (hd : p d = false) :
    c ≠ d := by
  rintro rfl
  rw [hc] at hd
  cases hd

section

variable {key : String} {rest : List Char}

/-- A bare key begins with a bare character. -/
theorem IsBareKey.exists_cons (hkey : IsBareKey key) :
    ∃ c cs, key.toList = c :: cs ∧ isBare c = true := by
  obtain ⟨c, cs, hcs⟩ := List.exists_cons_of_ne_nil hkey.1
  exact ⟨c, cs, hcs, hkey.2 c (by simp [hcs])⟩

theorem IsBareKey.append_ne (hkey : IsBareKey key) {c : Char} {cs : List Char}
    (hc : isBare c = false) : key.toList ++ rest ≠ c :: cs := by
  obtain ⟨d, ds, hds, hd⟩ := hkey.exists_cons
  rw [hds]
  intro heq
  exact ne_of_class hd hc (List.cons.inj heq).1

theorem skipBlanks_bare (hkey : IsBareKey key) :
    skipBlanks (key.toList ++ rest) = key.toList ++ rest := by
  obtain ⟨c, cs, hcs, hc⟩ := hkey.exists_cons
  have hspace := ne_of_class hc (d := ' ') (by decide)
  have htab := ne_of_class hc (d := '\t') (by decide)
  simp [skipBlanks, hcs, isBlank, hspace, htab]

theorem keyPart?_bare (hkey : IsBareKey key) :
    keyPart? (key.toList ++ ' ' :: rest) = some (key, ' ' :: rest) := by
  obtain ⟨c, cs, hcs, hc⟩ := hkey.exists_cons
  have hdouble := ne_of_class hc (d := '\x22') (by decide)
  have hsingle := ne_of_class hc (d := '\x27') (by decide)
  have hspace : isBare ' ' = false := by decide
  unfold keyPart?
  split
  · simp_all
  · simp_all
  · rw [List.takeWhile_append_of_pos hkey.2, List.dropWhile_append_of_pos hkey.2]
    simp [hspace, hkey.1]

/-- A bare key is read up to its end. -/
theorem key?_bare (hkey : IsBareKey key) :
    key? (key.toList ++ ' ' :: '=' :: rest) = some ([key], '=' :: rest) := by
  have hparts : key? = keyParts? (78 + 1) := rfl
  rw [hparts, keyParts?, skipBlanks_bare hkey, keyPart?_bare hkey]
  rfl

end

/-! ## Numbers -/

/-- A date begins with four digits. -/
theorem date?_of_mem_take {cs : List Char} (h : '\n' ∈ cs.take 4) : date? cs = none := by
  unfold date?
  split
  · rename_i a b c d cs
    have hall : [a, b, c, d].all Char.isDigit = false := by
      rw [List.all_eq_false]
      exact ⟨'\n', by simpa using h, by decide⟩
    rw [hall]
    rfl
  · rfl

section

variable {ds rest : List Char} (hds : ∀ d ∈ ds, d.isDigit = true)
include hds

theorem char?_digits {c : Char} (hc : c.isDigit = false) (hline : c ≠ '\n') :
    char? c (ds ++ '\n' :: rest) = none := by
  cases ds with
  | nil => simp [char?, hline.symm]
  | cons d ds =>
      have hne := ne_of_class (hds d List.mem_cons_self) hc
      simp [char?, hne]

-- the line goes on with a digit or ends where a date has a hyphen and a time has a colon

theorem date?_digits : date? (ds ++ '\n' :: rest) = none := by
  rcases ds with _ | ⟨a, _ | ⟨b, _ | ⟨c, _ | ⟨d, ds⟩⟩⟩⟩
  iterate 4 exact date?_of_mem_take (by simp)
  simp only [List.forall_mem_cons] at hds
  obtain ⟨ha, hb, hc, hd, hds⟩ := hds
  have hhyphen : char? '-' (ds ++ '\n' :: rest) = none :=
    char?_digits hds (by decide) (by decide)
  have hall : [a, b, c, d].all Char.isDigit = true := by simp [ha, hb, hc, hd]
  rw [List.cons_append, List.cons_append, List.cons_append, List.cons_append, date?, hall, hhyphen]
  rfl

theorem time?_digits : time? (ds ++ '\n' :: rest) = none := by
  have hline : '\n'.isDigit = false := by decide
  rcases ds with _ | ⟨a, _ | ⟨b, ds⟩⟩
  · cases rest <;> simp [time?, twoDigits?, hline]
  · simp [time?, twoDigits?, hline]
  · simp only [List.forall_mem_cons] at hds
    have hcolon : char? ':' (ds ++ '\n' :: rest) = none :=
      char?_digits hds.2.2 (by decide) (by decide)
    simp only [time?, List.cons_append, twoDigits?]
    split
    · simp [hcolon]
    · rfl

theorem moment?_digits : moment? (ds ++ '\n' :: rest) = none := by
  rw [moment?, date?_digits hds, time?_digits hds]

theorem moreDigits?_digits :
    moreDigits? Char.isDigit (ds ++ '\n' :: rest) = some (ds, '\n' :: rest) := by
  induction ds with
  | nil => rfl
  | cons d ds ih =>
      obtain ⟨hd, hds⟩ := List.forall_mem_cons.mp hds
      have hne := ne_of_class hd (d := '_') (by decide)
      rw [List.cons_append, moreDigits?, if_pos hd, ih hds]
      · rfl
      · rintro _ _ rfl
        exact absurd rfl hne

end

/-- A number that is not zero is not written with a zero in front of it. -/
theorem toDigits_eq_zero_cons {n : Nat} {ds : List Char} (h : Nat.toDigits 10 n = '0' :: ds) :
    n = 0 ∧ ds = [] := by
  induction n using Nat.strongRecOn generalizing ds with
  | ind n ih =>
      rw [Nat.toDigits_eq_if (by decide)] at h
      split at h
      · obtain ⟨hzero, rfl⟩ := List.cons.inj h
        exact ⟨(Nat.digitChar_eq_zero).mp hzero, rfl⟩
      · rename_i hlarge
        have hne : Nat.toDigits 10 (n / 10) ≠ [] := Nat.toDigits_ne_nil
        obtain ⟨d, ds', hdigits⟩ := List.exists_cons_of_ne_nil hne
        rw [hdigits, List.cons_append] at h
        obtain ⟨rfl, -⟩ := List.cons.inj h
        have hsmall := (ih (n / 10) (by omega) hdigits).1
        omega

/-- A number is written with digits only. -/
theorem exists_toDigits_eq_cons (n : Nat) :
    ∃ d ds, Nat.toDigits 10 n = d :: ds ∧ d.isDigit = true ∧ ∀ d ∈ ds, d.isDigit = true := by
  obtain ⟨d, ds, hds⟩ := List.exists_cons_of_ne_nil (Nat.toDigits_ne_nil (b := 10) (n := n))
  have hdigit (c : Char) (hc : c ∈ d :: ds) : c.isDigit = true :=
    Nat.isDigit_of_mem_toDigits (by decide) (by decide) (hds ▸ hc)
  obtain ⟨hd, hrest⟩ := List.forall_mem_cons.mp hdigit
  exact ⟨d, ds, hds, hd, hrest⟩

theorem toDigits_append_ne {n : Nat} {c : Char} {cs rest : List Char} (hc : c.isDigit = false) :
    Nat.toDigits 10 n ++ rest ≠ c :: cs := by
  obtain ⟨d, ds, hds, hd, -⟩ := exists_toDigits_eq_cons n
  rw [hds]
  intro heq
  exact ne_of_class hd hc (List.cons.inj heq).1

/-- After the first digit comes another one or the end of the line. -/
theorem toDigits_append_ne_cons {n : Nat} {b c : Char} {cs rest : List Char}
    (hc : c.isDigit = false) (hline : c ≠ '\n') :
    Nat.toDigits 10 n ++ '\n' :: rest ≠ b :: c :: cs := by
  obtain ⟨d, ds, hds, -, hdigits⟩ := exists_toDigits_eq_cons n
  rw [hds, List.cons_append]
  intro heq
  have htail := (List.cons.inj heq).2
  cases ds with
  | nil => exact hline (List.cons.inj htail).1.symm
  | cons d' ds => exact ne_of_class (hdigits d' List.mem_cons_self) hc (List.cons.inj htail).1

theorem decimal?_toDigits (n : Nat) (rest : List Char) :
    decimal? (Nat.toDigits 10 n ++ '\n' :: rest) = some (Nat.toDigits 10 n, '\n' :: rest) := by
  obtain ⟨d, ds, hds, hd, hdigits⟩ := exists_toDigits_eq_cons n
  rw [hds, List.cons_append]
  by_cases hzero : d = '0'
  · subst hzero
    obtain ⟨-, rfl⟩ := toDigits_eq_zero_cons hds
    rfl
  · rw [decimal?, digits?, if_pos hd, moreDigits?_digits hdigits]
    · rfl
    · intro cs hcs
      exact hzero (List.cons.inj hcs).1

theorem digitsValue_toDigits (n : Nat) : digitsValue 10 (Nat.toDigits 10 n) = n := by
  have hfold (ds : List Char) (hds : ∀ d ∈ ds, d.isDigit = true) (k : Nat) :
      ds.foldl (fun k c => k * 10 + digitValue c) k = Nat.ofDigitChars 10 ds k := by
    induction ds generalizing k with
    | nil => rfl
    | cons d ds ih =>
        obtain ⟨hd, hds⟩ := List.forall_mem_cons.mp hds
        rw [List.foldl_cons, ih hds, Nat.ofDigitChars_cons, digitValue, if_pos hd, Nat.mul_comm]
  have hdigits (d : Char) (hd : d ∈ Nat.toDigits 10 n) : d.isDigit = true :=
    Nat.isDigit_of_mem_toDigits (by decide) (by decide) hd
  rw [digitsValue, hfold _ hdigits]
  exact Nat.ofDigitChars_toDigits (by decide) (by decide)

theorem integer?_of_le {n : Nat} (hn : n ≤ greatestInteger) : integer? n = some (n : Int) := by
  have hleast : Int64.minValue.toInt = -9223372036854775808 := by decide
  have hgreatest : Int64.maxValue.toInt = greatestInteger := by decide
  rw [integer?, if_pos]
  omega

theorem unsigned?_toDigits {n : Nat} (hn : n ≤ greatestInteger) (rest : List Char) :
    unsigned? false (Nat.toDigits 10 n ++ '\n' :: rest) = some (some (n : Int), '\n' :: rest) := by
  unfold unsigned?
  split
  · exact absurd ‹_› (toDigits_append_ne (by decide))
  · exact absurd ‹_› (toDigits_append_ne (by decide))
  · rw [decimal?_toDigits]
    -- there is no fraction and no exponent
    change (if (true && decide (('\n' :: rest).length = ('\n' :: rest).length)) = true then
      (integer? (digitsValue 10 (Nat.toDigits 10 n))).bind fun n => some (some n, '\n' :: rest)
        else _) = _
    rw [if_pos (by simp), digitsValue_toDigits, integer?_of_le hn]
    rfl

theorem number?_toDigits {n : Nat} (hn : n ≤ greatestInteger) (rest : List Char) :
    number? (Nat.toDigits 10 n ++ '\n' :: rest) = some (some (n : Int), '\n' :: rest) := by
  rw [number?, unsigned?_toDigits hn]
  -- the line does not begin with the letter of a base or with a sign
  · exact fun _ => toDigits_append_ne_cons (by decide) (by decide)
  · exact fun _ => toDigits_append_ne_cons (by decide) (by decide)
  · exact fun _ => toDigits_append_ne_cons (by decide) (by decide)
  · exact fun _ => toDigits_append_ne (by decide)
  · exact fun _ => toDigits_append_ne (by decide)

theorem value?_toDigits {n : Nat} (hn : n ≤ greatestInteger) (rest : List Char)
    (depth steps : Nat) :
    value? depth (steps + 1) (Nat.toDigits 10 n ++ '\n' :: rest) =
      some (.integer n, '\n' :: rest) := by
  obtain ⟨d, ds, hds, hd, hdigits⟩ := exists_toDigits_eq_cons n
  have hmoment : moment? (Nat.toDigits 10 n ++ '\n' :: rest) = none := by
    rw [hds]
    exact moment?_digits (List.forall_mem_cons.mpr ⟨hd, hdigits⟩)
  rw [value?, hmoment, number?_toDigits hn]
  · rfl
  -- the line does not begin as any other value does
  all_goals exact fun _ => toDigits_append_ne (by decide)

/-! ## Documents -/

theorem alter_none {key : String} {change : Option Node → Option Node} {node : Node}
    (hchange : change none = some node) {es : Entries} (hfresh : key ∉ es.map Prod.fst) :
    alter key change es = some (es ++ [(key, node)]) := by
  induction es with
  | nil => simp [alter, hchange]
  | cons e es ih =>
      obtain ⟨k, n⟩ := e
      rw [List.map_cons, List.mem_cons, not_or] at hfresh
      rw [alter, if_neg (Ne.symm hfresh.1), ih hfresh.2]
      rfl

section

variable {key : String} {n : Nat} {rest : List Char}

/-- A line is read up to its end. -/
theorem lines?_setting (hkey : IsBareKey key) (hn : n ≤ greatestInteger) {es : Entries}
    (hfresh : key ∉ es.map Prod.fst) (steps : Nat) :
    lines? [] es (steps + 2)
        (key.toList ++ ' ' :: '=' :: ' ' :: (Nat.toDigits 10 n ++ '\n' :: rest)) =
      lines? [] (es ++ [(key, .integer n)]) (steps + 1) rest := by
  have hvalue : skipBlanks (' ' :: (Nat.toDigits 10 n ++ '\n' :: rest)) =
      Nat.toDigits 10 n ++ '\n' :: rest := by
    obtain ⟨d, ds, hds, hd, -⟩ := exists_toDigits_eq_cons n
    have hspace := ne_of_class hd (d := ' ') (by decide)
    have htab := ne_of_class hd (d := '\t') (by decide)
    simp [skipBlanks, hds, isBlank, hspace, htab]
  have hassign : within (assign (.integer n) [key]) [] es = some (es ++ [(key, .integer n)]) :=
    alter_none rfl hfresh
  have htail : lineTail? ('\n' :: rest) = some rest := by
    simp [lineTail?, skipBlanks, isBlank, lineEnd?]
  rw [lines?, skipBlanks_bare hkey]
  split
  -- the line does not begin as a blank one, a comment or a header does
  · simp_all
  iterate 5 exact absurd ‹_› (hkey.append_ne (by decide))
  · simp [key?_bare hkey, char?, hvalue, value?_toDigits hn, htail, hassign]

end

/-- The entries of a document that sets keys to numbers. -/
def settingsEntries (settings : List (String × Nat)) : Entries :=
  settings.map fun (key, n) => (key, .integer n)

theorem lines?_settings {settings : List (String × Nat)} {es : Entries} {steps : Nat}
    (hkeys : ∀ s ∈ settings, IsBareKey s.1 ∧ s.2 ≤ greatestInteger)
    (hnodup : (es.map Prod.fst ++ settings.map Prod.fst).Nodup) (hsteps : settings.length < steps) :
    lines? [] es steps (settingsText settings).toList = some (es ++ settingsEntries settings) := by
  induction settings generalizing es steps with
  | nil =>
      obtain ⟨steps, rfl⟩ := Nat.exists_eq_add_of_lt hsteps
      simp [settingsText, settingsEntries, lines?, skipBlanks]
  | cons s settings ih =>
      obtain ⟨key, n⟩ := s
      obtain ⟨⟨hkey, hn⟩, hkeys⟩ := List.forall_mem_cons.mp hkeys
      obtain ⟨steps, rfl⟩ : ∃ k, steps = k + 2 := ⟨steps - 2, by simp at hsteps; omega⟩
      have hfresh : key ∉ es.map Prod.fst := by
        intro hmem
        exact (List.nodup_append.mp hnodup).2.2 key hmem key (by simp) rfl
      rw [toList_settingsText_cons, lines?_setting hkey hn hfresh, ih hkeys]
      · simp [settingsEntries]
      · simpa using hnodup
      · simp at hsteps
        omega

/-- A document that sets keys to numbers is read back as it was written. -/
theorem document?_settingsText {settings : List (String × Nat)}
    (hkeys : ∀ s ∈ settings, IsBareKey s.1 ∧ s.2 ≤ greatestInteger)
    (hnodup : (settings.map Prod.fst).Nodup) :
    document? (settingsText settings) = some (settingsEntries settings) := by
  have hlength : settings.length ≤ (settingsText settings).toList.length := by
    clear hkeys hnodup
    induction settings with
    | nil => simp
    | cons s settings ih =>
        rw [toList_settingsText_cons]
        simp at ih ⊢
        omega
  rw [document?]
  split
  · rename_i cs hcs
    cases settings with
    | nil => simp [settingsText] at hcs
    | cons s settings =>
        rw [toList_settingsText_cons] at hcs
        exact absurd hcs ((hkeys s List.mem_cons_self).1.append_ne (by decide))
  · exact lines?_settings hkeys hnodup (by omega)

end Toml

namespace Limits

open Toml

theorem size?_settingsEntries (settings : List (String × Nat)) (key : String) (usual : Nat) :
    size? (settingsEntries settings) key usual = some ((settings.lookup key).getD usual) := by
  have hlookup : (settingsEntries settings).lookup key =
      (settings.lookup key).map fun n : Nat => Node.integer n := by
    induction settings with
    | nil => rfl
    | cons s settings ih =>
        obtain ⟨k, n⟩ := s
        rw [settingsEntries, List.map_cons, List.lookup_cons, List.lookup_cons]
        cases key == k
        · exact ih
        · rfl
  rw [size?, hlookup]
  cases settings.lookup key <;> rfl

/-- A configuration sets the limits that it names, in whatever order and among whatever other keys;
the others keep their usual size. -/
theorem ofToml?_settingsText {settings : List (String × Nat)}
    (hkeys : ∀ s ∈ settings, IsBareKey s.1 ∧ s.2 ≤ greatestInteger)
    (hnodup : (settings.map Prod.fst).Nodup) :
    ofToml? (settingsText settings) = some {
      stackSize := (settings.lookup "stack_size").getD 2048
      maxFrames := (settings.lookup "max_frames").getD 1024
      globalsSize := (settings.lookup "globals_size").getD 65536 } := by
  rw [ofToml?, document?_settingsText hkeys hnodup]
  simp only [Option.bind_eq_bind, Option.bind_some, size?_settingsEntries]
  rfl

-- a configuration may ask for more frames than a machine can be built with
example : (ofToml? "max_frames = 9223372036854775807\n").map fitMachine = some false := by
  decide +kernel

end Limits

end ScriptEngine
