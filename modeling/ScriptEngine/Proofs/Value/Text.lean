import ScriptEngine.Proofs.Value.Unfolding
import ScriptEngine.Value.Text

/-!
# Values that are shown inside themselves

The text of a value is written part by part.  What was written before it does not matter, and it is
written to its end unless some way down its parts comes back to where it was (`text?_eq_none_iff`).
-/

namespace ScriptEngine

/-- The values by which a value is shown. -/
def Layout.values : Layout → List Value
  | plain _ => []
  | parts _ ps _ => ps.map Prod.snd

namespace Heap

/-- The text of a value has that of another one as a part. -/
def Shows (h : Heap) (v w : Value) : Prop :=
  w ∈ (h.layout v).values

/-- Some way down the parts of a value leads to a container that is shown inside itself. -/
def ShowsItself (h : Heap) (v : Value) : Prop :=
  LeadsToCircle h.Shows v

theorem shows_array {h : Heap} {a : Nat} {w : Value} :
    h.Shows (.array a) w ↔ w ∈ (h.array a).toList := by
  simp [Shows, layout, Layout.values]

theorem shows_hash {h : Heap} {a : Nat} {w : Value} :
    h.Shows (.hash a) w ↔ w ∈ (h.hash a).toList.map Prod.snd := by
  simp [Shows, layout, Layout.values]

theorem shows_struct {h : Heap} {a : Nat} {w : Value} :
    h.Shows (.struct a) w ↔
      w ∈ ((h.struct a).type.fields.zip (h.struct a).fields.toList).map Prod.snd := by
  simp [Shows, layout, Layout.values]

/-- What is shown is held. -/
theorem Shows.holds {h : Heap} {v w : Value} (hshows : h.Shows v w) : h.Holds v w := by
  cases v with
  | array a => exact shows_array.mp hshows
  | hash a => exact shows_hash.mp hshows
  | struct a =>
      obtain ⟨field, hfield, rfl⟩ := List.mem_map.mp (shows_struct.mp hshows)
      exact (List.of_mem_zip hfield).2
  | _ => cases hshows

/-! ## Writing parts -/

section

variable {write : String → Value → Option String}
  (hwrite : ∀ out v, write out v = (write "" v).map (out ++ ·))

include hwrite

/-- Parts are written after what is there already. -/
theorem writeParts_eq_map (out : String) (parts : List (String × Value)) :
    writeParts write out parts = (writeParts write "" parts).map (out ++ ·) := by
  induction parts generalizing out with
  | nil => simp [writeParts]
  | cons part rest ih =>
      obtain ⟨label, v⟩ := part
      cases rest with
      | nil =>
          rw [writeParts, writeParts, hwrite (out ++ label), hwrite ("" ++ label)]
          simp [Function.comp_def, String.append_assoc]
      | cons next rest =>
          rw [writeParts, writeParts, hwrite (out ++ label), hwrite ("" ++ label)]
          · cases write "" v with
            | none => rfl
            | some text =>
                simp only [Option.map_some, Option.bind_some]
                rw [ih (out ++ label ++ text ++ ", "), ih ("" ++ label ++ text ++ ", ")]
                simp [Function.comp_def, String.append_assoc]
          · simp
          · simp

/-- Parts are written to the end unless one of them is not. -/
theorem writeParts_eq_none_iff {out : String} {parts : List (String × Value)} :
    writeParts write out parts = none ↔ ∃ v ∈ parts.map Prod.snd, write "" v = none := by
  induction parts generalizing out with
  | nil => simp [writeParts]
  | cons part rest ih =>
      obtain ⟨label, v⟩ := part
      have hfirst : write (out ++ label) v = none ↔ write "" v = none := by
        rw [hwrite (out ++ label), Option.map_eq_none_iff]
      cases rest with
      | nil => simpa [writeParts] using hfirst
      | cons next rest =>
          rw [writeParts, List.map_cons, List.exists_mem_cons_iff]
          · cases hv : write (out ++ label) v with
            | none => simp [hfirst.mp hv]
            | some text =>
                have hsome : write "" v ≠ none := fun hnone => by
                  rw [hfirst.mpr hnone] at hv
                  cases hv
                rw [Option.bind_some, ih, or_iff_right hsome]
          · simp

end

/-! ## Writing a value -/

/-- A value is written after what is there already. -/
theorem write?_eq_map (h : Heap) (depth : Nat) (out : String) (v : Value) :
    h.write? depth out v = (h.write? depth "" v).map (out ++ ·) := by
  induction depth generalizing out v with
  | zero =>
      simp only [write?]
      cases h.layout v with
      | plain text => simp
      | parts opening parts closing => rfl
  | succ depth ih =>
      simp only [write?]
      cases h.layout v with
      | plain text => simp
      | parts opening parts closing =>
          simp only
          rw [writeParts_eq_map ih (out ++ opening), writeParts_eq_map ih ("" ++ opening)]
          simp [Function.comp_def, String.append_assoc]

/-- A value is written to the next depth unless something that it shows is not. -/
theorem write?_succ_eq_none_iff {h : Heap} {depth : Nat} {v : Value} :
    h.write? (depth + 1) "" v = none ↔ ∃ w, h.Shows v w ∧ h.write? depth "" w = none := by
  simp only [write?, Shows]
  cases h.layout v with
  | plain text => simp [Layout.values]
  | parts opening parts closing =>
      rw [Option.map_eq_none_iff, writeParts_eq_none_iff (h.write?_eq_map depth)]
      rfl

theorem descends_write? (h : Heap) :
    Descends h.Shows fun depth v => h.write? depth "" v = none where
  zero {v w} hshows := by
    simp only [Shows] at hshows
    simp only [write?]
    cases hlayout : h.layout v with
    | plain text => simp [hlayout, Layout.values] at hshows
    | parts opening parts closing => rfl
  succ := write?_succ_eq_none_iff

/-- Exactly the values that are not shown inside themselves have a text. -/
theorem text?_eq_none_iff {h : Heap} {v : Value} : h.text? v = none ↔ h.ShowsItself v :=
  h.descends_write?.fails_iff (fun _ _ hshows => hshows.holds.mem_containers)
    h.length_containers_lt

/-- The text of a value is written to its end at some depth. -/
def Renders (h : Heap) (v : Value) : Prop :=
  ∃ depth text, h.write? depth "" v = some text

theorem renders_iff {h : Heap} {v : Value} : h.Renders v ↔ ¬h.ShowsItself v := by
  constructor
  · rintro ⟨depth, text, htext⟩ hself
    rw [h.descends_write?.fails_of_leadsToCircle hself depth] at htext
    cases htext
  · intro hself
    have hsome : h.text? v ≠ none := fun hnone => hself (text?_eq_none_iff.mp hnone)
    exact ⟨_, Option.ne_none_iff_exists'.mp hsome⟩

end Heap

end ScriptEngine
