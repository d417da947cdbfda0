import ScriptEngine.Proofs.Language.Survey

/-!
# What scopes capture

The scopes of a chain agree with a survey of the same events: names are declared alike, and every
scope has captured the variables that its region captures, in the same order.  While a function is
open, the regions around it have not yet read what it captures from them, but their scopes hand it
on already; `Captures` counts these variables as pending.
-/

namespace ScriptEngine

/-! ## Symbols of variables -/

/-- The symbol, seen from the first of the scopes, is that of the variable.  If it is captured, it
has its name from the value that is captured. -/
structure Symbol.Denotes (scopes : List Scope) (x : Symbol) (v : Variable) : Prop where
  name : x.name = v.name
  origin : ∃ o, x.origin? scopes = some o ∧ o.place = v.place
  captured : x.storage = .captured →
    ∃ s ∈ scopes.head?, ∃ y, s.captures[x.index]? = some y ∧ y.name = x.name

/-- Captured symbols have their names from the values that are captured. -/
def Scope.HandsOn (s : Scope) : Prop :=
  ∀ name x, s.get? name = some x → x.storage = .captured →
    ∃ y, s.captures[x.index]? = some y ∧ y.name = name

theorem Scope.Grows.getElem?_captures {s s' : Scope} (h : s.Grows s') {k : Nat} {y : Symbol}
    (hy : s.captures[k]? = some y) : s'.captures[k]? = some y := by
  obtain ⟨later, hlater⟩ := h.captures
  rw [← hlater, List.getElem?_append_left (List.getElem?_eq_some_iff.mp hy).1, hy]

theorem Symbol.Denotes.mono {ss ss' : List Scope} {x : Symbol} {v : Variable}
    (h : x.Denotes ss v) (hss : List.Forall₂ Scope.Grows ss ss') : x.Denotes ss' v := by
  obtain ⟨o, horigin, hplace⟩ := h.origin
  refine ⟨h.name, ⟨o, origin?_mono horigin hss, hplace⟩, ?_⟩
  intro hcaptured
  obtain ⟨s, hs, y, hy, hname⟩ := h.captured hcaptured
  cases hss with
  | nil => cases hs
  | @cons s₁ s₂ _ _ hgrows _ =>
      obtain rfl : s₁ = s := by simpa using hs
      exact ⟨s₂, rfl, y, hgrows.getElem?_captures hy, hname⟩

/-- A variable is shared, or belongs to one of the functions of the scopes. -/
theorem Symbol.origin?_cases {x : Symbol} {scopes : List Scope} {o : Origin}
    (h : x.origin? scopes = some o) :
    (∃ y, o = .shared y) ∨
      ∃ depth < scopes.length, o = .self depth ∨ ∃ index, o = .slot depth index := by
  induction scopes generalizing x with
  | nil => cases h
  | cons s outer ih =>
      unfold origin? at h
      cases hstorage : x.storage with
      | global | builtin =>
          simp only [hstorage, Option.some.injEq] at h
          exact .inl ⟨x, h.symm⟩
      | slot =>
          simp only [hstorage, Option.some.injEq] at h
          exact .inr ⟨outer.length, Nat.lt_succ_self _, .inr ⟨x.index, h.symm⟩⟩
      | self =>
          simp only [hstorage, Option.some.injEq] at h
          exact .inr ⟨outer.length, Nat.lt_succ_self _, .inl h.symm⟩
      | captured =>
          simp only [hstorage] at h
          split at h
          · rcases ih h with hshared | ⟨depth, hdepth, ho⟩
            · exact .inl hshared
            · exact .inr ⟨depth, Nat.lt_succ_of_lt hdepth, ho⟩
          · cases h

/-- What a scope has not captured has to be captured elsewhere, unless it is shared. -/
theorem Symbol.Denotes.isFreeAt_iff {s : Scope} {outer : List Scope} {x : Symbol} {v : Variable}
    {depth : Nat} (hx : x.Denotes (s :: outer) v) (hstorage : x.storage ≠ .captured) :
    v.isFreeAt depth = true ↔ x.storage.isShared = false ∧ depth ≠ outer.length := by
  obtain ⟨o, horigin, hplace⟩ := hx.origin
  unfold Symbol.origin? at horigin
  cases hcase : x.storage with
  | captured => exact absurd hcase hstorage
  | global | builtin =>
      simp only [hcase, Option.some.injEq] at horigin
      subst horigin
      simp [Variable.isFreeAt, ← hplace, Origin.place, hcase, Storage.isShared]
  | slot | self =>
      simp only [hcase, Option.some.injEq] at horigin
      subst horigin
      simp only [Variable.isFreeAt, ← hplace, Origin.place, Storage.isShared, bne_iff_ne, true_and]
      exact ne_comm

/-! ## Captured variables -/

/-- Every scope has captured what its region captures, where the innermost region is still to read
the pending variables. -/
inductive Captures : List Scope → List Region → List Variable → Prop
  | nil {pending} : Captures [] [] pending
  | cons {s outer r rs pending} (depth : r.depth = outer.length) (handsOn : s.HandsOn)
      (captured : List.Forall₂ (Symbol.Denotes outer) s.captures
        (capturedAt r.depth (r.reads ++ pending)))
      (tail : Captures outer rs (capturedAt r.depth (r.reads ++ pending))) :
      Captures (s :: outer) (r :: rs) pending

namespace Captures

variable {s s' : Scope} {outer outer' : List Scope} {r r' : Region} {rs : List Region}
  {pending pending' : List Variable} {v : Variable}

/-- Only the captured variables of the innermost region matter. -/
theorem congr (h : Captures (s :: outer) (r :: rs) pending) (hdepth : r'.depth = r.depth)
    (hcaptured : capturedAt r.depth (r'.reads ++ pending') =
      capturedAt r.depth (r.reads ++ pending)) :
    Captures (s :: outer) (r' :: rs) pending' := by
  obtain _ | ⟨depth, handsOn, captured, tail⟩ := h
  rw [← hdepth] at hcaptured depth captured tail
  rw [← hcaptured] at captured tail
  exact .cons depth handsOn captured tail

/-- A pending variable is read. -/
theorem read (h : Captures (s :: outer) (r :: rs) pending) :
    Captures (s :: outer) (r.read pending :: rs) [] := by
  refine h.congr rfl ?_
  rw [Region.read, List.append_nil]

/-- New bindings of what is not captured do not matter. -/
theorem rebind (h : Captures (s :: outer) (r :: rs) pending) (hcaptures : s'.captures = s.captures)
    (hhands : s'.HandsOn) (hdepth : r'.depth = r.depth) (hreads : r'.reads = r.reads) :
    Captures (s' :: outer) (r' :: rs) pending := by
  obtain _ | ⟨depth, -, captured, tail⟩ := h
  rw [← hcaptures] at captured
  rw [← hdepth, ← hreads] at captured tail
  exact .cons (hdepth.trans depth) hhands captured tail

/-- A captured symbol is that of a captured variable. -/
theorem getElem?_capturedAt {x : Symbol} (h : Captures (s :: outer) (r :: rs) pending)
    (hx : x.Denotes (s :: outer) v) (hstorage : x.storage = .captured) :
    (capturedAt r.depth (r.reads ++ pending))[x.index]? = some v := by
  obtain _ | ⟨-, -, captured, -⟩ := h
  obtain ⟨s₁, hs₁, y, hy, hyname⟩ := hx.captured hstorage
  obtain rfl : s = s₁ := by simpa using hs₁
  obtain ⟨o, horigin, hplace⟩ := hx.origin
  simp only [Symbol.origin?, hstorage, hy] at horigin
  obtain ⟨w, hw, hdenotes⟩ := exists_getElem?_of_forall₂ captured hy
  obtain ⟨o', horigin', hplace'⟩ := hdenotes.origin
  obtain rfl : o = o' := by simpa [horigin] using horigin'
  have hname : w.name = v.name := hdenotes.name.symm.trans (hyname.trans hx.name)
  obtain rfl : w = v := Variable.ext hname (hplace'.symm.trans hplace)
  exact hw

/-- A variable that the innermost scope has a symbol for need not be captured again. -/
theorem of_denotes {x : Symbol} (h : Captures (s :: outer) (r :: rs) pending)
    (hx : x.Denotes (s :: outer) v) : Captures (s :: outer) (r :: rs) (pending ++ [v]) := by
  refine h.congr rfl ?_
  rw [← List.append_assoc]
  refine capturedAt_concat_eq fun hfree => ?_
  by_cases hstorage : x.storage = .captured
  · exact List.mem_of_getElem? (h.getElem?_capturedAt hx hstorage)
  · obtain _ | ⟨hdepth, -, -, -⟩ := h
    rw [hx.isFreeAt_iff hstorage, hdepth] at hfree
    exact absurd rfl hfree.2

/-- Further in, a variable that is not shared has to be captured. -/
theorem isFreeAt_inner {x : Symbol} (h : Captures (s :: outer) (r :: rs) pending)
    (hx : x.Denotes (s :: outer) v) (hshared : x.storage.isShared = false) :
    v.isFreeAt (outer.length + 1) = true := by
  by_cases hstorage : x.storage = .captured
  · have hmem := List.mem_of_getElem? (h.getElem?_capturedAt hx hstorage)
    have hfree := (ScriptEngine.mem_capturedAt.mp hmem).2
    obtain ⟨o, horigin, hplace⟩ := hx.origin
    rcases Symbol.origin?_cases horigin with ⟨y, rfl⟩ | ⟨depth, hdepth, rfl | ⟨index, rfl⟩⟩
    · by_cases hy : y.storage = .builtin <;>
        simp [Variable.isFreeAt, ← hplace, Origin.place, hy] at hfree
    · simp only [List.length_cons] at hdepth
      simp only [Variable.isFreeAt, ← hplace, Origin.place, bne_iff_ne]
      omega
    · simp only [List.length_cons] at hdepth
      simp only [Variable.isFreeAt, ← hplace, Origin.place, bne_iff_ne]
      omega
  · rw [hx.isFreeAt_iff hstorage]
    exact ⟨hshared, Nat.succ_ne_self _⟩

end Captures

/-- What need not be captured is handed through. -/
theorem Captures.pass {s : Scope} {outer : List Scope} {r r₁ : Region} {rs : List Region}
    {pending : List Variable} {v : Variable} (hdepth : r.depth = outer.length) (hhands : s.HandsOn)
    (hcaptured : List.Forall₂ (Symbol.Denotes outer) s.captures
      (capturedAt r.depth (r.reads ++ pending)))
    (htail : Captures outer (r₁ :: rs) (capturedAt r.depth (r.reads ++ pending) ++ [v]))
    (hv : ∀ depth, v.isFreeAt depth = false) :
    Captures (s :: outer) (r :: r₁ :: rs) (pending ++ [v]) := by
  have hsame (depth : Nat) (vs ws : List Variable) :
      capturedAt depth (vs ++ (ws ++ [v])) = capturedAt depth (vs ++ ws) := by
    rw [← List.append_assoc]
    exact capturedAt_concat_eq fun hfree => by rw [hv] at hfree; cases hfree
  obtain _ | ⟨hdepth₁, hhands₁, hcaptured₁, htail₁⟩ := htail
  rw [hsame] at hcaptured₁ htail₁
  refine .cons hdepth hhands ?_ ?_
  · rw [hsame]
    exact hcaptured
  · rw [hsame]
    exact .cons hdepth₁ hhands₁ hcaptured₁ htail₁

theorem Scope.HandsOn.capture {s : Scope} (h : s.HandsOn) (x : Symbol) :
    (s.capture x).2.HandsOn := by
  intro name y hy hstorage
  rw [get?_capture] at hy
  by_cases hname : x.name = name
  · rw [if_pos hname] at hy
    obtain rfl := Option.some.inj hy
    refine ⟨x, ?_, hname⟩
    simp [Scope.capture]
  · rw [if_neg hname] at hy
    obtain ⟨z, hz, hzname⟩ := h name y hy hstorage
    exact ⟨z, (Scope.Grows.capture s x).getElem?_captures hz, hzname⟩

/-- What has to be captured, and is not captured yet, is captured. -/
theorem Captures.take {s : Scope} {outer : List Scope} {r : Region} {rs : List Region}
    {pending : List Variable} {v : Variable} {x : Symbol} (hdepth : r.depth = outer.length)
    (hhands : s.HandsOn)
    (hcaptured : List.Forall₂ (Symbol.Denotes outer) s.captures
      (capturedAt r.depth (r.reads ++ pending)))
    (htail : Captures outer rs (capturedAt r.depth (r.reads ++ pending) ++ [v]))
    (hx : x.Denotes outer v) (hfree : v.isFreeAt r.depth = true)
    (hnew : ∀ y ∈ s.captures, y.name ≠ v.name) :
    Captures ((s.capture x).2 :: outer) (r :: rs) (pending ++ [v]) := by
  have hnot : v ∉ capturedAt r.depth (r.reads ++ pending) := by
    intro hv
    obtain ⟨k, hk⟩ := List.mem_iff_getElem?.mp hv
    obtain ⟨y, hy, hdenotes⟩ := exists_getElem?_of_forall₂ hcaptured.flip hk
    exact hnew y (List.mem_of_getElem? hy) hdenotes.name
  have hall : capturedAt r.depth (r.reads ++ (pending ++ [v])) =
      capturedAt r.depth (r.reads ++ pending) ++ [v] := by
    rw [← List.append_assoc]
    exact capturedAt_concat_of_new hfree hnot
  refine .cons hdepth (hhands.capture x) ?_ ?_
  · rw [hall]
    exact List.rel_append hcaptured (.cons hx .nil)
  · rw [hall]
    exact htail

/-- A name that a scope has a symbol for stands for its innermost declaration. -/
theorem Scope.Tracks.denotes {s : Scope} {outer : List Scope} {d : Declarations}
    {ds : List Declarations} {name : String} {x : Symbol} {o : Origin} (h : s.Tracks outer d ds)
    (hhands : s.HandsOn) (hx : s.get? name = some x) (ho : declaration? (d :: ds) name = some o) :
    x.Denotes (s :: outer) ⟨name, o.place⟩ := by
  obtain ⟨hname, o', horigin, hdeclaration⟩ := h.bound name x hx
  obtain rfl : o' = o := Option.some.inj (hdeclaration.symm.trans ho)
  refine ⟨hname, ⟨o', horigin, rfl⟩, ?_⟩
  intro hstorage
  obtain ⟨y, hy, hyname⟩ := hhands name x hx hstorage
  exact ⟨s, rfl, y, hy, hyname.trans hname.symm⟩

/-- Resolving a name captures it in every scope whose region has to capture it. -/
theorem Captures.resolveFrom? {s s' : Scope} {outer outer' : List Scope} {ds : List Declarations}
    {r : Region} {rs : List Region} {pending : List Variable} {name : String} {o : Origin}
    {found : Resolution} (h : Captures (s :: outer) (r :: rs) pending)
    (hlexical : Lexical (s :: outer) ds) (ho : declaration? ds name = some o)
    (hsome : ScopeChain.resolveFrom? name s outer = some (found, s', outer')) :
    Captures (s' :: outer') (r :: rs) (pending ++ [⟨name, o.place⟩]) ∧
      found.symbol.Denotes (s' :: outer') ⟨name, o.place⟩ := by
  induction outer generalizing s s' outer' ds r rs pending found with
  | nil =>
      simp only [ScopeChain.resolveFrom?, Option.map_eq_some_iff, Prod.mk.injEq] at hsome
      obtain ⟨x, hx, rfl, rfl, rfl⟩ := hsome
      obtain _ | ⟨head, -⟩ := hlexical
      have hhands : s.HandsOn := by
        obtain _ | ⟨-, hhands, -, -⟩ := h
        exact hhands
      have hdenotes := head.denotes hhands hx ho
      exact ⟨h.of_denotes hdenotes, hdenotes⟩
  | cons s₁ outer ih =>
      obtain _ | ⟨head, tail⟩ := hlexical
      have hhands : s.HandsOn := by
        obtain _ | ⟨-, hhands, -, -⟩ := h
        exact hhands
      rw [ScopeChain.resolveFrom?] at hsome
      split at hsome
      · rename_i x hx
        simp only [Option.some.injEq, Prod.mk.injEq] at hsome
        obtain ⟨rfl, rfl, rfl⟩ := hsome
        have hdenotes := head.denotes hhands hx ho
        exact ⟨h.of_denotes hdenotes, hdenotes⟩
      · rename_i hget
        split at hsome
        · cases hsome
        · rename_i found s₂ outer₂ hfound
          rw [head.declaration?_eq hget] at ho
          obtain _ | ⟨hdepth, -, captured, htail⟩ := h
          have hgrows := ScopeChain.grows_resolveFrom? hfound
          have hscopes : List.Forall₂ Scope.Grows (s₁ :: outer) (s₂ :: outer₂) :=
            .cons hgrows.1 hgrows.2
          have hlength : (s₁ :: outer).length = (s₂ :: outer₂).length := hscopes.length_eq
          obtain _ | ⟨hdepth₁, hhands₁, captured₁, htail₁⟩ := htail
          obtain ⟨hcaptures, hdenotes⟩ := ih (.cons hdepth₁ hhands₁ captured₁ htail₁) tail ho hfound
          have hold : List.Forall₂ (Symbol.Denotes (s₂ :: outer₂)) s.captures _ :=
            captured.imp fun _ _ hy => hy.mono hscopes
          split at hsome
          · rename_i hshared
            simp only [Option.some.injEq, Prod.mk.injEq] at hsome
            obtain ⟨rfl, rfl, rfl⟩ := hsome
            have hstorage : found.symbol.storage ≠ .captured := by
              intro hcaptured
              simp [hcaptured, Storage.isShared] at hshared
            constructor
            · refine .pass (hdepth.trans hlength) hhands hold hcaptures fun depth => ?_
              rw [Bool.eq_false_iff, Ne, hdenotes.isFreeAt_iff hstorage, hshared]
              simp
            · obtain ⟨o', horigin, hplace⟩ := hdenotes.origin
              rw [Symbol.origin?_of_isShared hshared] at horigin
              refine ⟨hdenotes.name, ⟨o', ?_, hplace⟩, fun hcaptured => absurd hcaptured hstorage⟩
              rw [Symbol.origin?_of_isShared hshared, horigin]
          · rename_i hshared
            simp only [Option.some.injEq, Prod.mk.injEq] at hsome
            obtain ⟨rfl, rfl, rfl⟩ := hsome
            have hfree := hcaptures.isFreeAt_inner hdenotes (by simpa using hshared)
            constructor
            · refine .take (hdepth.trans hlength) hhands hold hcaptures hdenotes ?_ ?_
              · rw [hdepth, hlength]
                exact hfree
              · intro x hx hname
                have hbound := head.captured x hx
                rw [hname, hget] at hbound
                cases hbound
            · obtain ⟨o', horigin, hplace⟩ := hdenotes.origin
              refine ⟨hdenotes.name, ⟨o', ?_, hplace⟩, fun _ => ?_⟩
              · simpa [Symbol.origin?, Scope.capture] using horigin
              · exact ⟨_, rfl, found.symbol, by simp [Scope.capture], rfl⟩

/-! ## Chains and surveys -/

/-- The names of a region are those that are declared in it. -/
structure Region.Matches (d : Declarations) (r : Region) : Prop where
  names : ∀ name, r.names name = (d.names.lookup name).map Origin.place
  slots : r.slots = d.slots

theorem Region.Matches.bind {d : Declarations} {r : Region} (h : Region.Matches d r)
    (name : String) (o : Origin) : Region.Matches (d.declare name o) (r.bind name o.place) := by
  refine ⟨fun other => ?_, h.slots⟩
  rw [Declarations.declare, lookup_cons, Region.names_bind]
  by_cases hname : name = other
  · rw [if_pos hname, if_pos hname]
    rfl
  · rw [if_neg hname, if_neg hname]
    exact h.names other

theorem Region.Matches.declare {d : Declarations} {r : Region} (h : Region.Matches d r)
    (name : String) {o : Origin} (ho : r.nextPlace = o.place) :
    Region.Matches { d.declare name o with slots := d.slots + 1 } (r.declare name) := by
  have hbind := h.bind name o
  rw [← ho] at hbind
  exact ⟨hbind.names, congrArg Nat.succ h.slots⟩

/-- The chain of scopes agrees with the survey. -/
structure ScopeChain.Agrees (c : ScopeChain) (σ : Survey) (ds : List Declarations) : Prop where
  lexical : Lexical c.scopes ds
  regions : List.Forall₂ Region.Matches ds (σ.current :: σ.enclosing)
  captures : Captures c.scopes (σ.current :: σ.enclosing) []

/-- The regions of a survey declare the same names as the scopes. -/
theorem place?_eq {σ : Survey} {ds : List Declarations}
    (h : List.Forall₂ Region.Matches ds (σ.current :: σ.enclosing)) (name : String) :
    σ.place? name = (declaration? ds name).map Origin.place := by
  unfold Survey.place?
  generalize σ.current :: σ.enclosing = regions at h
  induction h with
  | nil => rfl
  | cons hd _ ih =>
      rw [declaration?_cons, List.findSome?_cons, hd.names]
      cases hlookup : List.lookup name _ with
      | none => exact ih
      | some o => rfl

namespace ScopeChain.Agrees

variable {c c' : ScopeChain} {σ : Survey} {ds : List Declarations}

/-- A name is used. -/
theorem resolve? {name : String} {r : Resolution} (h : c.Agrees σ ds)
    (hresolve : c.resolve? name = some (r, c')) :
    ∃ v, ((σ.place? name).map (Variable.mk name)).toList = [v] ∧
      c'.Agrees (σ.modify (Region.read · [v])) ds ∧ r.symbol.Denotes c'.scopes v := by
  have hfrom := ScopeChain.resolve?_eq_some hresolve
  obtain ⟨hlexical, -, o, -, ho⟩ := h.lexical.resolveFrom?_eq_some hfrom
  obtain ⟨hcaptures, hdenotes⟩ := h.captures.resolveFrom? h.lexical ho hfrom
  refine ⟨⟨name, o.place⟩, ?_, ⟨hlexical, ?_, hcaptures.read⟩, hdenotes⟩
  · rw [place?_eq h.regions, ho]
    rfl
  · obtain _ | ⟨head, tail⟩ := h.regions
    exact .cons ⟨head.names, head.slots⟩ tail

/-- A name is declared. -/
theorem define (h : c.Agrees σ ds) (name : String) (isMutable : Bool) (ty : Option Ty) :
    (c.define name isMutable ty).2.Agrees (σ.modify (Region.declare · name))
      ((ScopeOp.define name isMutable ty).record ds) := by
  obtain ⟨s, outer⟩ := c
  refine ⟨ScopeOp.lexical_define h.lexical name isMutable ty, ?_, ?_⟩
  · obtain ⟨d, ds', hd, hds, rfl⟩ := List.forall₂_cons_right_iff.mp h.regions
    have hdepth : σ.current.depth = ds'.length := by
      obtain _ | ⟨hdepth, -, -, -⟩ := h.captures
      obtain _ | ⟨-, htail⟩ := h.lexical
      rw [hdepth, htail.length_eq]
    cases ds' with
    | nil =>
        refine .cons (hd.declare name (o := .shared ⟨name, .global, d.slots, isMutable, ty⟩) ?_) hds
        rw [List.length_nil] at hdepth
        rw [Region.nextPlace, if_pos hdepth, hd.slots]
        rfl
    | cons d' ds' =>
        refine .cons (hd.declare name (o := .slot (d' :: ds').length d.slots) ?_) hds
        rw [Region.nextPlace, if_neg (by rw [hdepth]; exact Nat.succ_ne_zero _), hdepth, hd.slots]
        rfl
  · refine h.captures.rebind rfl ?_ rfl rfl
    intro other x hx hstorage
    rw [ScopeChain.define, Scope.get?_define] at hx
    by_cases hname : name = other
    · rw [if_pos hname] at hx
      obtain rfl := Option.some.inj hx
      have hdeclared : (s.nextSymbol name isMutable ty).storage ≠ .captured := by
        cases hglobal : s.isGlobal <;> simp [Scope.nextSymbol, hglobal]
      exact absurd hstorage hdeclared
    · rw [if_neg hname] at hx
      obtain _ | ⟨-, hhands, -, -⟩ := h.captures
      exact hhands other x hx hstorage

/-- Struct values do not matter. -/
theorem build (h : c.Agrees σ ds) (b : Build) : c.Agrees (σ.modify (Region.build · b)) ds := by
  refine ⟨h.lexical, ?_, ?_⟩
  · obtain ⟨d, ds', hd, hds, rfl⟩ := List.forall₂_cons_right_iff.mp h.regions
    exact .cons ⟨hd.names, hd.slots⟩ hds
  · have hcaptures := h.captures
    obtain _ | ⟨hdepth, hhands, captured, tail⟩ := hcaptures
    exact .cons hdepth hhands captured tail

theorem push (h : c.Agrees σ ds) :
    c.push.Agrees { σ with
      current := .function (σ.current.depth + 1) none, enclosing := σ.current :: σ.enclosing }
      (.empty :: ds) := by
  refine ⟨ScopeOp.lexical_apply h.lexical .push, .cons ⟨fun _ => rfl, rfl⟩ h.regions, ?_⟩
  refine .cons ?_ ?_ .nil h.captures
  · obtain _ | ⟨hdepth, -, -, -⟩ := h.captures
    exact congrArg Nat.succ hdepth
  · intro name x hx
    have hempty : (Scope.empty false).get? name = some x := hx
    rw [Scope.get?_empty] at hempty
    cases hempty

/-- A function is bound to its own name. -/
theorem defineSelf {r : Region} {rs : List Region} {regions : List Region}
    (h : c.Agrees ⟨r, rs, regions⟩ ds) (name : String) (ty : Option Ty) :
    (c.defineSelf name ty).2.Agrees ⟨r.bind name (.self r.depth), rs, regions⟩
      ((ScopeOp.defineSelf name ty).record ds) := by
  obtain ⟨s, outer⟩ := c
  refine ⟨ScopeOp.lexical_apply h.lexical (.defineSelf name ty), ?_, ?_⟩
  · obtain ⟨d, ds', hd, hds, rfl⟩ := List.forall₂_cons_right_iff.mp h.regions
    have hdepth : r.depth = ds'.length := by
      obtain _ | ⟨hdepth, -, -, -⟩ := h.captures
      obtain _ | ⟨-, htail⟩ := h.lexical
      rw [hdepth, htail.length_eq]
    rw [hdepth]
    exact .cons (hd.bind name (.self ds'.length)) hds
  · refine h.captures.rebind rfl ?_ rfl rfl
    intro other x hx hstorage
    rw [ScopeChain.defineSelf, Scope.get?_defineSelf] at hx
    by_cases hname : name = other
    · rw [if_pos hname] at hx
      obtain rfl := Option.some.inj hx
      cases hstorage
    · rw [if_neg hname] at hx
      obtain _ | ⟨-, hhands, -, -⟩ := h.captures
      exact hhands other x hx hstorage

/-- A function ends: its scope has captured what its region captures. -/
theorem leave {scope : Scope} (h : c.Agrees σ ds) (hpop : c.pop? = some (scope, c')) :
    ∃ outer rest ds', σ.enclosing = outer :: rest ∧ outer.depth + 1 = σ.current.depth ∧
      c'.Agrees σ.leave ds' ∧
      List.Forall₂ (Symbol.Denotes c'.scopes) scope.captures σ.current.captured := by
  obtain ⟨s, scopes⟩ := c
  obtain ⟨current, enclosing, functions⟩ := σ
  have hlexical := h.lexical
  have hcaptures := h.captures
  obtain ⟨d, ds', -, hds, rfl⟩ := List.forall₂_cons_right_iff.mp h.regions
  cases scopes with
  | nil => cases hpop
  | cons s₁ scopes =>
      obtain ⟨rfl, rfl⟩ := Prod.mk.inj (Option.some.inj hpop)
      obtain _ | ⟨-, hlexical⟩ := hlexical
      obtain _ | ⟨hdepth, -, captured, htail⟩ := hcaptures
      cases enclosing with
      | nil => cases htail
      | cons outer rest =>
          rw [List.append_nil] at captured htail
          refine ⟨outer, rest, ds', rfl, ?_, ⟨hlexical, ?_, htail.read⟩, captured⟩
          · obtain _ | ⟨hdepth₁, -, -, -⟩ := htail
            rw [hdepth₁, hdepth]
            rfl
          · obtain ⟨d₁, ds₁, hd₁, hds₁, rfl⟩ := List.forall₂_cons_right_iff.mp hds
            exact .cons ⟨hd₁.names, hd₁.slots⟩ hds₁

end ScopeChain.Agrees

/-- Before the first event. -/
theorem ScopeChain.agrees_start :
    (ScopeChain.ofScope .withBuiltins).Agrees .start [.builtins] := by
  obtain ⟨-, hcaptures, hcovered⟩ : Scope.SoundIn .withBuiltins [] := ScopeChain.Sound.withBuiltins
  refine ⟨lexical_builtins, .cons ⟨fun _ => rfl, rfl⟩ .nil, .cons rfl ?_ ?_ .nil⟩
  · intro name x hx hstorage
    have hcovers := hcovered name x hx
    simp [Scope.Covers, hstorage, hcaptures] at hcovers
  · change List.Forall₂ _ Scope.withBuiltins.captures []
    rw [hcaptures]
    exact .nil

end ScriptEngine
