import GolangBasics.Httpx.Redact

/-! Which configurations keep their secrets: two values that differ in secrets only are shown
alike. -/
namespace GolangBasics.Httpx.Redact
open Assign

/-- What a place in a configuration counts as: `secret` below a field tagged as a secret, a
field or a key with a secret's name, and `exempt` below a field tagged as none. -/
inductive Mark where
  | plain | secret | exempt
  deriving DecidableEq

def Mark.field (m : Mark) (f : Field) : Mark :=
  if m = .exempt ∨ f.secret = "false" then .exempt
  else if f.secret = "true" ∨ secretFieldName f.name then .secret
  else m

def Mark.entry (m : Mark) (k : Key) : Mark :=
  if m = .exempt then .exempt
  else if secretFieldName k.keyString then .secret
  else m

/-- The values a leaf may have in two configurations that differ in secrets only. -/
def Varies {α : Type} (m : Mark) (zero : α → Bool) (a b : α) : Prop :=
  a = b ∨ m = .secret ∧ !zero a ∧ !zero b

def Scalar.SameKind : Scalar → Scalar → Prop
  | .bool _, .bool _ | .int _, .int _ | .uint _, .uint _ | .float _, .float _
  | .complex .., .complex .. | .ref _, .ref _ => True
  | _, _ => False

mutual

/-- Values of the same shape that differ in non-zero secret leaves only. A `[]byte` is a
leaf, and its zero is the empty one. -/
def Value.Similar (m : Mark) : Value → Value → Prop
  | .null, .null => True
  | .ref v, .ref w => v.Similar m w
  | .time t, .time u => Varies m (· = 0) t u
  | .struct fs, .struct gs => fs.Similar m gs
  | .bytes type fixed d, .bytes type' fixed' e =>
    type = type' ∧ fixed = fixed' ∧ (fixed → d.length = e.length) ∧ Varies m List.isEmpty d e
  | .list vs, .list ws => vs.Similar m ws
  | .map es, .map es' => es.Similar m es'
  | .string s, .string t => Varies m (· = []) s t
  | .duration n, .duration k => Varies m (· = 0) n k
  | .scalar type x, .scalar type' y =>
    type = type' ∧ x.SameKind y ∧ Varies m Scalar.isZero x y
  | _, _ => False
termination_by structural v _ => v

def Fields.Similar (m : Mark) : Fields → Fields → Prop
  | .nil, .nil => True
  | .cons f v fs, .cons g w gs => f = g ∧ v.Similar (m.field f) w ∧ fs.Similar m gs
  | _, _ => False
termination_by structural v _ => v

def Values.Similar (m : Mark) : Values → Values → Prop
  | .nil, .nil => True
  | .cons v vs, .cons w ws => v.Similar m w ∧ vs.Similar m ws
  | _, _ => False
termination_by structural v _ => v

def Entries.Similar (m : Mark) : Entries → Entries → Prop
  | .nil, .nil => True
  | .cons k v es, .cons k' w es' => k = k' ∧ v.Similar (m.entry k) w ∧ es.Similar m es'
  | _, _ => False
termination_by structural v _ => v

end

mutual

def Fields.names : Fields → List String
  | .nil => []
  | .cons f v rest =>
    (if f.skipped then []
    else if f.inlined v then v.inlinedNames
    else [f.fieldName]) ++ rest.names

def Value.inlinedNames : Value → List String
  | .struct fs => fs.names.dedup
  | _ => []

end

def Entries.names : Entries → List String
  | .nil => []
  | .cons k _ rest => k.keyString :: rest.names

mutual

/-- No secret leaf is shown. `secret` is the flag the code carries along; it can be off at a
secret place, below an inlined struct whose own tag or name makes it secret. Of a name that
several fields are shown under, only the last counts. -/
def Value.Hides (m : Mark) (secret : Bool) : Value → Prop
  | .null => True
  | .ref v => v.Hides m secret
  | .time t => m = .secret → t = 0
  | .struct fs => ∀ name, fs.HidesAt name m secret
  | .bytes _ _ data => m = .secret → secret ∨ data = []
  | .list vs => vs.Hides m secret
  | .map es => ∀ name, es.HidesAt name m secret
  | .string s => m = .secret → secret ∨ s = []
  | .duration n => m = .secret → n = 0
  | .scalar _ x => m = .secret → secret ∨ x.isZero ∨ x = .bool true

def Fields.HidesAt (name : String) (m : Mark) (inherited : Bool) : Fields → Prop
  | .nil => True
  | .cons f v rest =>
    if name ∈ rest.names then rest.HidesAt name m inherited
    else if f.skipped then True
    else if f.inlined v then v.InlinedHidesAt name (m.field f) inherited
    else f.fieldName = name → v.Hides (m.field f) (f.isSecret inherited)

def Value.InlinedHidesAt (name : String) (m : Mark) (inherited : Bool) : Value → Prop
  | .struct fs => fs.HidesAt name m inherited
  | _ => True

def Values.Hides (m : Mark) (secret : Bool) : Values → Prop
  | .nil => True
  | .cons v rest => v.Hides m secret ∧ rest.Hides m secret

def Entries.HidesAt (name : String) (m : Mark) (secret : Bool) : Entries → Prop
  | .nil => True
  | .cons k v rest =>
    if name ∈ rest.names then rest.HidesAt name m secret
    else k.keyString = name → v.Hides (m.entry k) (secret || secretFieldName k.keyString)

end

variable {fs : Fields} {type : String}

section similar
variable {m : Mark} {w : Value}

attribute [local simp] Value.Similar Fields.Similar Values.Similar Entries.Similar

theorem similar_ref_iff {v : Value} :
    (Value.ref v).Similar m w ↔ ∃ v', w = .ref v' ∧ v.Similar m v' := by
  cases w <;> simp

theorem similar_time_iff {t : Int} :
    (Value.time t).Similar m w ↔ ∃ u, w = .time u ∧ Varies m (· = 0) t u := by
  cases w <;> simp

theorem similar_struct_iff :
    (Value.struct fs).Similar m w ↔ ∃ gs, w = .struct gs ∧ fs.Similar m gs := by
  cases w <;> simp

theorem similar_bytes_iff {fixed : Bool} {d : List UInt8} :
    (Value.bytes type fixed d).Similar m w ↔ ∃ e, w = .bytes type fixed e ∧
      (fixed → d.length = e.length) ∧ Varies m List.isEmpty d e := by
  cases w <;> simp
  grind

theorem similar_list_iff {vs : Values} :
    (Value.list vs).Similar m w ↔ ∃ ws, w = .list ws ∧ vs.Similar m ws := by
  cases w <;> simp

theorem similar_map_iff {es : Entries} :
    (Value.map es).Similar m w ↔ ∃ es', w = .map es' ∧ es.Similar m es' := by
  cases w <;> simp

theorem similar_string_iff {s : Bytes} :
    (Value.string s).Similar m w ↔ ∃ t, w = .string t ∧ Varies m (· = []) s t := by
  cases w <;> simp

theorem similar_duration_iff {n : Int} :
    (Value.duration n).Similar m w ↔ ∃ k, w = .duration k ∧ Varies m (· = 0) n k := by
  cases w <;> simp

theorem similar_scalar_iff {x : Scalar} : (Value.scalar type x).Similar m w ↔
      ∃ y, w = .scalar type y ∧ x.SameKind y ∧ Varies m Scalar.isZero x y := by
  cases w <;> simp
  grind

theorem similar_fields_iff {f : Field} {v : Value} {gs : Fields} :
    (Fields.cons f v fs).Similar m gs ↔
      ∃ v' fs', gs = .cons f v' fs' ∧ v.Similar (m.field f) v' ∧ fs.Similar m fs' := by
  cases gs <;> simp
  grind

theorem similar_values_iff {v : Value} {vs ws : Values} :
    (Values.cons v vs).Similar m ws ↔
      ∃ v' vs', ws = .cons v' vs' ∧ v.Similar m v' ∧ vs.Similar m vs' := by
  cases ws <;> simp

theorem similar_entries_iff {k : Key} {v : Value} {es es' : Entries} :
    (Entries.cons k v es).Similar m es' ↔
      ∃ v' rest, es' = .cons k v' rest ∧ v.Similar (m.entry k) v' ∧ es.Similar m rest := by
  cases es' <;> simp
  grind

theorem Scalar.sameKind_refl (x : Scalar) : x.SameKind x := by
  cases x <;> trivial

end similar

mutual

theorem Value.similar_refl (m : Mark) : ∀ v : Value, v.Similar m v
  | .null => trivial
  | .ref v => v.similar_refl m
  | .time _ | .string _ | .duration _ => .inl rfl
  | .struct fs => fs.similar_refl m
  | .bytes .. => ⟨rfl, rfl, fun _ => rfl, .inl rfl⟩
  | .list vs => vs.similar_refl m
  | .map es => es.similar_refl m
  | .scalar _ x => ⟨rfl, x.sameKind_refl, .inl rfl⟩

theorem Fields.similar_refl (m : Mark) : ∀ fs : Fields, fs.Similar m fs
  | .nil => trivial
  | .cons _ v rest => ⟨rfl, v.similar_refl _, rest.similar_refl m⟩

theorem Values.similar_refl (m : Mark) : ∀ vs : Values, vs.Similar m vs
  | .nil => trivial
  | .cons v rest => ⟨v.similar_refl m, rest.similar_refl m⟩

theorem Entries.similar_refl (m : Mark) : ∀ es : Entries, es.Similar m es
  | .nil => trivial
  | .cons _ v rest => ⟨rfl, v.similar_refl _, rest.similar_refl m⟩

end

section names

mutual

theorem keys_redactStruct (inherited : Bool) :
    ∀ fs : Fields, (redactStruct inherited fs).map Prod.fst = fs.names
  | .nil => rfl
  | .cons f v rest => by
    rw [redactStruct, Fields.names, List.map_append, keys_redactStruct inherited rest]
    split_ifs
    · rfl
    · rw [keys_redactInlined inherited v]
    · rfl

theorem keys_redactInlined (inherited : Bool) :
    ∀ v : Value, (redactInlined inherited v).map Prod.fst = v.inlinedNames
  | .struct fs => by
    rw [redactInlined, Value.inlinedNames, keys_toMap, keys_redactStruct inherited fs]
  | .null | .ref _ | .time _ | .bytes .. | .list _ | .map _ | .string _ | .duration _
  | .scalar .. => rfl

end

theorem keys_redactEntries (secret : Bool) (es : Entries) :
    (redactEntries secret es).map Prod.fst = es.names :=
  match es with
  | .nil => rfl
  | .cons _ _ rest => congrArg _ (keys_redactEntries secret rest)

theorem isStruct_eq {m : Mark} {v w : Value} (h : v.Similar m w) : v.isStruct = w.isStruct := by
  cases v <;> cases w <;> first | rfl | exact h.elim

mutual

theorem Fields.names_eq {m : Mark} : ∀ (fs : Fields) {gs : Fields},
    fs.Similar m gs → fs.names = gs.names
  | .nil, .nil, _ => rfl
  | .cons f v rest, .cons _ w gs, ⟨hf, hv, hrest⟩ => by
    subst hf
    rw [Fields.names, Fields.names, rest.names_eq hrest, v.inlinedNames_eq hv, Field.inlined,
      isStruct_eq hv]
    rfl

theorem Value.inlinedNames_eq {m : Mark} : ∀ (v : Value) {w : Value},
    v.Similar m w → v.inlinedNames = w.inlinedNames
  | .struct fs, .struct gs, h => congrArg List.dedup (fs.names_eq h)
  | .null, w, h | .ref _, w, h | .time _, w, h | .bytes .., w, h | .list _, w, h
  | .map _, w, h | .string _, w, h | .duration _, w, h | .scalar .., w, h => by
    cases w <;> first | rfl | exact h.elim

end

theorem Entries.names_eq {m : Mark} : ∀ (es : Entries) {es' : Entries},
    es.Similar m es' → es.names = es'.names
  | .nil, .nil, _ => rfl
  | .cons _ _ rest, .cons _ _ _, ⟨hk, _, hrest⟩ => by
    rw [Entries.names, Entries.names, hk, rest.names_eq hrest]

end names

section steady

/-- A value is shown like every value that differs from it in secrets only. -/
def Value.Steady (m : Mark) (secret : Bool) (v : Value) : Prop :=
  ∀ w, v.Similar m w → redactValue secret v = redactValue secret w

def Fields.SteadyAt (name : String) (m : Mark) (inherited : Bool) (fs : Fields) : Prop :=
  ∀ gs, fs.Similar m gs →
    finalAt name (redactStruct inherited fs) = finalAt name (redactStruct inherited gs)

def Value.InlinedSteadyAt (name : String) (m : Mark) (inherited : Bool) (v : Value) : Prop :=
  ∀ w, v.Similar m w →
    finalAt name (redactInlined inherited v) = finalAt name (redactInlined inherited w)

def Values.Steady (m : Mark) (secret : Bool) (vs : Values) : Prop :=
  ∀ ws, vs.Similar m ws → redactElems secret vs = redactElems secret ws

def Entries.SteadyAt (name : String) (m : Mark) (secret : Bool) (es : Entries) : Prop :=
  ∀ es', es.Similar m es' →
    finalAt name (redactEntries secret es) = finalAt name (redactEntries secret es')

variable {m : Mark} {secret : Bool} {name : String}

theorem steady_iff_forall {α : Type} {mk : α → Value} {P : α → Prop} {a : α}
    (hsimilar : ∀ w, (mk a).Similar m w ↔ ∃ b, w = mk b ∧ P b) :
    (mk a).Steady m secret ↔
      ∀ b, P b → redactValue secret (mk a) = redactValue secret (mk b) := by
  constructor
  · intro h b hb
    exact h (mk b) ((hsimilar _).mpr ⟨b, rfl, hb⟩)
  · intro h w hw
    obtain ⟨b, rfl, hb⟩ := (hsimilar w).mp hw
    exact h b hb

theorem steady_ref_iff {v : Value} :
    (Value.ref v).Steady m secret ↔ v.Steady m secret :=
  steady_iff_forall fun _ => similar_ref_iff

theorem steady_list_iff {vs : Values} :
    (Value.list vs).Steady m secret ↔ vs.Steady m secret := by
  rw [steady_iff_forall fun _ => similar_list_iff]
  simp only [redactValue, Out.list.injEq]
  rfl

/-- What is shown as an object, with the same names in all similar values, is steady if it is
steady at every name. -/
theorem steady_object_iff {α : Type} {mk : α → Value} {P : α → Prop} {a : α}
    {shown : α → List (String × Out)}
    (hsimilar : ∀ w, (mk a).Similar m w ↔ ∃ b, w = mk b ∧ P b)
    (hobject : ∀ b, redactValue secret (mk b) = .object (toMap (shown b)))
    (hkeys : ∀ b, P b → (shown a).map Prod.fst = (shown b).map Prod.fst) :
    (mk a).Steady m secret ↔
      ∀ name b, P b → finalAt name (shown a) = finalAt name (shown b) := by
  have hsame : ∀ b, P b → (redactValue secret (mk a) = redactValue secret (mk b) ↔
      ∀ name, finalAt name (shown a) = finalAt name (shown b)) := by
    intro b hb
    rw [hobject a, hobject b, Out.object.injEq, toMap_eq_iff (hkeys b hb)]
  rw [steady_iff_forall hsimilar]
  constructor
  · intro h name b hb
    exact (hsame b hb).mp (h b hb) name
  · intro h b hb
    exact (hsame b hb).mpr fun name => h name b hb

theorem steady_struct_iff :
    (Value.struct fs).Steady m secret ↔ ∀ name, fs.SteadyAt name m secret := by
  apply steady_object_iff (fun _ => similar_struct_iff) (fun _ => rfl)
  intro gs hgs
  rw [keys_redactStruct, keys_redactStruct, fs.names_eq hgs]

theorem steady_map_iff {es : Entries} :
    (Value.map es).Steady m secret ↔ ∀ name, es.SteadyAt name m secret := by
  apply steady_object_iff (fun _ => similar_map_iff) (fun _ => rfl)
  intro es' hes
  rw [keys_redactEntries, keys_redactEntries, es.names_eq hes]

theorem steady_values_cons_iff {v : Value} {rest : Values} :
    (Values.cons v rest).Steady m secret ↔
      v.Steady m secret ∧ rest.Steady m secret := by
  constructor
  · intro h
    constructor
    · intro w hw
      have := h (.cons w rest) ⟨hw, rest.similar_refl m⟩
      exact (List.cons.inj this).1
    · intro ws hws
      have := h (.cons v ws) ⟨v.similar_refl m, hws⟩
      exact (List.cons.inj this).2
  · intro h ws hws
    obtain ⟨v', vs', rfl, hv, hvs⟩ := similar_values_iff.mp hws
    rw [redactElems, redactElems, h.1 v' hv, h.2 vs' hvs]

section fields
variable {inherited : Bool} {f : Field} {v : Value} {rest : Fields}

theorem finalAt_struct_of_mem (hmem : name ∈ rest.names) :
    finalAt name (redactStruct inherited (.cons f v rest)) =
      finalAt name (redactStruct inherited rest) := by
  rw [redactStruct, finalAt_append_of_mem]
  rwa [keys_redactStruct]

theorem finalAt_struct_of_not_mem (hmem : name ∉ rest.names) :
    finalAt name (redactStruct inherited (.cons f v rest)) =
      if f.skipped then none
      else if f.inlined v then finalAt name (redactInlined inherited v)
      else if f.fieldName = name then some (redactValue (f.isSecret inherited) v)
      else none := by
  rw [redactStruct, finalAt_append_of_not_mem _ (by rwa [keys_redactStruct])]
  split_ifs <;> simp_all [finalAt]

theorem steadyAt_later_iff (hmem : name ∈ rest.names) :
    (Fields.cons f v rest).SteadyAt name m inherited ↔
      rest.SteadyAt name m inherited := by
  constructor
  · intro h gs hgs
    have := h (.cons f v gs) ⟨rfl, v.similar_refl _, hgs⟩
    have hmem' : name ∈ gs.names := rest.names_eq hgs ▸ hmem
    rwa [finalAt_struct_of_mem hmem, finalAt_struct_of_mem hmem'] at this
  · intro h gs hgs
    obtain ⟨v', fs', rfl, hv, hfs⟩ := similar_fields_iff.mp hgs
    have hmem' : name ∈ fs'.names := rest.names_eq hfs ▸ hmem
    rw [finalAt_struct_of_mem hmem, finalAt_struct_of_mem hmem']
    exact h fs' hfs

/-- The last field shown under a name: what matters of the struct is what it shows there. -/
theorem steadyAt_last_iff (hmem : name ∉ rest.names) :
    (Fields.cons f v rest).SteadyAt name m inherited ↔
      if f.skipped then True
      else if f.inlined v then v.InlinedSteadyAt name (m.field f) inherited
      else f.fieldName = name → v.Steady (m.field f) (f.isSecret inherited) := by
  have hone : (Fields.cons f v rest).SteadyAt name m inherited ↔
      ∀ w, v.Similar (m.field f) w →
        finalAt name (redactStruct inherited (.cons f v rest)) =
          finalAt name (redactStruct inherited (.cons f w rest)) := by
    constructor
    · intro h w hw
      exact h (.cons f w rest) ⟨rfl, hw, rest.similar_refl m⟩
    · intro h gs hgs
      obtain ⟨w, fs', rfl, hw, hfs⟩ := similar_fields_iff.mp hgs
      have hmem' : name ∉ fs'.names := rest.names_eq hfs ▸ hmem
      rw [h w hw, finalAt_struct_of_not_mem hmem, finalAt_struct_of_not_mem hmem']
  rw [hone]
  simp only [finalAt_struct_of_not_mem hmem]
  have hinlined : ∀ w, v.Similar (m.field f) w → f.inlined w = f.inlined v := by
    intro w hw
    rw [Field.inlined, Field.inlined, isStruct_eq hw]
  by_cases hskipped : f.skipped
  · simp [hskipped]
  · by_cases hinl : f.inlined v
    · simp only [if_neg hskipped, if_pos hinl]
      constructor
      · intro h w hw
        simpa [hinlined w hw, hinl] using h w hw
      · intro h w hw
        simpa [hinlined w hw, hinl] using h w hw
    · simp only [if_neg hskipped, if_neg hinl]
      constructor
      · intro h hname w hw
        simpa [hinlined w hw, hinl, hname] using h w hw
      · intro h w hw
        by_cases hname : f.fieldName = name
        · simp [hinlined w hw, hinl, hname, h hname w hw]
        · simp [hinlined w hw, hinl, hname]

theorem inlinedSteadyAt_struct_iff : (Value.struct fs).InlinedSteadyAt name m inherited ↔
      fs.SteadyAt name m inherited := by
  constructor
  · intro h gs hgs
    have := h (.struct gs) hgs
    rwa [redactInlined, redactInlined, finalAt_toMap, finalAt_toMap] at this
  · intro h w hw
    obtain ⟨gs, rfl, hgs⟩ := similar_struct_iff.mp hw
    rw [redactInlined, redactInlined, finalAt_toMap, finalAt_toMap]
    exact h gs hgs

theorem inlinedSteadyAt_other (hv : ∀ fs, v ≠ .struct fs) :
    v.InlinedSteadyAt name m inherited := by
  intro w hw
  cases v <;> cases w <;> first | rfl | exact hw.elim | exact absurd rfl (hv _)

end fields

section entries
variable {k : Key} {v : Value} {rest : Entries}

theorem finalAt_entries_of_mem (hmem : name ∈ rest.names) :
    finalAt name (redactEntries secret (.cons k v rest)) =
      finalAt name (redactEntries secret rest) := by
  have hkeys : name ∈ (redactEntries secret rest).map Prod.fst := by
    rwa [keys_redactEntries]
  exact finalAt_append_of_mem [_] hkeys

theorem finalAt_entries_of_not_mem (hmem : name ∉ rest.names) :
    finalAt name (redactEntries secret (.cons k v rest)) =
      if k.keyString = name then
        some (redactValue (secret || secretFieldName k.keyString) v)
      else none := by
  have hkeys : name ∉ (redactEntries secret rest).map Prod.fst := by
    rwa [keys_redactEntries]
  exact finalAt_append_of_not_mem [_] hkeys

theorem steadyAt_entries_later_iff (hmem : name ∈ rest.names) :
    (Entries.cons k v rest).SteadyAt name m secret ↔
      rest.SteadyAt name m secret := by
  constructor
  · intro h es hes
    have := h (.cons k v es) ⟨rfl, v.similar_refl _, hes⟩
    have hmem' : name ∈ es.names := rest.names_eq hes ▸ hmem
    rwa [finalAt_entries_of_mem hmem, finalAt_entries_of_mem hmem'] at this
  · intro h es hes
    obtain ⟨v', es', rfl, hv, hes'⟩ := similar_entries_iff.mp hes
    have hmem' : name ∈ es'.names := rest.names_eq hes' ▸ hmem
    rw [finalAt_entries_of_mem hmem, finalAt_entries_of_mem hmem']
    exact h es' hes'

theorem steadyAt_entries_last_iff (hmem : name ∉ rest.names) :
    (Entries.cons k v rest).SteadyAt name m secret ↔
      (k.keyString = name →
        v.Steady (m.entry k) (secret || secretFieldName k.keyString)) := by
  constructor
  · intro h hname w hw
    have := h (.cons k w rest) ⟨rfl, hw, rest.similar_refl m⟩
    simpa [finalAt_entries_of_not_mem hmem, hname] using this
  · intro h es hes
    obtain ⟨w, es', rfl, hw, hes'⟩ := similar_entries_iff.mp hes
    have hmem' : name ∉ es'.names := rest.names_eq hes' ▸ hmem
    rw [finalAt_entries_of_not_mem hmem, finalAt_entries_of_not_mem hmem']
    by_cases hname : k.keyString = name
    · rw [if_pos hname, if_pos hname, h hname w hw]
    · rw [if_neg hname, if_neg hname]

end entries

section leaves
variable {α β : Type} (zero : α → Bool) (g : α → β) {a : α}

/-- A leaf that tells two non-zero values apart is shown alike only if it is no secret or is
zero. -/
theorem forall_varies_iff {b c : α} (hb : !zero b) (hc : !zero c) (hne : g b ≠ g c) :
    (∀ d, Varies m zero a d → g a = g d) ↔ (m = .secret → zero a) := by
  constructor
  · intro h hm
    by_contra hzero
    have ha : !zero a := by simpa using hzero
    exact hne ((h b (.inr ⟨hm, ha, hb⟩)).symm.trans (h c (.inr ⟨hm, ha, hc⟩)))
  · rintro h d (rfl | ⟨hm, ha, -⟩)
    · rfl
    · simp [h hm] at ha

variable {zero g} in
theorem eq_of_varies (hconst : ∀ b c, !zero b → !zero c → g b = g c) {d : α}
    (h : Varies m zero a d) : g a = g d := by
  obtain rfl | ⟨-, ha, hd⟩ := h
  · rfl
  · exact hconst a d ha hd

end leaves

theorem steady_time_iff {t : Int} :
    (Value.time t).Steady m secret ↔ (m = .secret → t = 0) := by
  rw [steady_iff_forall fun w => similar_time_iff]
  have hne : redactValue secret (.time 1) ≠ redactValue secret (.time 2) := by
    simp [redactValue]
  simpa using forall_varies_iff (· = 0) (fun t => redactValue secret (.time t)) rfl rfl hne

theorem durationString_ne : durationString 1 ≠ durationString 2 := by decide +kernel

theorem steady_duration_iff {n : Int} :
    (Value.duration n).Steady m secret ↔ (m = .secret → n = 0) := by
  rw [steady_iff_forall fun w => similar_duration_iff]
  have hne : redactValue secret (.duration 1) ≠ redactValue secret (.duration 2) := by
    simpa [redactValue] using durationString_ne
  simpa using forall_varies_iff (· = 0) (fun n => redactValue secret (.duration n))
    rfl rfl hne

theorem redactURL_letter : redactURL [0x61] = [0x61] ∧ redactURL [0x62] = [0x62] := by
  constructor
  · unfold redactURL
    rw [if_neg (by decide), if_neg (by simp)]
  · unfold redactURL
    rw [if_neg (by decide), if_neg (by simp)]

theorem steady_string_iff {s : Bytes} :
    (Value.string s).Steady m secret ↔ (m = .secret → secret ∨ s = []) := by
  rw [steady_iff_forall fun w => similar_string_iff]
  cases secret with
  | false =>
    have hne : redactValue false (.string [0x61]) ≠ redactValue false (.string [0x62]) := by
      simp [redactValue, redactURL_letter]
    simpa using forall_varies_iff (· = []) (fun s => redactValue false (.string s))
      rfl rfl hne
  | true =>
    refine ⟨fun _ _ => .inl rfl, fun _ b hb => ?_⟩
    refine eq_of_varies (g := fun b => redactValue true (.string b)) ?_ hb
    intro b c hb hc
    simp_all [redactValue]

theorem steady_bytes_iff {fixed : Bool} {data : List UInt8} :
    (Value.bytes type fixed data).Steady m secret ↔
      (m = .secret → secret ∨ data = []) := by
  rw [steady_iff_forall fun w => similar_bytes_iff]
  constructor
  · intro h hm
    cases secret with
    | true => exact .inl rfl
    | false =>
      cases data with
      | nil => exact .inr rfl
      | cons b rest =>
        -- another array of the same length
        have := h ((b + 1) :: rest) ⟨fun _ => rfl, .inr ⟨hm, rfl, rfl⟩⟩
        simp [redactValue] at this
  · rintro h e ⟨-, rfl | ⟨hm, hd, he⟩⟩
    · rfl
    · have hdata : data ≠ [] := by simpa using hd
      have hother : e ≠ [] := by simpa using he
      have hsecret := (h hm).resolve_right hdata
      simp [redactValue, hsecret, List.length_pos_iff, hdata, hother]

def Scalar.another : Scalar → Scalar
  | .bool b => .bool b
  | .int n => .int (if n = 1 then 2 else 1)
  | .uint n => .uint (if n = 1 then 2 else 1)
  | .float bits => .float (if bits = 1 then 2 else 1)
  | .complex re im => .complex (if re = 1 then 2 else 1) im
  | .ref address => .ref (if address = 1 then 2 else 1)

theorem Scalar.another_spec (x : Scalar) (hx : ∀ b, x ≠ .bool b) :
    x.SameKind x.another ∧ !x.another.isZero ∧ x ≠ x.another := by
  cases x with
  | bool b => exact absurd rfl (hx b)
  | int n | uint n | ref n =>
    by_cases h : n = 1 <;> simp [Scalar.SameKind, Scalar.another, Scalar.isZero, h]
  | float n | complex n k =>
    by_cases h : n = 1 <;> simp [Scalar.SameKind, Scalar.another, Scalar.isZero, floatIsZero, h]

theorem steady_scalar_iff {x : Scalar} : (Value.scalar type x).Steady m secret ↔
      (m = .secret → secret ∨ x.isZero ∨ x = .bool true) := by
  rw [steady_iff_forall fun w => similar_scalar_iff]
  constructor
  · intro h hm
    cases secret with
    | true => exact .inl rfl
    | false =>
      by_contra hnot
      simp only [Bool.false_eq_true, false_or, not_or] at hnot
      have hbool : ∀ b, x ≠ .bool b := by
        rintro (_ | _) rfl
        · exact hnot.1 rfl
        · exact hnot.2 rfl
      obtain ⟨hkind, hzero, hne⟩ := x.another_spec hbool
      have := h x.another ⟨hkind, .inr ⟨hm, by simpa using hnot.1, hzero⟩⟩
      simp [redactValue, hne] at this
  · rintro h y ⟨hkind, rfl | ⟨hm, hx, hy⟩⟩
    · rfl
    · obtain hsecret | hzero | rfl := h hm
      · simp_all [redactValue]
      · simp [hzero] at hx
      · -- the only other bool is zero
        cases y with
        | bool b =>
          have : b = true := by simpa [Scalar.isZero] using hy
          rw [this]
        | int | uint | float | complex | ref => exact hkind.elim

mutual

theorem Value.steady_iff (m : Mark) (secret : Bool) :
    ∀ v : Value, v.Steady m secret ↔ v.Hides m secret
  | .null => by
    refine ⟨fun _ => trivial, fun _ w hw => ?_⟩
    cases w <;> first | rfl | exact hw.elim
  | .ref v => steady_ref_iff.trans (v.steady_iff m secret)
  | .time _ => steady_time_iff
  | .struct fs => steady_struct_iff.trans (forall_congr' fun name => fs.steadyAt_iff name m secret)
  | .bytes .. => steady_bytes_iff
  | .list vs => steady_list_iff.trans (vs.steady_iff m secret)
  | .map es => steady_map_iff.trans (forall_congr' fun name => es.steadyAt_iff name m secret)
  | .string _ => steady_string_iff
  | .duration _ => steady_duration_iff
  | .scalar .. => steady_scalar_iff

theorem Fields.steadyAt_iff (name : String) (m : Mark) (inherited : Bool) :
    ∀ fs : Fields, fs.SteadyAt name m inherited ↔ fs.HidesAt name m inherited
  | .nil => by
    refine ⟨fun _ => trivial, fun _ gs hgs => ?_⟩
    cases gs with
    | nil => rfl
    | cons => exact hgs.elim
  | .cons f v rest => by
    rw [Fields.HidesAt]
    by_cases hmem : name ∈ rest.names
    · rw [if_pos hmem, steadyAt_later_iff hmem]
      exact rest.steadyAt_iff name m inherited
    · rw [if_neg hmem, steadyAt_last_iff hmem]
      split_ifs
      · exact Iff.rfl
      · exact v.inlinedSteadyAt_iff name _ inherited
      · exact forall_congr' fun _ => v.steady_iff _ _

theorem Value.inlinedSteadyAt_iff (name : String) (m : Mark) (inherited : Bool) :
    ∀ v : Value, v.InlinedSteadyAt name m inherited ↔ v.InlinedHidesAt name m inherited
  | .struct fs => inlinedSteadyAt_struct_iff.trans (fs.steadyAt_iff name m inherited)
  | .null | .ref _ | .time _ | .bytes .. | .list _ | .map _ | .string _ | .duration _
  | .scalar .. => iff_of_true (inlinedSteadyAt_other (by simp)) trivial

theorem Values.steady_iff (m : Mark) (secret : Bool) :
    ∀ vs : Values, vs.Steady m secret ↔ vs.Hides m secret
  | .nil => by
    refine ⟨fun _ => trivial, fun _ ws hws => ?_⟩
    cases ws with
    | nil => rfl
    | cons => exact hws.elim
  | .cons v rest => steady_values_cons_iff.trans
      (and_congr (v.steady_iff m secret) (rest.steady_iff m secret))

theorem Entries.steadyAt_iff (name : String) (m : Mark) (secret : Bool) :
    ∀ es : Entries, es.SteadyAt name m secret ↔ es.HidesAt name m secret
  | .nil => by
    refine ⟨fun _ => trivial, fun _ es hes => ?_⟩
    cases es with
    | nil => rfl
    | cons => exact hes.elim
  | .cons k v rest => by
    rw [Entries.HidesAt]
    by_cases hmem : name ∈ rest.names
    · rw [if_pos hmem, steadyAt_entries_later_iff hmem]
      exact rest.steadyAt_iff name m secret
    · rw [if_neg hmem, steadyAt_entries_last_iff hmem]
      exact forall_congr' fun _ => v.steady_iff _ _

end

end steady

/-- `Redact` shows a configuration like every other that differs from it in non-zero secrets
only, exactly if it hides its secrets. -/
theorem redact_noninterfering_iff (v : Value) :
    (∀ w, v.Similar .plain w → redact (some v) = redact (some w)) ↔ v.Hides .plain false :=
  v.steady_iff .plain false

def tagged (v : Value) : Value :=
  .struct (.cons { name := "Value", secret := "true" } v .nil)

def embedded (v : Value) : Value :=
  .struct (.cons { name := "Vault", anonymous := true, secret := "true" }
    (.struct (.cons { name := "Value" } v .nil)) .nil)

theorem redact_tagged_time (t : Int) :
    redact (some (tagged (.time t))) = .object [("Value", .time t)] := rfl

theorem redact_tagged_duration (n : Int) :
    redact (some (tagged (.duration n))) =
      .object [("Value", .string (durationString n))] := rfl

theorem redact_embedded_string (s : Bytes) :
    redact (some (embedded (.string s))) =
      .object [("Value", .string (redactURL s))] := rfl

/-- A secret time, a secret duration, and a field of a secret embedded struct are shown. -/
theorem taggedAndEmbedded_shown :
    ((tagged (.time 1)).Similar .plain (tagged (.time 2)) ∧
      redact (some (tagged (.time 1))) ≠ redact (some (tagged (.time 2)))) ∧
    ((tagged (.duration 1)).Similar .plain (tagged (.duration 2)) ∧
      redact (some (tagged (.duration 1))) ≠ redact (some (tagged (.duration 2)))) ∧
    ((embedded (.string [0x61])).Similar .plain (embedded (.string [0x62])) ∧
      redact (some (embedded (.string [0x61]))) ≠
        redact (some (embedded (.string [0x62])))) := by
  simp only [redact_tagged_time, redact_tagged_duration, redact_embedded_string]
  refine ⟨⟨?_, by simp⟩, ⟨?_, by simpa using durationString_ne⟩, ?_, by simp [redactURL_letter]⟩
  · exact ⟨rfl, .inr ⟨rfl, rfl, rfl⟩, trivial⟩
  · exact ⟨rfl, .inr ⟨rfl, rfl, rfl⟩, trivial⟩
  · exact ⟨rfl, ⟨rfl, .inr ⟨rfl, rfl, rfl⟩, trivial⟩, trivial⟩

end GolangBasics.Httpx.Redact
