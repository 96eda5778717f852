import OcuFilestore.Go.JsonMarshal
import OcuFilestore.Mountcfg.Load

/-!
# OcuFilestore.Harness.Json

`json.Unmarshal` into a record, as the harness peers use it: the whole text is
one value, a key that names no field is skipped, and `null` leaves what it
would fill as it is.  Keys are matched, and values taken, as in
`OcuFilestore.Mountcfg.Load`.

A record that was marshalled is read member by member (`unmarshal_marshal`),
also by a reader that has only some of its fields.
-/

namespace OcuFilestore.Harness

open Mountcfg (JsonErr fieldOf foldName valueKind decodeBool decodeInt)

/-- A value into a field that is no pointer: `null` leaves it. -/
def orKeep {α : Type} (dec : Json → Except JsonErr α) (cur : α) : Json → Except JsonErr α
  | .null => .ok cur
  | v => dec v

/-- The members in order; a key that names no field is skipped. -/
def fillMembers {F σ : Type} (fields : List (List Char × F))
    (set : σ → Json → F → Except JsonErr σ) : σ → List (List Char × Json) → Except JsonErr σ
  | s, [] => .ok s
  | s, (key, v) :: ms =>
      match fieldOf fields key with
      | none => fillMembers fields set s ms
      | some f =>
          match set s v f with
          | .error e => .error e
          | .ok s' => fillMembers fields set s' ms

/-- A value into a record. -/
def fillStruct {F σ : Type} (fields : List (List Char × F))
    (set : σ → Json → F → Except JsonErr σ) (s : σ) : Json → Except JsonErr σ
  | .null => .ok s
  | .obj ms => fillMembers fields set s ms
  | v => .error (.unmarshalType (valueKind v))

/-- `json.Unmarshal` of a text. -/
def unmarshal {F σ : Type} (fields : List (List Char × F))
    (set : σ → Json → F → Except JsonErr σ) (zero : σ) (raw : List UInt8) : Except JsonErr σ :=
  match Json.firstValue (text raw) with
  | none => .error .malformed
  | some (v, rest) =>
      if Json.skipWs rest = [] then fillStruct fields set zero v else .error .malformed

/-! ## pointers and slices -/

/-- A value into a pointer to a record: `null` empties it, an object goes into
the record that is there. -/
def fillPtr {σ : Type} (zero : σ) (fill : σ → Json → Except JsonErr σ) (cur : Option σ) :
    Json → Except JsonErr (Option σ)
  | .null => .ok none
  | v => return some (← fill (cur.getD zero) v)

/-- The elements of an array, each into the element that is there already. -/
def fillElems {σ : Type} (zero : σ) (fill : σ → Json → Except JsonErr σ) :
    List σ → List Json → Except JsonErr (List σ)
  | _, [] => .ok []
  | existing, v :: vs => do
      let a ← fill (existing.head?.getD zero) v
      return a :: (← fillElems zero fill existing.tail vs)

/-- A value into a slice; `none` is the nil slice. -/
def fillSlice {σ : Type} (zero : σ) (fill : σ → Json → Except JsonErr σ)
    (cur : Option (Mountcfg.Slice σ)) : Json → Except JsonErr (Option (Mountcfg.Slice σ))
  | .null => .ok none
  | .arr [] => .ok (some ⟨[], []⟩)
  | .arr (v :: vs) =>
      let backing := cur.elim [] fun s => s.elems ++ s.stale
      return some ⟨← fillElems zero fill backing (v :: vs), backing.drop (vs.length + 1)⟩
  | v => .error (.unmarshalType (valueKind v))

/-! ## invariants -/

/-- What every member keeps holds of the record. -/
theorem fillMembers_keeps {F σ : Type} {fields : List (List Char × F)}
    {set : σ → Json → F → Except JsonErr σ} {P : σ → Prop}
    (hset : ∀ s v f s', P s → set s v f = .ok s' → P s') {s s' : σ}
    {ms : List (List Char × Json)} (hs : P s) (h : fillMembers fields set s ms = .ok s') :
    P s' := by
  induction ms generalizing s with
  | nil =>
      cases h
      exact hs
  | cons m ms ih =>
      unfold fillMembers at h
      split at h
      · exact ih hs h
      · split at h
        · cases h
        · next s₁ h₁ => exact ih (hset _ _ _ s₁ hs h₁) h

/-- What every setter keeps, the decoded value has. -/
theorem unmarshal_keeps {F σ : Type} {fields : List (List Char × F)}
    {set : σ → Json → F → Except JsonErr σ} {P : σ → Prop}
    (hset : ∀ s v f s', P s → set s v f = .ok s' → P s') {zero s : σ} {raw : List UInt8}
    (hzero : P zero) (h : unmarshal fields set zero raw = .ok s) : P s := by
  unfold unmarshal at h
  split at h
  · cases h
  · next v rest _ =>
      split at h
      · cases v with
        | obj ms => exact fillMembers_keeps hset hzero h
        | null =>
            cases h
            exact hzero
        | _ => cases h
      · cases h

/-! ## records with some of the fields -/

section SomeFields

variable {F G σ τ : Type} {fields : List (List Char × F)} {restrict : F → Option G}

/-- The table of some of the fields. -/
def someFields (restrict : F → Option G) (fields : List (List Char × F)) :
    List (List Char × G) :=
  fields.filterMap fun p => (restrict p.2).map fun g => (p.1, g)

/-- Which fields a narrower decoder has. -/
theorem mem_someFields {name : List Char} {g : G} :
    (name, g) ∈ someFields restrict fields ↔ ∃ f, (name, f) ∈ fields ∧ restrict f = some g := by
  unfold someFields
  rw [List.mem_filterMap]
  constructor
  · rintro ⟨⟨name', f⟩, hmem, hf⟩
    obtain ⟨g', hg, heq⟩ := Option.map_eq_some_iff.mp hf
    cases heq
    exact ⟨f, hmem, hg⟩
  · rintro ⟨f, hmem, hf⟩
    exact ⟨(name, f), hmem, by simp [hf]⟩

/-- No two fields have one name up to case. -/
abbrev DistinctNames (fields : List (List Char × F)) : Prop :=
  fields.Pairwise fun p q => foldName p.1 ≠ foldName q.1

/-- Two fields whose names fold alike are one. -/
theorem DistinctNames.unique (hd : DistinctNames fields) {p q : List Char × F} (hp : p ∈ fields)
    (hq : q ∈ fields) (heq : foldName p.1 = foldName q.1) : p = q := by
  induction hd with
  | nil => cases hp
  | @cons a l ha _ ih =>
      rcases List.mem_cons.mp hp with rfl | hpl
      · rcases List.mem_cons.mp hq with rfl | hql
        · rfl
        · exact absurd heq (ha q hql)
      · rcases List.mem_cons.mp hq with rfl | hql
        · exact absurd heq.symm (ha p hpl)
        · exact ih hpl hql

/-- A narrower decoder's names stay distinct. -/
theorem DistinctNames.someFields (hd : DistinctNames fields) :
    DistinctNames (someFields restrict fields) := by
  refine List.Pairwise.filterMap _ (fun p q hpq p' hp' q' hq' => ?_) hd
  obtain ⟨g, -, rfl⟩ := Option.map_eq_some_iff.mp hp'
  obtain ⟨g', -, rfl⟩ := Option.map_eq_some_iff.mp hq'
  exact hpq

/-- With distinct names a key names the field that it is equal to up to
case. -/
theorem fieldOf_eq_some_iff (hd : DistinctNames fields) {key : List Char} {f : F} :
    fieldOf fields key = some f ↔ ∃ name, (name, f) ∈ fields ∧ foldName name = foldName key := by
  unfold fieldOf
  constructor
  · intro h
    split at h
    · next p hp =>
        cases h
        have hkey : p.1 = key := by simpa using List.find?_some hp
        exact ⟨p.1, List.mem_of_find?_eq_some hp, by rw [hkey]⟩
    · obtain ⟨p, hp, rfl⟩ := Option.map_eq_some_iff.mp h
      exact ⟨p.1, List.mem_of_find?_eq_some hp, by simpa using List.find?_some hp⟩
  · rintro ⟨name, hmem, hfold⟩
    split
    · next p hp =>
        have hkey : p.1 = key := by simpa using List.find?_some hp
        rw [hd.unique (List.mem_of_find?_eq_some hp) hmem (by rw [hkey, hfold])]
    · cases hfind : fields.find? fun f => foldName f.1 = foldName key with
      | none =>
          have hne := List.find?_eq_none.mp hfind (name, f) hmem
          simp [hfold] at hne
      | some p =>
          have hp : foldName p.1 = foldName key := by
            simpa using List.find?_some hfind
          rw [hd.unique (List.mem_of_find?_eq_some hfind) hmem (hp.trans hfold.symm)]
          rfl

/-- A key names the same field in the smaller record, if it is there. -/
theorem fieldOf_someFields (hd : DistinctNames fields) (key : List Char) :
    fieldOf (someFields restrict fields) key = (fieldOf fields key).bind restrict := by
  refine Option.ext fun g => ?_
  rw [fieldOf_eq_some_iff hd.someFields, Option.bind_eq_some_iff]
  constructor
  · rintro ⟨name, hmem, hfold⟩
    obtain ⟨f, hf, hg⟩ := mem_someFields.mp hmem
    exact ⟨f, (fieldOf_eq_some_iff hd).mpr ⟨name, hf, hfold⟩, hg⟩
  · rintro ⟨f, hf, hg⟩
    obtain ⟨name, hmem, hfold⟩ := (fieldOf_eq_some_iff hd).mp hf
    exact ⟨name, mem_someFields.mpr ⟨f, hmem, hg⟩, hfold⟩

section

variable {set : σ → Json → F → Except JsonErr σ} {T : σ → τ → Prop}
  (set' : τ → Json → G → Except JsonErr τ) (hd : DistinctNames fields)
  (hskip : ∀ s t v f s', T s t → set s v f = .ok s' → restrict f = none → T s' t)
  (hset : ∀ s t v f s' g, T s t → set s v f = .ok s' → restrict f = some g →
    ∃ t', set' t v g = .ok t' ∧ T s' t')
include hd hskip hset

/-- A narrower decoder follows the wider one. -/
theorem fillMembers_someFields {s s' : σ} {t : τ} {ms : List (List Char × Json)} (hT : T s t)
    (h : fillMembers fields set s ms = .ok s') :
    ∃ t', fillMembers (someFields restrict fields) set' t ms = .ok t' ∧ T s' t' := by
  induction ms generalizing s t with
  | nil =>
      cases h
      exact ⟨t, rfl, hT⟩
  | cons m ms ih =>
      obtain ⟨key, v⟩ := m
      simp only [fillMembers] at h ⊢
      rw [fieldOf_someFields hd]
      cases hf : fieldOf fields key with
      | none =>
          rw [hf] at h
          exact ih hT h
      | some f =>
          rw [hf] at h
          dsimp only at h
          cases hs : set s v f with
          | error e => simp [hs] at h
          | ok s₁ =>
              rw [hs] at h
              rw [Option.bind_some]
              cases hg : restrict f with
              | none => exact ih (hskip s t v f s₁ hT hs hg) h
              | some g =>
                  obtain ⟨t₁, ht₁, hT₁⟩ := hset s t v f s₁ g hT hs hg
                  dsimp only
                  rw [ht₁]
                  exact ih hT₁ h

/-- **Records with fewer fields**: a text that decodes into a record decodes
into one that has some of its fields, and what they get is the same. -/
theorem unmarshal_someFields {zero s : σ} {zero' : τ} {raw : List UInt8} (hT : T zero zero')
    (h : unmarshal fields set zero raw = .ok s) :
    ∃ t, unmarshal (someFields restrict fields) set' zero' raw = .ok t ∧ T s t := by
  unfold unmarshal at h ⊢
  split at h
  · cases h
  · next v rest _ =>
      split at h
      · next hws =>
          rw [if_pos hws]
          cases v with
          | obj ms => exact fillMembers_someFields set' hd hskip hset hT h
          | null =>
              cases h
              exact ⟨zero', rfl, hT⟩
          | _ => cases h
      · cases h

end

end SomeFields

/-! ## what was marshalled -/

section ReadBack

variable {F σ : Type} {fields : List (List Char × F)} {set : σ → Json → F → Except JsonErr σ}
  {s s' : σ} {ms ms' : List (List Char × Json)}

@[simp] theorem fillMembers_nil (s : σ) : fillMembers fields set s [] = .ok s := rfl

/-- A key of another reader's. -/
theorem fillMembers_skip {key : List Char} {v : Json} (h : fieldOf fields key = none) :
    fillMembers fields set s ((key, v) :: ms) = fillMembers fields set s ms := by
  rw [fillMembers, h]

/-- A member that names a field is set. -/
theorem fillMembers_set {key : List Char} {v : Json} {f : F} (h : fieldOf fields key = some f)
    (hset : set s v f = .ok s') :
    fillMembers fields set s ((key, v) :: ms) = fillMembers fields set s' ms := by
  rw [fillMembers, h]
  simp only [hset]

/-- A member that is left out when it would set what is there. -/
theorem fillMembers_omitEmpty {empty : Bool} {key : List Char} {v : Json} {f : F}
    (h : fieldOf fields key = some f) (hset : set s v f = .ok s') (hempty : empty = true → s' = s) :
    fillMembers fields set s (Json.omitEmpty empty key v ++ ms) =
      fillMembers fields set s' ms := by
  cases empty with
  | true => rw [hempty rfl, Json.omitEmpty, if_pos rfl, List.nil_append]
  | false =>
      rw [Json.omitEmpty, if_neg (by simp), List.singleton_append]
      exact fillMembers_set h hset

/-- An omitted member that names no field is skipped. -/
theorem fillMembers_skip_omitEmpty {empty : Bool} {key : List Char} {v : Json}
    (h : fieldOf fields key = none) :
    fillMembers fields set s (Json.omitEmpty empty key v ++ ms) = fillMembers fields set s ms := by
  cases empty with
  | true => rw [Json.omitEmpty, if_pos rfl, List.nil_append]
  | false =>
      rw [Json.omitEmpty, if_neg (by simp), List.singleton_append]
      exact fillMembers_skip h

/-- A pointer is filled where it points, or at a new zero value. -/
theorem fillPtr_obj {τ : Type} {zero a : τ} {fill : τ → Json → Except JsonErr τ} {cur : Option τ}
    (h : fill (cur.getD zero) (.obj ms) = .ok a) :
    fillPtr zero fill cur (.obj ms) = .ok (some a) := by
  simp only [fillPtr, h]
  rfl

/-- A new list is filled element by element. -/
theorem fillElems_nil {τ υ : Type} {zero : τ} {fill : τ → Json → Except JsonErr τ} {json : υ → Json}
    {read : υ → τ} {us : List υ} (h : ∀ u ∈ us, fill zero (json u) = .ok (read u)) :
    fillElems zero fill [] (us.map json) = .ok (us.map read) := by
  induction us with
  | nil => rfl
  | cons u us ih =>
      have hu := h u List.mem_cons_self
      have hus := ih fun u' hu' => h u' (List.mem_cons_of_mem u hu')
      simp only [List.map_cons, fillElems, List.head?_nil, Option.getD_none, List.tail_nil, hu, hus]
      rfl

/-- An array into the nil slice. -/
theorem fillSlice_none {τ υ : Type} {zero : τ} {fill : τ → Json → Except JsonErr τ}
    {json : υ → Json} {read : υ → τ} {us : List υ} (hne : us ≠ [])
    (h : ∀ u ∈ us, fill zero (json u) = .ok (read u)) :
    fillSlice zero fill none (.arr (us.map json)) = .ok (some ⟨us.map read, []⟩) := by
  have helems := fillElems_nil h
  cases us with
  | nil => exact absurd rfl hne
  | cons u us =>
      rw [List.map_cons] at helems ⊢
      simp only [fillSlice, Option.elim_none, helems, List.drop_nil]
      rfl

/-- **A record that was marshalled** is read member by member. -/
theorem unmarshal_marshal (h : (Json.obj ms).WellFormed) :
    unmarshal fields set s (Json.marshal (.obj ms)) = fillMembers fields set s ms := by
  rw [unmarshal, Json.firstValue_marshal h]
  rfl

/-- A record of which the end is missing is no JSON. -/
theorem unmarshal_take_marshal (h : (Json.obj ms).WellFormed) {n : Nat}
    (hn : n < (Json.marshal (.obj ms)).length) :
    unmarshal fields set s ((Json.marshal (.obj ms)).take n) = .error .malformed := by
  rw [unmarshal, Json.firstValue_take_marshal h hn]

end ReadBack

/-- An integer in range is read back as it was written. -/
@[simp] theorem decodeInt_ofInt {x : Int} (h₁ : -maxInt64 - 1 ≤ x) (h₂ : x ≤ maxInt64) :
    decodeInt (Json.ofInt x) = .ok x := by
  have hval : (if (Json.Number.ofInt x).neg = true then
      -(Json.Number.digitsVal (Json.Number.ofInt x).int : Int)
      else (Json.Number.digitsVal (Json.Number.ofInt x).int : Int)) = x := by
    simp only [Json.Number.ofInt, Json.digitsVal_toDigits, decide_eq_true_eq]
    split <;> omega
  have hparse : Mountcfg.parseInt (Json.Number.ofInt x) = some x := by
    unfold Mountcfg.parseInt
    rw [if_neg (by simp [Json.Number.ofInt])]
    simp only [hval]
    exact if_pos ⟨h₁, h₂⟩
  rw [Json.ofInt, decodeInt, hparse]

end OcuFilestore.Harness
