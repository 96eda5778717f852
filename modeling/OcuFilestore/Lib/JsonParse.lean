import OcuFilestore.Lib.Json

/-!
# OcuFilestore.Lib.JsonParse

The JSON parser against the grammar.

* `firstValue_sound` — what the parser takes off a text is derived by the
  grammar, for the value it returns;
* `firstValue_complete` — on a text the grammar derives, the parser returns
  that value and leaves white space.

The parser runs on fuel; completeness is what makes the length of the text
enough of it.  Literals whose end is not marked (numbers) need to know what
comes behind them, which `Follow` says.
-/

namespace OcuFilestore.Json

/-! ## white space -/

/-- What is skipped is white space. -/
theorem ws_skipWs (cs : List Char) : ∃ w, Ws w ∧ cs = w ++ skipWs cs :=
  ⟨cs.takeWhile isWs, List.all_eq_true.mp List.all_takeWhile,
    List.takeWhile_append_dropWhile.symm⟩

/-- White space in front makes no difference. -/
theorem skipWs_append {w cs : List Char} (hw : Ws w) : skipWs (w ++ cs) = skipWs cs :=
  List.dropWhile_append_of_pos hw

theorem skipWs_cons {c : Char} {cs : List Char} (hc : isWs c = false) :
    skipWs (c :: cs) = c :: cs := by
  simp [skipWs, hc]

/-! ## strings -/

/-- A string literal that is read is one of the grammar. -/
theorem string_sound {cs rest : List Char} {items : List StrItem}
    (h : string cs = some (items, rest)) : ∃ t, cs = t ++ '"' :: rest ∧ StrText t items := by
  fun_induction string cs generalizing items with
  | case2 cs =>
      cases h
      exact ⟨[], rfl, .nil⟩
  | case4 a b c d cs w x y z hz hy hx hw items' rest' hrec hq ih =>
      cases h
      obtain ⟨t, rfl, ht⟩ := ih hrec
      exact ⟨'\\' :: 'u' :: a :: b :: c :: d :: t, rfl, .unit hw hx hy hz ht⟩
  | case8 e cs hu c items' rest' hrec he hq ih =>
      cases h
      obtain ⟨t, rfl, ht⟩ := ih hrec
      exact ⟨'\\' :: e :: t, rfl, .escape he ht⟩
  | case11 c cs hq hb hc items' rest' hrec ih =>
      cases h
      obtain ⟨t, rfl, ht⟩ := ih hrec
      exact ⟨c :: t, rfl, .char (Nat.le_of_not_lt hc) hq hb ht⟩
  | _ => cases h

/-- Every string literal of the grammar is read, up to its closing quote. -/
theorem string_complete {t : List Char} {items : List StrItem} (h : StrText t items)
    (rest : List Char) : string (t ++ '"' :: rest) = some (items, rest) := by
  induction h with
  | nil =>
      rw [List.nil_append, string.eq_def]
      simp
  | char hc hq hb _ ih =>
      rw [List.cons_append, string.eq_def]
      simp [hq, hb, Nat.not_lt.mpr hc, ih]
  | @escape e c cs items he _ ih =>
      have hu : e ≠ 'u' := by
        rintro rfl
        cases he
      rw [List.cons_append, string.eq_def]
      simp [hu, he, ih]
  | unit ha hb hc hd _ ih =>
      rw [List.cons_append, string.eq_def]
      simp [ha, hb, hc, hd, ih]

/-! ## numbers -/

/-- The text does not go on with a digit. -/
def NoDigit (cs : List Char) : Prop := ∀ c, cs.head? = some c → isDigit c = false

/-- Digits that are read are digits, one at least. -/
theorem digits_sound {cs ds rest : List Char} (h : digits cs = some (ds, rest)) :
    cs = ds ++ rest ∧ Number.Digits ds := by
  simp only [digits] at h
  split at h
  · cases h
  · next hne =>
      cases h
      exact ⟨List.takeWhile_append_dropWhile.symm, hne,
        List.all_eq_true.mp List.all_takeWhile⟩

/-- Digits are read up to the first character that is none. -/
theorem digits_complete {ds rest : List Char} (h : Number.Digits ds) (hrest : NoDigit rest) :
    digits (ds ++ rest) = some (ds, rest) := by
  have hstop : rest.takeWhile isDigit = [] ∧ rest.dropWhile isDigit = rest := by
    cases rest with
    | nil => simp
    | cons c cs => simp [hrest c rfl]
  simp [digits, List.takeWhile_append_of_pos h.2, List.dropWhile_append_of_pos h.2, hstop, h.1]

/-- The integer part is a zero, or digits without a zero in front. -/
theorem intPart_sound {cs ds rest : List Char} (h : intPart cs = some (ds, rest)) :
    cs = ds ++ rest ∧ (ds = ['0'] ∨ Number.Digits ds ∧ ds.head? ≠ some '0') := by
  cases cs with
  | nil => cases h
  | cons c cs =>
      simp only [intPart] at h
      split at h
      · next hc =>
          cases h
          exact ⟨by rw [hc]; rfl, .inl rfl⟩
      · next hc =>
          obtain ⟨heq, hds⟩ := digits_sound h
          refine ⟨heq, .inr ⟨hds, ?_⟩⟩
          cases ds with
          | nil => simp
          | cons d ds =>
              rw [List.cons_append, List.cons.injEq] at heq
              simpa [← heq.1] using hc

/-- Every integer part of the grammar is read. -/
theorem intPart_complete {ds rest : List Char}
    (h : ds = ['0'] ∨ Number.Digits ds ∧ ds.head? ≠ some '0') (hrest : NoDigit rest) :
    intPart (ds ++ rest) = some (ds, rest) := by
  rcases h with rfl | ⟨hds, hzero⟩
  · simp [intPart]
  · cases ds with
    | nil => exact absurd rfl hds.1
    | cons d ds =>
        have hd : d ≠ '0' := by simpa using hzero
        rw [List.cons_append, intPart, if_neg hd]
        exact digits_complete hds hrest

/-- A fraction that is read has digits behind its point. -/
theorem fracPart_sound {cs rest : List Char} {frac : Option (List Char)}
    (h : fracPart cs = some (frac, rest)) :
    cs = Number.fracText frac ++ rest ∧ ∀ ds, frac = some ds → Number.Digits ds := by
  cases cs with
  | nil =>
      cases h
      exact ⟨rfl, nofun⟩
  | cons c cs =>
      simp only [fracPart] at h
      split at h
      · next hc =>
          split at h
          · next ds rest' hds =>
              cases h
              obtain ⟨rfl, hd⟩ := digits_sound hds
              refine ⟨by rw [hc]; rfl, fun ds' h' => ?_⟩
              cases h'
              exact hd
          · cases h
      · cases h
        exact ⟨rfl, nofun⟩

/-- Every fraction of the grammar is read, also one that is not there. -/
theorem fracPart_complete {rest : List Char} {frac : Option (List Char)}
    (h : ∀ ds, frac = some ds → Number.Digits ds) (hrest : NoDigit rest)
    (hdot : rest.head? ≠ some '.') :
    fracPart (Number.fracText frac ++ rest) = some (frac, rest) := by
  cases frac with
  | some ds => simp [Number.fracText, fracPart, digits_complete (h ds rfl) hrest]
  | none =>
      cases rest with
      | nil => rfl
      | cons c cs =>
          have hc : c ≠ '.' := by simpa using hdot
          simp [Number.fracText, fracPart, hc]

/-- The sign of an exponent is a plus, a minus, or left out. -/
theorem expSign_sound (cs : List Char) :
    cs = (expSign cs).1.toList ++ (expSign cs).2 ∧
      ∀ c, (expSign cs).1 = some c → c = '+' ∨ c = '-' := by
  cases cs with
  | nil => exact ⟨rfl, nofun⟩
  | cons c cs =>
      simp only [expSign]
      split
      · next hc => exact ⟨rfl, fun d hd => by cases hd; exact hc⟩
      · exact ⟨rfl, nofun⟩

theorem expSign_complete {sign : Option Char} {ds : List Char}
    (hs : ∀ c, sign = some c → c = '+' ∨ c = '-') (hds : Number.Digits ds) (rest : List Char) :
    expSign (sign.toList ++ (ds ++ rest)) = (sign, ds ++ rest) := by
  cases sign with
  | some c => simp [expSign, hs c rfl]
  | none =>
      cases ds with
      | nil => exact absurd rfl hds.1
      | cons d ds =>
          have hd : ¬ (d = '+' ∨ d = '-') := by
            rintro (rfl | rfl)
            · exact absurd (hds.2 '+' List.mem_cons_self) (by decide)
            · exact absurd (hds.2 '-' List.mem_cons_self) (by decide)
          simp only [Option.toList_none, List.nil_append, List.cons_append, expSign, if_neg hd]

/-- An exponent that is read has its letter, its sign and its digits. -/
theorem expPart_sound {cs rest : List Char} {exp : Option (Char × Option Char × List Char)}
    (h : expPart cs = some (exp, rest)) :
    cs = Number.expText exp ++ rest ∧ ∀ e sign ds, exp = some (e, sign, ds) →
      (e = 'e' ∨ e = 'E') ∧ (∀ c, sign = some c → c = '+' ∨ c = '-') ∧ Number.Digits ds := by
  cases cs with
  | nil =>
      cases h
      exact ⟨rfl, nofun⟩
  | cons c cs =>
      simp only [expPart] at h
      split at h
      · next hc =>
          split at h
          · next ds rest' hds =>
              cases h
              obtain ⟨heq, hd⟩ := digits_sound hds
              obtain ⟨hcs, hsign⟩ := expSign_sound cs
              refine ⟨?_, fun e sign ds' h' => ?_⟩
              · rw [Number.expText, List.cons_append, List.append_assoc, ← heq, ← hcs]
              · cases h'
                exact ⟨hc, hsign, hd⟩
          · cases h
      · cases h
        exact ⟨rfl, nofun⟩

/-- Every exponent of the grammar is read, also one that is not there. -/
theorem expPart_complete {rest : List Char} {exp : Option (Char × Option Char × List Char)}
    (h : ∀ e sign ds, exp = some (e, sign, ds) →
      (e = 'e' ∨ e = 'E') ∧ (∀ c, sign = some c → c = '+' ∨ c = '-') ∧ Number.Digits ds)
    (hrest : NoDigit rest) (he : ∀ c, rest.head? = some c → ¬ (c = 'e' ∨ c = 'E')) :
    expPart (Number.expText exp ++ rest) = some (exp, rest) := by
  cases exp with
  | some x =>
      obtain ⟨e, sign, ds⟩ := x
      obtain ⟨hletter, hsign, hds⟩ := h e sign ds rfl
      simp only [Number.expText, List.cons_append, List.append_assoc, expPart, if_pos hletter,
        expSign_complete hsign hds, digits_complete hds hrest]
  | none =>
      cases rest with
      | nil => rfl
      | cons c cs => simp [Number.expText, expPart, he c rfl]

/-- The sign of a number is a minus or left out. -/
theorem sign_sound (cs : List Char) : cs = Number.signText (sign cs).1 ++ (sign cs).2 := by
  cases cs with
  | nil => rfl
  | cons c cs =>
      simp only [sign]
      split
      · next hc =>
          rw [hc]
          rfl
      · rfl

/-- The white space and the delimiters that can come behind a value. -/
def followers : List Char := [' ', '\t', '\n', '\r', ',', ']', '}']

/-- What comes behind a value: nothing, or one of the followers. -/
def Follow (cs : List Char) : Prop := ∀ c, cs.head? = some c → c ∈ followers

/-- No digit follows a value. -/
theorem Follow.noDigit {cs : List Char} (h : Follow cs) : NoDigit cs := by
  intro c hc
  have hall : followers.all (fun c => !isDigit c) = true := by decide
  simpa using List.all_eq_true.mp hall c (h c hc)

theorem Follow.ne_dot {cs : List Char} (h : Follow cs) : cs.head? ≠ some '.' := fun hc =>
  (by decide : '.' ∉ followers) (h '.' hc)

/-- No exponent follows a value. -/
theorem Follow.ne_exp {cs : List Char} (h : Follow cs) :
    ∀ c, cs.head? = some c → ¬ (c = 'e' ∨ c = 'E') := by
  intro c hc
  have hall : followers.all (fun c => !(c == 'e' || c == 'E')) = true := by decide
  simpa using List.all_eq_true.mp hall c (h c hc)

/-- A number that is read is a literal of the grammar. -/
theorem number_sound {cs rest : List Char} {n : Number} (h : number cs = some (n, rest)) :
    cs = n.text ++ rest ∧ n.WellFormed := by
  simp only [number, Option.bind_eq_bind, Option.bind_eq_some_iff, Option.pure_def,
    Option.some.injEq, Prod.mk.injEq] at h
  obtain ⟨⟨int, r₁⟩, hint, ⟨frac, r₂⟩, hfrac, ⟨exp, r₃⟩, hexp, rfl, rfl⟩ := h
  obtain ⟨h₁, hint⟩ := intPart_sound hint
  obtain ⟨h₂, hfrac⟩ := fracPart_sound hfrac
  obtain ⟨h₃, hexp⟩ := expPart_sound hexp
  dsimp only at h₁ h₂ h₃
  refine ⟨?_, hint, hfrac, hexp⟩
  have hcs := sign_sound cs
  rw [h₁, h₂, h₃] at hcs
  simpa [Number.text, List.append_assoc] using hcs

/-- A number has a first digit. -/
theorem Number.WellFormed.int_cons {n : Number} (h : n.WellFormed) :
    ∃ d ds, n.int = d :: ds ∧ isDigit d = true := by
  rcases h.int with hzero | ⟨⟨hne, hds⟩, -⟩
  · exact ⟨'0', [], hzero, by decide⟩
  · cases hint : n.int with
    | nil => exact absurd hint hne
    | cons d ds => exact ⟨d, ds, rfl, hds d (by rw [hint]; exact List.mem_cons_self)⟩

/-- The characters a number begins with. -/
def NumStart (c : Char) : Prop := c = '-' ∨ isDigit c = true

instance (c : Char) : Decidable (NumStart c) := inferInstanceAs (Decidable (_ ∨ _))

theorem NumStart.ne {c d : Char} (hc : NumStart c) (hd : ¬ NumStart d) : c ≠ d := by
  rintro rfl
  exact hd hc

/-- A literal begins with a digit or a minus. -/
theorem Number.WellFormed.text_cons {n : Number} (h : n.WellFormed) :
    ∃ c cs, n.text = c :: cs ∧ NumStart c := by
  obtain ⟨d, ds, hint, hd⟩ := h.int_cons
  cases hneg : n.neg with
  | true => exact ⟨'-', _, by rw [Number.text, hneg]; rfl, .inl rfl⟩
  | false => exact ⟨d, _, by rw [Number.text, hneg, hint]; rfl, .inr hd⟩

/-- The sign of a literal is read. -/
theorem sign_complete {n : Number} (h : n.WellFormed) (rest : List Char) :
    sign (Number.signText n.neg ++ (n.int ++ rest)) = (n.neg, n.int ++ rest) := by
  obtain ⟨d, ds, hint, hd⟩ := h.int_cons
  have hne : d ≠ '-' := by
    rintro rfl
    cases hd
  cases n.neg with
  | true => simp [Number.signText, sign]
  | false => simp [Number.signText, sign, hint, hne]

/-- The exponent, or what follows a literal, does not go on with a digit. -/
theorem noDigit_exp {n : Number} (h : n.WellFormed) {rest : List Char} (hrest : Follow rest) :
    NoDigit (Number.expText n.exp ++ rest) := by
  cases hexp : n.exp with
  | none => exact hrest.noDigit
  | some x =>
      obtain ⟨e, sign, ds⟩ := x
      intro c hc
      have hce : e = c := by simpa [Number.expText] using hc
      subst hce
      rcases (h.exp e sign ds hexp).1 with rfl | rfl <;> rfl

/-- The fraction, or what follows it, does not go on with a digit. -/
theorem noDigit_frac {n : Number} (h : n.WellFormed) {rest : List Char} (hrest : Follow rest) :
    NoDigit (Number.fracText n.frac ++ (Number.expText n.exp ++ rest)) := by
  cases hfrac : n.frac with
  | none => exact noDigit_exp h hrest
  | some ds =>
      intro c hc
      cases hc
      rfl

theorem head_exp_ne_dot {n : Number} (h : n.WellFormed) {rest : List Char} (hrest : Follow rest) :
    (Number.expText n.exp ++ rest).head? ≠ some '.' := by
  cases hexp : n.exp with
  | none => exact hrest.ne_dot
  | some x =>
      obtain ⟨e, sign, ds⟩ := x
      rcases (h.exp e sign ds hexp).1 with rfl | rfl <;> simp [Number.expText]

/-- Every literal of the grammar is read, up to what follows it. -/
theorem number_complete {n : Number} (h : n.WellFormed) {rest : List Char} (hrest : Follow rest) :
    number (n.text ++ rest) = some (n, rest) := by
  simp only [number, Number.text, List.append_assoc, sign_complete h,
    intPart_complete h.int (noDigit_frac h hrest),
    fracPart_complete h.frac (noDigit_exp h hrest) (head_exp_ne_dot h hrest),
    expPart_complete h.exp hrest.noDigit hrest.ne_exp, Option.bind_eq_bind, Option.bind_some,
    Option.pure_def]

/-! ## values -/

/-- `null`, `true` and `false` are read letter by letter. -/
theorem word_sound {lit cs rest : List Char} {v v' : Json} (h : word lit v cs = some (v', rest)) :
    cs = lit ++ rest ∧ v' = v := by
  simp only [word] at h
  split at h
  · next hpre =>
      cases h
      obtain ⟨t, rfl⟩ := hpre
      simp
  · cases h

theorem word_complete (lit rest : List Char) (v : Json) :
    word lit v (lit ++ rest) = some (v, rest) := by
  simp [word]

/-- What the parser of values promises. -/
def ValueSound (fuel : Nat) : Prop :=
  ∀ cs v rest, value fuel cs = some (v, rest) → ∃ t, cs = t ++ rest ∧ Value t v

def ElemsSound (fuel : Nat) : Prop :=
  ∀ cs vs rest, elems fuel cs = some (vs, rest) → ∃ t, cs = t ++ ']' :: rest ∧ Elems t vs

def MembersSound (fuel : Nat) : Prop :=
  ∀ cs ms rest, members fuel cs = some (ms, rest) → ∃ t, cs = t ++ '}' :: rest ∧ Members t ms

/-- What is in brackets is empty, or read by the reader of its inside. -/
theorem bracketed_sound {α : Type} {close : Char} {wrap : List α → Json}
    {inside : List Char → Option (List α × List Char)} {cs rest : List Char} {v : Json}
    (h : bracketed close wrap inside cs = some (v, rest)) :
    (∃ w, Ws w ∧ cs = w ++ close :: rest ∧ v = wrap []) ∨
      ∃ xs, inside cs = some (xs, rest) ∧ v = wrap xs := by
  obtain ⟨w, hw, hcs⟩ := ws_skipWs cs
  simp only [bracketed] at h
  split at h
  · cases h
  · next d rest' hskip =>
      split at h
      · next hd =>
          cases h
          rw [hskip, hd] at hcs
          exact .inl ⟨w, hw, hcs, rfl⟩
      · split at h
        · next xs rest'' hxs =>
            cases h
            exact .inr ⟨xs, hxs, rfl⟩
        · cases h

/-- A value is read soundly when its elements and members are. -/
theorem valueSound_succ {fuel : Nat} (ihe : ElemsSound fuel) (ihm : MembersSound fuel) :
    ValueSound (fuel + 1) := by
  intro cs v rest h
  cases cs with
  | nil => cases h
  | cons c cs =>
      simp only [value] at h
      split at h
      · obtain ⟨ht, rfl⟩ := word_sound h
        exact ⟨_, ht, .litNull⟩
      split at h
      · obtain ⟨ht, rfl⟩ := word_sound h
        exact ⟨_, ht, .litTrue⟩
      split at h
      · obtain ⟨ht, rfl⟩ := word_sound h
        exact ⟨_, ht, .litFalse⟩
      split at h
      · next hq =>
          split at h
          · next items rest' hs =>
              cases h
              obtain ⟨t, rfl, ht⟩ := string_sound hs
              exact ⟨'"' :: (t ++ ['"']), by simp [hq], .str ht⟩
          · cases h
      split at h
      · next hc =>
          rcases bracketed_sound h with ⟨w, hw, rfl, rfl⟩ | ⟨vs, hvs, rfl⟩
          · exact ⟨'[' :: (w ++ [']']), by simp [hc], .arrNil hw⟩
          · obtain ⟨t, rfl, ht⟩ := ihe _ _ _ hvs
            exact ⟨'[' :: (t ++ [']']), by simp [hc], .arr ht⟩
      split at h
      · next hc =>
          rcases bracketed_sound h with ⟨w, hw, rfl, rfl⟩ | ⟨ms, hms, rfl⟩
          · exact ⟨'{' :: (w ++ ['}']), by simp [hc], .objNil hw⟩
          · obtain ⟨t, rfl, ht⟩ := ihm _ _ _ hms
            exact ⟨'{' :: (t ++ ['}']), by simp [hc], .obj ht⟩
      · split at h
        · next n rest' hn =>
            cases h
            obtain ⟨ht, hwf⟩ := number_sound hn
            exact ⟨n.text, ht, .num hwf⟩
        · cases h

/-- Elements are read soundly when the values are. -/
theorem elemsSound_succ {fuel : Nat} (ihv : ValueSound fuel) (ihe : ElemsSound fuel) :
    ElemsSound (fuel + 1) := by
  intro cs vs rest h
  simp only [elems] at h
  obtain ⟨w, hw, hcs⟩ := ws_skipWs cs
  split at h
  · cases h
  · next v rest₁ hv =>
      obtain ⟨t, ht, hval⟩ := ihv _ _ _ hv
      obtain ⟨w', hw', hrest₁⟩ := ws_skipWs rest₁
      split at h
      · cases h
      · next d rest₂ hskip =>
          rw [hskip] at hrest₁
          split at h
          · next hd =>
              cases h
              refine ⟨w ++ (t ++ w'), ?_, .one hw hval hw'⟩
              rw [hcs, ht, hrest₁, hd]
              simp
          split at h
          · next hd =>
              split at h
              · next vs' rest₃ hvs =>
                  cases h
                  obtain ⟨t', ht', hrest⟩ := ihe _ _ _ hvs
                  refine ⟨w ++ (t ++ (w' ++ ',' :: t')), ?_, .cons hw hval hw' hrest⟩
                  rw [hcs, ht, hrest₁, hd, ht']
                  simp
              · cases h
          · cases h

/-- Members are read soundly when the values are. -/
theorem membersSound_succ {fuel : Nat} (ihv : ValueSound fuel) (ihm : MembersSound fuel) :
    MembersSound (fuel + 1) := by
  intro cs ms rest h
  simp only [members] at h
  obtain ⟨w, hw, hcs⟩ := ws_skipWs cs
  split at h
  · cases h
  next q cs' hskip =>
  rw [hskip] at hcs
  split at h
  · next hq =>
      split at h
      · cases h
      next items rest₁ hkey =>
      obtain ⟨key, rfl, hk⟩ := string_sound hkey
      obtain ⟨w₁, hw₁, hrest₁⟩ := ws_skipWs rest₁
      split at h
      · cases h
      next k rest₂ hskip₁ =>
      rw [hskip₁] at hrest₁
      split at h
      · next hcolon =>
          obtain ⟨w₂, hw₂, hrest₂⟩ := ws_skipWs rest₂
          split at h
          · cases h
          next v rest₃ hv =>
          obtain ⟨t, ht, hval⟩ := ihv _ _ _ hv
          obtain ⟨w', hw', hrest₃⟩ := ws_skipWs rest₃
          split at h
          · cases h
          next d rest₄ hskip₃ =>
          rw [hskip₃] at hrest₃
          split at h
          · next hd =>
              cases h
              refine ⟨_, ?_, .one hw hk hw₁ hw₂ hval hw'⟩
              rw [hcs, hq, hrest₁, hcolon, hrest₂, ht, hrest₃, hd]
              simp
          split at h
          · next hd =>
              split at h
              · next ms' rest₅ hms =>
                  cases h
                  obtain ⟨t', ht', hrest⟩ := ihm _ _ _ hms
                  refine ⟨_, ?_, .cons hw hk hw₁ hw₂ hval hw' hrest⟩
                  rw [hcs, hq, hrest₁, hcolon, hrest₂, ht, hrest₃, hd, ht']
                  simp
              · cases h
          · cases h
      · cases h
  · cases h

/-- **Soundness**: whatever is read is a text of the grammar, with any fuel.
-/
theorem parse_sound (fuel : Nat) : ValueSound fuel ∧ ElemsSound fuel ∧ MembersSound fuel := by
  induction fuel with
  | zero => exact ⟨nofun, nofun, nofun⟩
  | succ fuel ih =>
      obtain ⟨ihv, ihe, ihm⟩ := ih
      exact ⟨valueSound_succ ihe ihm, elemsSound_succ ihv ihe, membersSound_succ ihv ihm⟩

/-- **Soundness**: the parser takes white space and a text of the value it
returns off its input. -/
theorem firstValue_sound {cs rest : List Char} {v : Json} (h : firstValue cs = some (v, rest)) :
    ∃ w t, cs = w ++ (t ++ rest) ∧ Ws w ∧ Value t v := by
  obtain ⟨w, hw, hcs⟩ := ws_skipWs cs
  obtain ⟨t, ht, hv⟩ := (parse_sound _).1 _ _ _ h
  exact ⟨w, t, by rw [← ht]; exact hcs, hw, hv⟩

/-! ## completeness -/

/-- A value begins with a character that is neither white space nor a closing
bracket. -/
theorem Value.head {t : List Char} {v : Json} (h : Value t v) :
    ∃ c cs, t = c :: cs ∧ isWs c = false ∧ c ≠ ']' := by
  cases h with
  | num hn =>
      obtain ⟨c, cs, htext, hc⟩ := hn.text_cons
      refine ⟨c, cs, htext, ?_, hc.ne (by decide)⟩
      have hws : ∀ d, isWs d = true → ¬ NumStart d := by
        intro d hd
        simp only [isWs, Bool.or_eq_true, decide_eq_true_eq] at hd
        rcases hd with ((rfl | rfl) | rfl) | rfl <;> decide
      exact Bool.eq_false_iff.mpr fun h => hws c h hc
  | _ => exact ⟨_, _, rfl, by decide, by decide⟩

/-- A value behind white space. -/
theorem skipWs_value {w t rest : List Char} {v : Json} (hw : Ws w) (h : Value t v) :
    skipWs (w ++ (t ++ rest)) = t ++ rest := by
  obtain ⟨c, cs, rfl, hc, -⟩ := h.head
  rw [skipWs_append hw, List.cons_append, skipWs_cons hc]

/-- A delimiter behind white space. -/
theorem skipWs_delim {w rest : List Char} {c : Char} (hw : Ws w) (hc : isWs c = false) :
    skipWs (w ++ c :: rest) = c :: rest := by
  rw [skipWs_append hw, skipWs_cons hc]

/-- A delimiter, also behind white space, can follow a value. -/
theorem follow_delim {w rest : List Char} {c : Char} (hw : Ws w) (hc : c ∈ followers) :
    Follow (w ++ c :: rest) := by
  intro d hd
  cases w with
  | nil =>
      cases hd
      exact hc
  | cons e w =>
      cases hd
      have he := hw _ List.mem_cons_self
      simp only [isWs, Bool.or_eq_true, decide_eq_true_eq] at he
      rcases he with ((rfl | rfl) | rfl) | rfl <;> decide

def ValueComplete (fuel : Nat) : Prop :=
  ∀ t v rest, Value t v → t.length < fuel → Follow rest → value fuel (t ++ rest) = some (v, rest)

def ElemsComplete (fuel : Nat) : Prop :=
  ∀ t vs rest, Elems t vs → t.length + 1 < fuel → elems fuel (t ++ ']' :: rest) = some (vs, rest)

def MembersComplete (fuel : Nat) : Prop :=
  ∀ t ms rest, Members t ms → t.length + 1 < fuel →
    members fuel (t ++ '}' :: rest) = some (ms, rest)

/-- Empty brackets are read, with white space in them. -/
theorem bracketed_empty {α : Type} {close : Char} {wrap : List α → Json}
    {inside : List Char → Option (List α × List Char)} {w rest : List Char} (hw : Ws w)
    (hclose : isWs close = false) :
    bracketed close wrap inside (w ++ close :: rest) = some (wrap [], rest) := by
  simp [bracketed, skipWs_delim hw hclose]

/-- Brackets with something in them are read by the reader of the inside. -/
theorem bracketed_inside {α : Type} {close : Char} {wrap : List α → Json}
    {inside : List Char → Option (List α × List Char)} {cs rest : List Char} {xs : List α}
    (h : inside cs = some (xs, rest)) {c : Char} {cs' : List Char} (hskip : skipWs cs = c :: cs')
    (hc : c ≠ close) : bracketed close wrap inside cs = some (wrap xs, rest) := by
  simp [bracketed, hskip, hc, h]

/-- Elements do not begin with the closing bracket. -/
theorem Elems.head {t : List Char} {vs : List Json} (h : Elems t vs) (rest : List Char) :
    ∃ c cs, skipWs (t ++ rest) = c :: cs ∧ c ≠ ']' := by
  cases h with
  | one hw hv hw' =>
      obtain ⟨c, cs, hcs, -, hc⟩ := hv.head
      rw [List.append_assoc, List.append_assoc, skipWs_value hw hv, hcs]
      exact ⟨c, _, rfl, hc⟩
  | cons hw hv hw' hs =>
      obtain ⟨c, cs, hcs, -, hc⟩ := hv.head
      rw [List.append_assoc, List.append_assoc, skipWs_value hw hv, hcs]
      exact ⟨c, _, rfl, hc⟩

/-- Members begin with a quote. -/
theorem Members.head {t : List Char} {ms : List (List Char × Json)} (h : Members t ms)
    (rest : List Char) : ∃ cs, skipWs (t ++ rest) = '"' :: cs := by
  cases h with
  | one hw _ _ _ _ _ => exact ⟨_, by rw [List.append_assoc, List.cons_append, skipWs_delim hw rfl]⟩
  | cons hw _ _ _ _ _ _ =>
      exact ⟨_, by rw [List.append_assoc, List.cons_append, skipWs_delim hw rfl]⟩

/-- Every value is read when its elements and members are. -/
theorem valueComplete_succ {fuel : Nat} (ihe : ElemsComplete fuel) (ihm : MembersComplete fuel) :
    ValueComplete (fuel + 1) := by
  intro t v rest h hlen hrest
  cases h with
  | litNull => simpa [value] using word_complete ['n', 'u', 'l', 'l'] rest .null
  | litTrue => simpa [value] using word_complete ['t', 'r', 'u', 'e'] rest (.bool true)
  | litFalse => simpa [value] using word_complete ['f', 'a', 'l', 's', 'e'] rest (.bool false)
  | num hn =>
      obtain ⟨c, cs, htext, hc⟩ := hn.text_cons
      have hnum := number_complete hn hrest
      rw [htext] at hnum ⊢
      simp only [List.cons_append] at hnum ⊢
      simp only [value, hc.ne (d := 'n') (by decide), hc.ne (d := 't') (by decide),
        hc.ne (d := 'f') (by decide), hc.ne (d := '"') (by decide), hc.ne (d := '[') (by decide),
        hc.ne (d := '{') (by decide), if_false, hnum]
  | str hs => simp [value, string_complete hs]
  | arrNil hw => simp [value, bracketed_empty hw (by decide : isWs ']' = false)]
  | arr hs =>
      obtain ⟨c, cs, hskip, hc⟩ := hs.head (']' :: rest)
      have hes := ihe _ _ rest hs (by simp at hlen; omega)
      simp [value, bracketed_inside hes hskip hc]
  | objNil hw => simp [value, bracketed_empty hw (by decide : isWs '}' = false)]
  | obj hs =>
      obtain ⟨cs, hskip⟩ := hs.head ('}' :: rest)
      have hms := ihm _ _ rest hs (by simp at hlen; omega)
      simp [value, bracketed_inside hms hskip (by decide : '"' ≠ '}')]

/-- All elements are read when the values are. -/
theorem elemsComplete_succ {fuel : Nat} (ihv : ValueComplete fuel) (ihe : ElemsComplete fuel) :
    ElemsComplete (fuel + 1) := by
  intro t vs rest h hlen
  cases h with
  | @one w cs w' v hw hv hw' =>
      have hval := ihv cs v (w' ++ ']' :: rest) hv (by simp at hlen; omega)
        (follow_delim hw' (by decide))
      simp [elems, skipWs_value hw hv, hval, skipWs_delim hw' (c := ']') rfl]
  | @cons w cs w' es v vs hw hv hw' hs =>
      have hval := ihv cs v (w' ++ ',' :: (es ++ ']' :: rest)) hv (by simp at hlen; omega)
        (follow_delim hw' (by decide))
      have hes := ihe es vs rest hs (by simp at hlen; omega)
      simp [elems, skipWs_value hw hv, hval, skipWs_delim hw' (c := ',') rfl, hes]

/-- All members are read when the values are. -/
theorem membersComplete_succ {fuel : Nat} (ihv : ValueComplete fuel)
    (ihm : MembersComplete fuel) : MembersComplete (fuel + 1) := by
  intro t ms rest h hlen
  cases h with
  | @one w key w₁ w₂ cs w' items v hw hk hw₁ hw₂ hv hw' =>
      have hval := ihv cs v (w' ++ '}' :: rest) hv (by simp at hlen; omega)
        (follow_delim hw' (by decide))
      simp [members, skipWs_delim hw (c := '"') rfl, string_complete hk,
        skipWs_delim hw₁ (c := ':') rfl, skipWs_value hw₂ hv, hval,
        skipWs_delim hw' (c := '}') rfl]
  | @cons w key w₁ w₂ cs w' more items v ms hw hk hw₁ hw₂ hv hw' hs =>
      have hval := ihv cs v (w' ++ ',' :: (more ++ '}' :: rest)) hv (by simp at hlen; omega)
        (follow_delim hw' (by decide))
      have hms := ihm more ms rest hs (by simp at hlen; omega)
      simp [members, skipWs_delim hw (c := '"') rfl, string_complete hk,
        skipWs_delim hw₁ (c := ':') rfl, skipWs_value hw₂ hv, hval,
        skipWs_delim hw' (c := ',') rfl, hms]

/-- **Completeness**: every text of the grammar is read, with fuel for its
length. -/
theorem parse_complete (fuel : Nat) :
    ValueComplete fuel ∧ ElemsComplete fuel ∧ MembersComplete fuel := by
  induction fuel with
  | zero => exact ⟨nofun, nofun, nofun⟩
  | succ fuel ih =>
      obtain ⟨ihv, ihe, ihm⟩ := ih
      exact ⟨valueComplete_succ ihe ihm, elemsComplete_succ ihv ihe, membersComplete_succ ihv ihm⟩

/-- **Completeness**: on a text of one value the parser returns that value
and leaves white space. -/
theorem firstValue_complete {cs : List Char} {v : Json} (h : Document cs v) :
    ∃ rest, firstValue cs = some (v, rest) ∧ Ws rest := by
  obtain ⟨w, t, w', rfl, hw, hv, hw'⟩ := h
  refine ⟨w', ?_, hw'⟩
  have hfollow : Follow w' := by
    intro c hc
    have hmem := List.mem_of_mem_head? hc
    have hws := hw' c hmem
    simp only [isWs, Bool.or_eq_true, decide_eq_true_eq] at hws
    rcases hws with ((rfl | rfl) | rfl) | rfl <;> decide
  rw [firstValue, skipWs_value hw hv]
  exact (parse_complete _).1 t v w' hv (by simp; omega) hfollow

end OcuFilestore.Json
