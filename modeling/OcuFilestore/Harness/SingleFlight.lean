import OcuFilestore.Harness.Edge
import OcuFilestore.Lib.Pool

/-!
# OcuFilestore.Harness.SingleFlight

Concurrent `Resolve` calls on one exchanger (`test/harness/edgeglue`).  A pool
of calls is given, each with a context of its own; their critical sections,
the exchanges and the waits interleave in any order, the clock moves at will,
and a context that can be cancelled may be cancelled at any time.  How an
exchange ends is up to the peer, which issues what it is known to issue; it
ends with the error of a context only if the context of its caller is over, as
`net/http` promises.  The HTTP client of the edge has a timeout of its own (60
seconds).  `errors.Is` takes its error for a `DeadlineExceeded` too, but no
context of a call is over then: here it is a text, like any other failure of
the round trip, and `isContext` does not hold of it.

A call goes through phases (`Phase`), and what is left of its program is a
function of the phase.  `Holds` says what the exchanger looks like to a call in
a phase, `Sound` what it looks like as such, and `Led` that every flight has
just one leader.
-/

namespace OcuFilestore.Edgeglue

open Edge Jwtmint

/-! ## calls -/

structure Call where
  filesystemID : List Char
  intent : List Char
  weakJWT : List Char
  /-- Its context can be cancelled or time out. -/
  cancellable : Bool

namespace Call

def cacheKey (c : Call) : List Char := Edge.cacheKey c.filesystemID c.intent

/-- The call gets as far as the cache. -/
def Valid (c : Call) : Prop :=
  c.filesystemID ≠ [] ∧ filesystemIDClaim c.weakJWT = .ok c.filesystemID

end Call

/-- A call with its context; what it found under the lock, and when, is kept
for the record. -/
structure Caller where
  call : Call
  cancelled : Bool
  found : Option Lookup
  foundAt : Time

structure Clocked where
  ex : Exchanger
  now : Time

abbrev Result : Type := Except Err (List Char)

abbrev Resolving : Type := Thread Eff.Reply Caller Result

/-- The critical sections are atomic.  A waiter takes the result of its flight
once it is closed, or gives up when its context is over. -/
def sections (renewSkew : Int) (issues : List Char → Prop) : Env Eff.Reply (Clocked × Caller)
  | (s, c), .lookup key, r, sc =>
      r = (s.ex.lookup renewSkew s.now key).1 ∧
        sc = ({ s with ex := (s.ex.lookup renewSkew s.now key).2 },
          { c with found := some r, foundAt := s.now })
  | (s, c), .await f, r, sc => sc = (s, c) ∧
      ((c.cancelled = true ∧ ∃ e, r = .error e ∧ e.isContext = true) ∨
        ∃ fl, s.ex.flights[f]? = some fl ∧ fl.closed = true ∧ fl.result = some r)
  | (s, c), .exchange _, r, sc => sc = (s, c) ∧
      (∀ cred, exchangeResult r = .ok cred → issues cred) ∧
      ∀ e, exchangeResult r = .error e → e.isContext = true → c.cancelled = true
  | (s, c), .settle key f result, _, sc => sc = ({ s with ex := s.ex.settle key f result }, c)
  | (s, c), .close f, _, sc => sc = ({ s with ex := s.ex.close f }, c)
  | (s, c), .now, _, sc => sc = (s, c)
  | (s, c), .forward _ _ _, _, sc => sc = (s, c)

/-- The calls on an exchanger whose peer issues these credentials. -/
def exchanger (renewSkew : Int) (issues : List Char → Prop) : Pool Eff.Reply Clocked Caller where
  env := sections renewSkew issues
  drift s s' := s'.ex = s.ex
  signal c c' := c.call.cancellable = true ∧ c' = { c with cancelled := true }

def Call.start (c : Call) : Resolving :=
  ⟨⟨c, false, none, 0⟩, resolve c.filesystemID c.intent c.weakJWT⟩

/-- All runs of a list of calls on a new exchanger. -/
def resolving (renewSkew : Int) (issues : List Char → Prop) (calls : List Call) :
    System (Clocked × List Resolving) :=
  (exchanger renewSkew issues).system (fun s => s.ex = ⟨fun _ => none, fun _ => none, []⟩)
    (calls.map Call.start)

/-! ## phases -/

/-- Where a call is. -/
inductive Phase where
  | refused (e : Err)
  | enter
  | hit (cred : List Char)
  | waiting (f : Nat)
  | waited (f : Nat) (r : Result)
  | leading (f : Nat)
  | settling (f : Nat) (r : Result)
  | closing (f : Nat) (r : Result)
  | led (f : Nat) (r : Result)

def closeProg (f : Nat) (r : Result) : EdgeProg Result := .op (.close f) fun _ => .ret r

def settleProg (key : List Char) (f : Nat) (r : Result) : EdgeProg Result :=
  .op (.settle key f r) fun _ => closeProg f r

def leadProg (c : Call) (f : Nat) : EdgeProg Result :=
  .op (.exchange ⟨grantTypeTokenExchange, c.weakJWT, subjectTokenTypeJWT⟩) fun x =>
    settleProg c.cacheKey f (exchangeResult x)

def waitProg (f : Nat) : EdgeProg Result := .op (.await f) .ret

def lookupRest (c : Call) : Lookup → EdgeProg Result
  | .hit cred => .ret (.ok cred)
  | .wait f => waitProg f
  | .lead f => leadProg c f

namespace Phase

/-- What is left of the program. -/
def prog (c : Call) : Phase → EdgeProg Result
  | refused e => .ret (.error e)
  | enter => .op (.lookup c.cacheKey) (lookupRest c)
  | hit cred => .ret (.ok cred)
  | waiting f => waitProg f
  | waited _ r => .ret r
  | leading f => leadProg c f
  | settling f r => settleProg c.cacheKey f r
  | closing f r => closeProg f r
  | led _ r => .ret r

def found : Phase → Option Lookup
  | refused _ | enter => none
  | hit cred => some (.hit cred)
  | waiting f | waited f _ => some (.wait f)
  | leading f | settling f _ | closing f _ | led f _ => some (.lead f)

end Phase

/-- A valid call starts in the first phase. -/
theorem resolve_of_valid {c : Call} (h : c.Valid) :
    resolve c.filesystemID c.intent c.weakJWT = Phase.enter.prog c := by
  unfold resolve
  rw [if_neg h.1, h.2]
  simp only [ne_eq, not_true_eq_false, if_false]
  change Prog.op _ _ = Prog.op _ _
  congr 1
  funext r
  change Lookup at r
  cases r with
  | hit cred => rfl
  | wait f => rfl
  | lead f => rfl

/-- A call that does not get as far as the cache fails for a reason of its
own. -/
theorem resolve_of_not_valid {c : Call} (h : ¬ c.Valid) :
    ∃ e, resolve c.filesystemID c.intent c.weakJWT = .ret (.error e) ∧ e.isContext = false := by
  unfold resolve
  split
  · exact ⟨_, rfl, rfl⟩
  · next hne =>
      split
      · exact ⟨_, rfl, rfl⟩
      · next claimed hclaim =>
          split
          · exact ⟨_, rfl, rfl⟩
          · next heq =>
              refine absurd ⟨hne, ?_⟩ h
              rw [hclaim, Decidable.not_not.mp heq]

/-- The call is in this phase. -/
structure At (th : Resolving) (ph : Phase) : Prop where
  prog : th.prog = ph.prog th.own.call
  found : th.own.found = ph.found

/-- An invalid call is refused at once, and not for its context. -/
theorem exists_at_start (c : Call) :
    At c.start .enter ∧ c.Valid ∨ ∃ e, At c.start (.refused e) ∧ e.isContext = false := by
  by_cases h : c.Valid
  · exact .inl ⟨⟨resolve_of_valid h, rfl⟩, h⟩
  · obtain ⟨e, he, hctx⟩ := resolve_of_not_valid h
    exact .inr ⟨e, ⟨he, rfl⟩, hctx⟩

/-! ## the exchanger by itself -/

/-- No later flight has the key. -/
def Latest (ex : Exchanger) (key : List Char) (f : Nat) : Prop :=
  ∀ g fl, f < g → ex.flights[g]? = some fl → fl.key ≠ key

/-- A flight in the table is open, the latest of its key, and nothing is cached
in the meantime; what is cached is the success of the latest flight. -/
structure Sound (issues : List Char → Prop) (ex : Exchanger) : Prop where
  inflight : ∀ key f, ex.inflight key = some f →
    ex.flights[f]? = some ⟨key, none, false⟩ ∧ Latest ex key f ∧ ex.cache key = none
  cache : ∀ key entry, ex.cache key = some entry →
    entry.notAfter = credentialNotAfter entry.cred ∧ issues entry.cred ∧
      ∃ f closed, ex.flights[f]? = some ⟨key, some (.ok entry.cred), closed⟩ ∧ Latest ex key f

section Exchanger

variable {issues : List Char → Prop} {ex : Exchanger} {key : List Char} {f : Nat} {r : Result}

/-- What a lookup finds: a stale entry is there only while no flight is. -/
theorem Sound.lookup (h : Sound issues ex) (renewSkew : Int) (now : Time) (key : List Char) :
    (∃ entry, ex.cache key = some entry ∧ isLive renewSkew now entry = true ∧
        ex.lookup renewSkew now key = (.hit entry.cred, ex)) ∨
      (∃ f, ex.inflight key = some f ∧ ex.lookup renewSkew now key = (.wait f, ex)) ∨
      ex.inflight key = none ∧
        ex.lookup renewSkew now key = (.lead ex.flights.length, (ex.evict key).register key) := by
  unfold Exchanger.lookup
  cases hc : ex.cache key with
  | none =>
      have hevict : ex.evict key = ex := by
        rw [Exchanger.evict, ← hc, Function.update_eq_self]
      cases hin : ex.inflight key with
      | some f =>
          refine .inr (.inl ⟨f, rfl, ?_⟩)
          simp only [Exchanger.join, hin]
      | none =>
          refine .inr (.inr ⟨rfl, ?_⟩)
          simp only [Exchanger.join, hin, hevict]
  | some entry =>
      dsimp only
      split
      · next hlive => exact .inl ⟨entry, rfl, hlive, rfl⟩
      · cases hin : ex.inflight key with
        | some f => exact absurd ((h.inflight key f hin).2.2) (by simp [hc])
        | none =>
            refine .inr (.inr ⟨rfl, ?_⟩)
            have hin' : (ex.evict key).inflight key = none := hin
            simp only [Exchanger.join, hin']
            rfl

/-- Registering a key adds one open flight at the end. -/
theorem getElem?_register (ex : Exchanger) (key : List Char) (g : Nat) :
    (ex.register key).flights[g]? =
      if g = ex.flights.length then some ⟨key, none, false⟩ else ex.flights[g]? := by
  rw [Exchanger.register, List.getElem?_append]
  split
  · next hlt => rw [if_neg (by omega)]
  · split
    · next heq => simp [heq]
    · rw [List.getElem?_eq_none (by simp; omega), List.getElem?_eq_none (by omega)]

/-- The first critical section, when it opens a flight. -/
theorem Sound.register (h : Sound issues ex) (hin : ex.inflight key = none) :
    Sound issues ((ex.evict key).register key) := by
  have hget (g : Nat) : ((ex.evict key).register key).flights[g]? =
      if g = ex.flights.length then some ⟨key, none, false⟩ else ex.flights[g]? :=
    getElem?_register (ex.evict key) key g
  -- the new flight is the latest of its key and of no other
  have hlatest (key' : List Char) (f : Nat) (hl : Latest ex key' f) (hkey : key' ≠ key) :
      Latest ((ex.evict key).register key) key' f := by
    intro g fl hfg hg
    rw [hget] at hg
    split at hg
    · cases hg
      exact Ne.symm hkey
    · exact hl g fl hfg hg
  have hold (f : Nat) (fl : Flight) (hf : ex.flights[f]? = some fl) :
      ((ex.evict key).register key).flights[f]? = some fl := by
    have hlt : f < ex.flights.length := (List.getElem?_eq_some_iff.mp hf).1
    rw [hget, if_neg (by omega), hf]
  refine ⟨fun key' f hf => ?_, fun key' entry he => ?_⟩
  · simp only [Exchanger.register, Exchanger.evict, Function.update_apply] at hf
    split at hf
    · next heq =>
        cases hf
        subst heq
        refine ⟨by rw [hget, if_pos rfl], fun g fl hlt hg => ?_, Function.update_self ..⟩
        rw [hget, if_neg (by omega)] at hg
        have := (List.getElem?_eq_some_iff.mp hg).1
        omega
    · next hne =>
        obtain ⟨hfl, hl, hc⟩ := h.inflight key' f hf
        exact ⟨hold f _ hfl, hlatest key' f hl hne, (Function.update_of_ne hne ..).trans hc⟩
  · simp only [Exchanger.register, Exchanger.evict, Function.update_apply] at he
    split at he
    · cases he
    · next hne =>
        obtain ⟨hna, hiss, f, closed, hfl, hl⟩ := h.cache key' entry he
        exact ⟨hna, hiss, f, closed, hold f _ hfl, hlatest key' f hl hne⟩

/-- Settling writes the result of one flight. -/
theorem getElem?_settle (ex : Exchanger) (key : List Char) (f : Nat) (r : Result) (g : Nat) :
    (ex.settle key f r).flights[g]? =
      (ex.flights[g]?).map fun fl => if f = g then { fl with result := some r } else fl :=
  List.getElem?_modify ..

/-- Closing marks one flight. -/
theorem getElem?_close (ex : Exchanger) (f g : Nat) :
    (ex.close f).flights[g]? =
      (ex.flights[g]?).map fun fl => if f = g then { fl with closed := true } else fl :=
  List.getElem?_modify ..

/-- Changing flights in place keeps the latest one of a key. -/
theorem Latest.of_map {ex' : Exchanger} {h : Nat → Flight → Flight} (hl : Latest ex key f)
    (hget : ∀ g, ex'.flights[g]? = (ex.flights[g]?).map (h g))
    (hkey : ∀ g fl, (h g fl).key = fl.key) : Latest ex' key f := by
  intro g fl' hfg hg
  rw [hget] at hg
  obtain ⟨fl, hfl, rfl⟩ := Option.map_eq_some_iff.mp hg
  rw [hkey]
  exact hl g fl hfg hfl

theorem Latest.settle (hl : Latest ex key f) (key' : List Char) (f' : Nat) (r : Result) :
    Latest (ex.settle key' f' r) key f :=
  hl.of_map (getElem?_settle ex key' f' r) fun g fl => by split <;> rfl

theorem Latest.close (hl : Latest ex key f) (f' : Nat) : Latest (ex.close f') key f :=
  hl.of_map (getElem?_close ex f') fun g fl => by split <;> rfl

/-- Flights of other keys stay as they are. -/
theorem getElem?_settle_of_key {key' : List Char} {g : Nat} {fl fl' : Flight}
    (hf : ex.flights[f]? = some fl) (hg : ex.flights[g]? = some fl') (hne : fl'.key ≠ fl.key) :
    (ex.settle key' f r).flights[g]? = some fl' := by
  have hfg : f ≠ g := by
    rintro rfl
    exact hne (congrArg Flight.key (Option.some.inj (hg.symm.trans hf)))
  rw [getElem?_settle, hg, Option.map_some, if_neg hfg]

/-- The second critical section. -/
theorem Sound.settle (h : Sound issues ex) (hin : ex.inflight key = some f)
    (hr : ∀ cred, r = .ok cred → issues cred) : Sound issues (ex.settle key f r) := by
  obtain ⟨hfl, hlatest, hnone⟩ := h.inflight key f hin
  -- what is cached under another key was so before
  have hother (key' : List Char) (hne : key' ≠ key) :
      (ex.settle key f r).cache key' = ex.cache key' := by
    cases r with
    | ok cred => exact Function.update_of_ne hne ..
    | error e => rfl
  refine ⟨fun key' f' hf' => ?_, fun key' entry he => ?_⟩
  · simp only [Exchanger.settle, Function.update_apply] at hf'
    split at hf'
    · cases hf'
    · next hne =>
        obtain ⟨hfl', hl', hc'⟩ := h.inflight key' f' hf'
        exact ⟨getElem?_settle_of_key hfl hfl' hne, hl'.settle _ _ _, (hother key' hne).trans hc'⟩
  · by_cases hkey : key' = key
    · subst hkey
      cases r with
      | error e =>
          have hcached : ex.cache key' = some entry := he
          simp [hnone] at hcached
      | ok cred =>
          simp only [Exchanger.settle, Function.update_self, Option.some.injEq] at he
          subst he
          refine ⟨rfl, hr cred rfl, f, false, ?_, hlatest.settle _ _ _⟩
          rw [getElem?_settle, hfl, Option.map_some, if_pos rfl]
    · rw [hother key' hkey] at he
      obtain ⟨hna, hiss, f', closed, hfl', hl'⟩ := h.cache key' entry he
      exact ⟨hna, hiss, f', closed, getElem?_settle_of_key hfl hfl' hkey, hl'.settle _ _ _⟩

/-- A flight that has its result is closed. -/
theorem Sound.close (h : Sound issues ex) {fl : Flight} (hf : ex.flights[f]? = some fl)
    (hres : fl.result ≠ none) : Sound issues (ex.close f) := by
  refine ⟨fun key' f' hf' => ?_, fun key' entry he => ?_⟩
  · obtain ⟨hfl', hl', hc'⟩ := h.inflight key' f' hf'
    have hne : f ≠ f' := by
      rintro rfl
      cases hfl'.symm.trans hf
      exact hres rfl
    refine ⟨?_, hl'.close f, hc'⟩
    rw [getElem?_close, hfl', Option.map_some, if_neg hne]
  · obtain ⟨hna, hiss, f', closed, hfl', hl'⟩ := h.cache key' entry he
    by_cases hff : f = f'
    · refine ⟨hna, hiss, f', true, ?_, hl'.close f⟩
      rw [getElem?_close, hfl', Option.map_some, if_pos hff]
    · refine ⟨hna, hiss, f', closed, ?_, hl'.close f⟩
      rw [getElem?_close, hfl', Option.map_some, if_neg hff]

end Exchanger

/-! ## what a call sees -/

/-- The result of an exchange: an issued credential, or the error of a context
only when the caller's is over. -/
structure Outcome (issues : List Char → Prop) (c : Caller) (r : Result) : Prop where
  issued : ∀ cred, r = .ok cred → issues cred
  context : ∀ e, r = .error e → e.isContext = true → c.cancelled = true

/-- What the exchanger looks like to a call in a phase. -/
def Holds (renewSkew : Int) (issues : List Char → Prop) (ex : Exchanger) (c : Caller) :
    Phase → Prop
  | .refused e => e.isContext = false
  | .enter => c.call.Valid
  | .hit cred => (c.call.Valid ∧ ∃ f, ex.HasFlight f c.call.cacheKey) ∧ issues cred ∧
      (credentialNotAfter cred = zeroTime ∨ c.foundAt + renewSkew < credentialNotAfter cred)
  | .waiting f => c.call.Valid ∧ ex.HasFlight f c.call.cacheKey
  | .waited f r => c.call.Valid ∧ (c.cancelled = true ∨
      ∃ closed, ex.flights[f]? = some ⟨c.call.cacheKey, some r, closed⟩)
  | .leading f => c.call.Valid ∧ ex.inflight c.call.cacheKey = some f
  | .settling f r => c.call.Valid ∧ ex.inflight c.call.cacheKey = some f ∧ Outcome issues c r
  | .closing f r => c.call.Valid ∧ ex.flights[f]? = some ⟨c.call.cacheKey, some r, false⟩ ∧
      Outcome issues c r
  | .led f r => c.call.Valid ∧ ex.flights[f]? = some ⟨c.call.cacheKey, some r, true⟩ ∧
      Outcome issues c r

/-- What a critical section of the leader of `f` leaves as it is. -/
structure Keeps (f : Nat) (ex ex' : Exchanger) : Prop where
  others : ∀ g fl, g ≠ f → ex.flights[g]? = some fl → ex'.flights[g]? = some fl
  own : ∀ fl, ex.flights[f]? = some fl → ∃ fl', ex'.flights[f]? = some fl' ∧ fl'.key = fl.key ∧
    ∀ r, fl.result = some r → fl'.result = some r
  inflight : ∀ key g, g ≠ f → ex.inflight key = some g → ex'.inflight key = some g

section Frame

variable {renewSkew : Int} {issues : List Char → Prop} {ex ex' : Exchanger} {key : List Char}
  {f : Nat} {r : Result} {c : Caller}

theorem Keeps.refl (f : Nat) (ex : Exchanger) : Keeps f ex ex :=
  ⟨fun _ _ _ h => h, fun fl h => ⟨fl, h, rfl, fun _ h => h⟩, fun _ _ _ h => h⟩

theorem keeps_register (hin : ex.inflight key = none) :
    Keeps ex.flights.length ex ((ex.evict key).register key) := by
  refine ⟨fun g fl hne hg => ?_, fun fl hfl => ?_, fun key' g _ hg => ?_⟩
  · exact (getElem?_register (ex.evict key) key g).trans ((if_neg hne).trans hg)
  · exact absurd (List.getElem?_eq_some_iff.mp hfl).1 (Nat.lt_irrefl _)
  · have hne : key' ≠ key := by
      rintro rfl
      simp [hin] at hg
    exact (Function.update_of_ne hne ..).trans hg

theorem keeps_settle (hin : ex.inflight key = some f)
    (hfl : ex.flights[f]? = some ⟨key, none, false⟩) : Keeps f ex (ex.settle key f r) := by
  refine ⟨fun g fl hne hg => ?_, fun fl hfl' => ?_, fun key' g hne hg => ?_⟩
  · rw [getElem?_settle, hg, Option.map_some, if_neg (Ne.symm hne)]
  · cases hfl.symm.trans hfl'
    refine ⟨⟨key, some r, false⟩, ?_, rfl, by simp⟩
    rw [getElem?_settle, hfl, Option.map_some, if_pos rfl]
  · have hkey : key' ≠ key := by
      rintro rfl
      exact hne (Option.some.inj (hg.symm.trans hin))
    exact (Function.update_of_ne hkey ..).trans hg

theorem keeps_close (ex : Exchanger) (f : Nat) : Keeps f ex (ex.close f) := by
  refine ⟨fun g fl hne hg => ?_, fun fl hfl => ?_, fun _ _ _ h => h⟩
  · rw [getElem?_close, hg, Option.map_some, if_neg (Ne.symm hne)]
  · refine ⟨{ fl with closed := true }, ?_, rfl, fun r h => h⟩
    rw [getElem?_close, hfl, Option.map_some, if_pos rfl]

/-- A flight keeps its key. -/
theorem Keeps.hasFlight (hk : Keeps f ex ex') {g : Nat} (h : ex.HasFlight g key) :
    ex'.HasFlight g key := by
  obtain ⟨fl, hg, hkey⟩ := h
  by_cases hgf : g = f
  · subst hgf
    obtain ⟨fl', hg', hkey', -⟩ := hk.own fl hg
    exact ⟨fl', hg', hkey'.trans hkey⟩
  · exact ⟨fl, hk.others g fl hgf hg, hkey⟩

/-- Calls that do not lead the flight see no change. -/
theorem Holds.frame {ph : Phase} (h : Holds renewSkew issues ex c ph) (hk : Keeps f ex ex')
    (hne : ph.found ≠ some (.lead f)) : Holds renewSkew issues ex' c ph := by
  have hlead {g : Nat} (hg : some (Lookup.lead g) ≠ some (.lead f)) : g ≠ f := by
    rintro rfl
    exact hg rfl
  cases ph with
  | refused e => exact h
  | enter => exact h
  | hit cred =>
      obtain ⟨⟨hv, g, hg⟩, hlive⟩ := h
      exact ⟨⟨hv, g, hk.hasFlight hg⟩, hlive⟩
  | waiting g => exact ⟨h.1, hk.hasFlight h.2⟩
  | waited g r =>
      obtain ⟨hv, hcancelled | ⟨closed, hg⟩⟩ := h
      · exact ⟨hv, .inl hcancelled⟩
      · by_cases hgf : g = f
        · subst hgf
          obtain ⟨⟨key', result', closed'⟩, hg', hkey', hres⟩ := hk.own _ hg
          cases hkey'
          cases hres r rfl
          exact ⟨hv, .inr ⟨closed', hg'⟩⟩
        · exact ⟨hv, .inr ⟨closed, hk.others g _ hgf hg⟩⟩
  | leading g => exact ⟨h.1, hk.inflight _ g (hlead hne) h.2⟩
  | settling g r => exact ⟨h.1, hk.inflight _ g (hlead hne) h.2.1, h.2.2⟩
  | closing g r => exact ⟨h.1, hk.others g _ (hlead hne) h.2.1, h.2.2⟩
  | led g r => exact ⟨h.1, hk.others g _ (hlead hne) h.2.1, h.2.2⟩

/-- A call whose context is over has lost nothing else. -/
theorem Holds.cancel {ph : Phase} (h : Holds renewSkew issues ex c ph) :
    Holds renewSkew issues ex { c with cancelled := true } ph := by
  have hout {r : Result} (ho : Outcome issues c r) :
      Outcome issues { c with cancelled := true } r :=
    ⟨ho.issued, fun _ _ _ => rfl⟩
  cases ph with
  | refused e => exact h
  | enter => exact h
  | hit cred => exact h
  | waiting g => exact h
  | waited g r => exact ⟨h.1, .inl rfl⟩
  | leading g => exact h
  | settling g r => exact ⟨h.1, h.2.1, hout h.2.2⟩
  | closing g r => exact ⟨h.1, h.2.1, hout h.2.2⟩
  | led g r => exact ⟨h.1, h.2.1, hout h.2.2⟩

end Frame

/-! ## leaders -/

/-- What the calls found, in order. -/
def founds (ts : List Resolving) : List (Option Lookup) := ts.map fun th => th.own.found

/-- Every flight has one leader, and no call leads another. -/
structure Led (n : Nat) (fs : List (Option Lookup)) : Prop where
  unique : ∀ (i j : Nat) f, fs[i]? = some (some (.lead f)) → fs[j]? = some (some (.lead f)) → i = j
  covers : ∀ f, f < n ↔ ∃ i : Nat, fs[i]? = some (some (.lead f))

section Leaders

variable {n i : Nat} {fs : List (Option Lookup)} {ts : List Resolving} {th : Resolving}

theorem getElem?_founds (hi : ts[i]? = some th) : (founds ts)[i]? = some th.own.found := by
  rw [founds, List.getElem?_map, hi, Option.map_some]

/-- A call that finds something other than the lead. -/
theorem Led.set_other (h : Led n fs) (hi : fs[i]? = some none) {r : Lookup}
    (hr : ∀ f, r ≠ .lead f) : Led n (fs.set i (some r)) := by
  have hlt : i < fs.length := (List.getElem?_eq_some_iff.mp hi).1
  have hiff (j f : Nat) : (fs.set i (some r))[j]? = some (some (.lead f)) ↔
      fs[j]? = some (some (.lead f)) := by
    rw [List.getElem?_set]
    split
    · next hij =>
        rw [← hij, hi]
        simp [hr f]
    · exact Iff.rfl
  refine ⟨fun j j' f hj hj' => ?_, fun f => ?_⟩
  · exact h.unique j j' f ((hiff j f).mp hj) ((hiff j' f).mp hj')
  · simp only [hiff]
    exact h.covers f

/-- A call that becomes the leader of a new flight. -/
theorem Led.set_lead (h : Led n fs) (hi : fs[i]? = some none) :
    Led (n + 1) (fs.set i (some (.lead n))) := by
  have hlt : i < fs.length := (List.getElem?_eq_some_iff.mp hi).1
  have hiff (j f : Nat) : (fs.set i (some (.lead n)))[j]? = some (some (.lead f)) ↔
      (j = i ∧ f = n) ∨ fs[j]? = some (some (.lead f)) := by
    rw [List.getElem?_set]
    split
    · next hij =>
        rw [← hij, hi]
        simp [eq_comm]
    · next hij => simp [Ne.symm hij]
  have hnew (j f : Nat) (hj : fs[j]? = some (some (.lead f))) : f < n :=
    (h.covers f).mpr ⟨j, hj⟩
  refine ⟨fun j j' f hj hj' => ?_, fun f => ?_⟩
  · rcases (hiff j f).mp hj with ⟨rfl, rfl⟩ | hj
    · rcases (hiff j' f).mp hj' with ⟨rfl, -⟩ | hj'
      · rfl
      · exact absurd (hnew j' f hj') (Nat.lt_irrefl f)
    · rcases (hiff j' f).mp hj' with ⟨-, hf⟩ | hj'
      · exact absurd (hnew j f hj) (by omega)
      · exact h.unique j j' f hj hj'
  · constructor
    · intro hf
      by_cases hfn : f = n
      · exact ⟨i, (hiff i f).mpr (.inl ⟨rfl, hfn⟩)⟩
      · obtain ⟨j, hj⟩ := (h.covers f).mp (by omega)
        exact ⟨j, (hiff j f).mpr (.inr hj)⟩
    · rintro ⟨j, hj⟩
      rcases (hiff j f).mp hj with ⟨-, rfl⟩ | hj
      · exact Nat.lt_succ_self f
      · exact Nat.lt_succ_of_lt (hnew j f hj)

theorem founds_set (ts : List Resolving) (i : Nat) (th : Resolving) :
    founds (ts.set i th) = (founds ts).set i th.own.found :=
  List.map_set ..

/-- A call that goes on with what it found. -/
theorem founds_set_same {th' : Resolving} (hi : ts[i]? = some th)
    (hsame : th'.own.found = th.own.found) : founds (ts.set i th') = founds ts :=
  Pool.map_set_same th' hi hsame

end Leaders

/-! ## steps -/

structure All (issues : List Char → Prop) (s : Clocked) (ts : List Resolving) : Prop where
  sound : Sound issues s.ex
  led : Led s.ex.flights.length (founds ts)

def Each (renewSkew : Int) (issues : List Char → Prop) (s : Clocked) (th : Resolving) : Prop :=
  ∃ ph, At th ph ∧ Holds renewSkew issues s.ex th.own ph

/-- What a step of the `i`-th call establishes. -/
structure Goes (renewSkew : Int) (issues : List Char → Prop) (s s' : Clocked)
    (ts : List Resolving) (i : Nat) (th : Resolving) : Prop where
  all : All issues s' (ts.set i th)
  each : Each renewSkew issues s' th
  others : ∀ (j : Nat) th', j ≠ i → ts[j]? = some th' → Each renewSkew issues s th' →
    Each renewSkew issues s' th'

section Steps

variable {renewSkew : Int} {issues : List Char → Prop} {s s' : Clocked} {ts : List Resolving}
  {i f : Nat} {c : Caller} {p : EdgeProg Result} {r : Result} {th' : Resolving}

/-- The calls other than the leader of a flight see nothing of what it does. -/
theorem each_others (hk : Keeps f s.ex s'.ex)
    (hlead : ∀ (j : Nat) th, j ≠ i → ts[j]? = some th → th.own.found ≠ some (.lead f)) :
    ∀ (j : Nat) th, j ≠ i → ts[j]? = some th → Each renewSkew issues s th →
      Each renewSkew issues s' th := by
  rintro j th hji hj ⟨ph, hat, hholds⟩
  exact ⟨ph, hat, hholds.frame hk (hat.found ▸ hlead j th hji hj)⟩

/-- A step that leaves the exchanger alone, of a call that has done its
lookup. -/
theorem goes_idle (hall : All issues s ts) (hi : ts[i]? = some ⟨c, p⟩)
    (hfound : th'.own.found = c.found) (heach : Each renewSkew issues s th') :
    Goes renewSkew issues s s ts i th' := by
  refine ⟨⟨hall.sound, ?_⟩, heach, fun _ _ _ _ h => h⟩
  rw [founds_set_same hi hfound]
  exact hall.led

/-- A step of the leader of a flight. -/
theorem goes_lead (hall : All issues s ts) (hi : ts[i]? = some ⟨c, p⟩)
    (hc : c.found = some (.lead f)) (hfound : th'.own.found = c.found)
    (hk : Keeps f s.ex s'.ex) (hlen : s'.ex.flights.length = s.ex.flights.length)
    (hsound : Sound issues s'.ex) (heach : Each renewSkew issues s' th') :
    Goes renewSkew issues s s' ts i th' := by
  refine ⟨⟨hsound, ?_⟩, heach, each_others hk fun j th hji hj hlead => hji ?_⟩
  · rw [founds_set_same hi hfound, hlen]
    exact hall.led
  · exact hall.led.unique j i f ((getElem?_founds hj).trans (congrArg some hlead))
      ((getElem?_founds hi).trans (congrArg some hc))

/-- The first critical section. -/
theorem goes_lookup (hall : All issues s ts) (hi : ts[i]? = some ⟨c, p⟩) (hc : c.found = none)
    (hv : c.call.Valid) :
    Goes renewSkew issues s { s with ex := (s.ex.lookup renewSkew s.now c.call.cacheKey).2 } ts i
      ⟨{ c with found := some (s.ex.lookup renewSkew s.now c.call.cacheKey).1, foundAt := s.now },
        lookupRest c.call (s.ex.lookup renewSkew s.now c.call.cacheKey).1⟩ := by
  have hnone : (founds ts)[i]? = some none := (getElem?_founds hi).trans (congrArg some hc)
  rcases hall.sound.lookup renewSkew s.now c.call.cacheKey with
    ⟨entry, hcache, hlive, hlookup⟩ | ⟨f, hin, hlookup⟩ | ⟨hin, hlookup⟩ <;> rw [hlookup]
  · obtain ⟨hna, hiss, f, closed, hfl, -⟩ := hall.sound.cache _ _ hcache
    have hlive' : credentialNotAfter entry.cred = zeroTime ∨
        s.now + renewSkew < credentialNotAfter entry.cred := by
      simpa [isLive, hna] using hlive
    refine ⟨⟨hall.sound, ?_⟩,
      ⟨.hit entry.cred, ⟨rfl, rfl⟩, ⟨hv, f, _, hfl, rfl⟩, hiss, hlive'⟩, fun _ _ _ _ h => h⟩
    rw [founds_set]
    exact hall.led.set_other hnone (by simp)
  · obtain ⟨hfl, -, -⟩ := hall.sound.inflight _ _ hin
    refine ⟨⟨hall.sound, ?_⟩, ⟨.waiting f, ⟨rfl, rfl⟩, hv, _, hfl, rfl⟩, fun _ _ _ _ h => h⟩
    rw [founds_set]
    exact hall.led.set_other hnone (by simp)
  · refine ⟨⟨hall.sound.register hin, ?_⟩,
      ⟨.leading s.ex.flights.length, ⟨rfl, rfl⟩, hv, Function.update_self ..⟩,
      each_others (keeps_register hin) fun j th _ hj hlead => ?_⟩
    · have hlen : ((s.ex.evict c.call.cacheKey).register c.call.cacheKey).flights.length =
          s.ex.flights.length + 1 := by
        simp [Exchanger.register, Exchanger.evict]
      rw [founds_set, hlen]
      exact hall.led.set_lead hnone
    · -- nobody leads a flight that is not there yet
      have hlt := (hall.led.covers _).mpr ⟨j, (getElem?_founds hj).trans (congrArg some hlead)⟩
      exact Nat.lt_irrefl _ hlt

/-- The second critical section. -/
theorem goes_settle (hall : All issues s ts) (hi : ts[i]? = some ⟨c, p⟩)
    (hc : c.found = some (.lead f)) (hv : c.call.Valid)
    (hin : s.ex.inflight c.call.cacheKey = some f) (hr : Outcome issues c r) :
    Goes renewSkew issues s { s with ex := s.ex.settle c.call.cacheKey f r } ts i
      ⟨c, closeProg f r⟩ := by
  obtain ⟨hfl, -, -⟩ := hall.sound.inflight _ _ hin
  refine goes_lead hall hi hc rfl (keeps_settle hin hfl) (List.length_modify ..)
    (hall.sound.settle hin hr.issued) ⟨.closing f r, ⟨rfl, hc⟩, hv, ?_, hr⟩
  rw [getElem?_settle, hfl, Option.map_some, if_pos rfl]

/-- The leader closes its flight and returns what it settled. -/
theorem goes_close (hall : All issues s ts) (hi : ts[i]? = some ⟨c, p⟩)
    (hc : c.found = some (.lead f)) (hv : c.call.Valid)
    (hfl : s.ex.flights[f]? = some ⟨c.call.cacheKey, some r, false⟩) (hr : Outcome issues c r) :
    Goes renewSkew issues s { s with ex := s.ex.close f } ts i ⟨c, .ret r⟩ := by
  refine goes_lead hall hi hc rfl (keeps_close s.ex f) (List.length_modify ..)
    (hall.sound.close hfl (by simp)) ⟨.led f r, ⟨rfl, hc⟩, hv, ?_, hr⟩
  rw [getElem?_close, hfl, Option.map_some, if_pos rfl]

/-- A waiter takes what its flight ended in, or gives up. -/
theorem each_await (hc : c.found = some (.wait f)) (hv : c.call.Valid)
    (hfl : s.ex.HasFlight f c.call.cacheKey)
    (hr : (c.cancelled = true ∧ ∃ e, r = .error e ∧ e.isContext = true) ∨
      ∃ fl, s.ex.flights[f]? = some fl ∧ fl.closed = true ∧ fl.result = some r) :
    Each renewSkew issues s ⟨c, .ret r⟩ := by
  refine ⟨.waited f r, ⟨rfl, hc⟩, hv, ?_⟩
  rcases hr with ⟨hcancelled, -⟩ | ⟨⟨key, result, closed⟩, hg, -, hres⟩
  · exact .inl hcancelled
  · obtain ⟨fl, hfl, hkey⟩ := hfl
    cases hg.symm.trans hfl
    cases hkey
    cases hres
    exact .inr ⟨closed, hg⟩

/-- One effect of one of the calls, phase by phase. -/
theorem goes_effect {c' : Caller} {e : Eff} {k : e.Reply → EdgeProg Result} {x : e.Reply}
    (hi : ts[i]? = some ⟨c, .op e k⟩) (he : sections renewSkew issues (s, c) e x (s', c'))
    (hall : All issues s ts) (heach : Each renewSkew issues s ⟨c, .op e k⟩) :
    Goes renewSkew issues s s' ts i ⟨c', k x⟩ := by
  obtain ⟨ph, ⟨hprog, hfound⟩, hholds⟩ := heach
  dsimp only at hprog hfound hholds
  cases ph with
  | refused e => cases hprog
  | hit cred => cases hprog
  | waited f r => cases hprog
  | led f r => cases hprog
  | enter =>
      cases hprog
      obtain ⟨rfl, hsc⟩ := he
      cases hsc
      exact goes_lookup hall hi hfound hholds
  | waiting f =>
      cases hprog
      obtain ⟨hsc, hx⟩ := he
      cases hsc
      exact goes_idle hall hi rfl (each_await hfound hholds.1 hholds.2 hx)
  | leading f =>
      cases hprog
      obtain ⟨hsc, hissued, hctx⟩ := he
      cases hsc
      exact goes_idle hall hi rfl ⟨.settling f (exchangeResult x), ⟨rfl, hfound⟩, hholds.1,
        hholds.2, hissued, hctx⟩
  | settling f r =>
      cases hprog
      cases he
      exact goes_settle hall hi hfound hholds.1 hholds.2.1 hholds.2.2
  | closing f r =>
      cases hprog
      cases he
      exact goes_close hall hi hfound hholds.1 hholds.2.1 hholds.2.2

end Steps

/-- In every state of every run. -/
theorem invariant_of_reachable {renewSkew : Int} {issues : List Char → Prop} {calls : List Call}
    {t : Clocked × List Resolving} (h : (resolving renewSkew issues calls).Reachable t) :
    All issues t.1 t.2 ∧ ∀ (i : Nat) th, t.2[i]? = some th → Each renewSkew issues t.1 th := by
  refine Pool.invariant (Each renewSkew issues) (All issues) ?_ ?_ ?_ ?_ h
  · intro s hs
    have hfs (i f : Nat) : (founds (calls.map Call.start))[i]? ≠ some (some (.lead f)) := by
      simp [founds, Call.start]
    refine ⟨⟨?_, ?_⟩, fun i th hi => ?_⟩
    · rw [hs]
      exact ⟨by simp, by simp⟩
    · rw [hs]
      exact ⟨fun i _ f hi => absurd hi (hfs i f), fun f => by simp [hfs]⟩
    · obtain ⟨c, -, rfl⟩ := List.mem_map.mp (List.mem_of_getElem? hi)
      rcases exists_at_start c with ⟨hat, hv⟩ | ⟨e, hat, hctx⟩
      · exact ⟨.enter, hat, hv⟩
      · exact ⟨.refused e, hat, hctx⟩
  · rintro s s' ts hdrift hall heach
    have hex : s'.ex = s.ex := hdrift
    refine ⟨⟨hex ▸ hall.sound, hex ▸ hall.led⟩, fun i th hi => ?_⟩
    obtain ⟨ph, hat, hholds⟩ := heach i th hi
    exact ⟨ph, hat, hex ▸ hholds⟩
  · rintro s ts i th _ hi ⟨-, rfl⟩ hall ⟨ph, hat, hholds⟩
    refine ⟨⟨hall.sound, ?_⟩, ph, ⟨hat.prog, hat.found⟩, hholds.cancel⟩
    have hsame : founds (ts.set i ⟨{ th.own with cancelled := true }, th.prog⟩) = founds ts :=
      founds_set_same hi rfl
    rw [hsame]
    exact hall.led
  · intro s s' ts i c c' e k x hi he hall heach
    have hgoes := goes_effect hi he hall (heach i _ hi)
    exact ⟨hgoes.all, hgoes.each, hgoes.others⟩

/-- Every thread stays with its call, and only a context that can be cancelled
is. -/
theorem calls_of_reachable {renewSkew : Int} {issues : List Char → Prop} {calls : List Call}
    {t : Clocked × List Resolving} (h : (resolving renewSkew issues calls).Reachable t) :
    (t.2.map fun th => th.own.call) = calls ∧ ∀ (i : Nat) th, t.2[i]? = some th →
      th.own.cancelled = true → th.own.call.cancellable = true := by
  refine Pool.invariant (fun _ th => th.own.cancelled = true → th.own.call.cancellable = true)
    (fun _ ts => (ts.map fun th => th.own.call) = calls) ?_ ?_ ?_ ?_ h
  · intro s _
    refine ⟨by simp [Call.start, Function.comp_def], fun i th hi hc => ?_⟩
    obtain ⟨c, -, rfl⟩ := List.mem_map.mp (List.mem_of_getElem? hi)
    cases hc
  · exact fun _ _ _ _ hall heach => ⟨hall, heach⟩
  · rintro s ts i th _ hi ⟨hc, rfl⟩ hall -
    refine ⟨?_, fun _ => hc⟩
    exact (Pool.map_set_same ⟨{ th.own with cancelled := true }, th.prog⟩ hi rfl).trans hall
  · rintro s s' ts i c c' e k x hi he hall heach
    have hown : c'.call = c.call ∧ c'.cancelled = c.cancelled := by
      cases e with
      | lookup key =>
          cases he.2
          exact ⟨rfl, rfl⟩
      | await f =>
          cases he.1
          exact ⟨rfl, rfl⟩
      | exchange form =>
          cases he.1
          exact ⟨rfl, rfl⟩
      | _ =>
          cases he
          exact ⟨rfl, rfl⟩
    refine ⟨?_, fun hc => ?_, fun _ _ _ _ h => h⟩
    · exact (Pool.map_set_same ⟨c', k x⟩ hi hown.1).trans hall
    · rw [hown.1]
      exact heach i _ hi (hown.2.symm.trans hc)

/-! ## what the invariant says of a call -/

def Finished (th : Resolving) : Prop := ∃ r, th.prog = .ret r

/-- The request to the peer is under way. -/
def Exchanging (th : Resolving) : Prop := ∃ form k, th.prog = .op (.exchange form) k

section Reading

variable {renewSkew : Int} {issues : List Char → Prop} {s : Clocked} {th : Resolving}
  {ts : List Resolving} {f : Nat} {r : Result} {cred : List Char}

/-- The flight of a leader is in the table until it has its result. -/
theorem Each.lead (h : Each renewSkew issues s th) (hf : th.own.found = some (.lead f)) :
    th.own.call.Valid ∧
      ((s.ex.inflight th.own.call.cacheKey = some f ∧ ¬ Finished th) ∨
        ∃ r closed, s.ex.flights[f]? = some ⟨th.own.call.cacheKey, some r, closed⟩ ∧
          Outcome issues th.own r ∧ ∀ r', th.prog = .ret r' → r' = r ∧ closed = true) := by
  obtain ⟨ph, ⟨hprog, hfound⟩, hholds⟩ := h
  rw [hfound] at hf
  cases ph with
  | refused e => cases hf
  | enter => cases hf
  | hit cred => cases hf
  | waiting g => cases hf
  | waited g r => cases hf
  | leading g =>
      cases hf
      refine ⟨hholds.1, .inl ⟨hholds.2, ?_⟩⟩
      rintro ⟨r, hr⟩
      cases hprog.symm.trans hr
  | settling g r =>
      cases hf
      refine ⟨hholds.1, .inl ⟨hholds.2.1, ?_⟩⟩
      rintro ⟨r, hr⟩
      cases hprog.symm.trans hr
  | closing g r =>
      cases hf
      refine ⟨hholds.1, .inr ⟨r, false, hholds.2.1, hholds.2.2, fun r' hr => ?_⟩⟩
      cases hprog.symm.trans hr
  | led g r =>
      cases hf
      refine ⟨hholds.1, .inr ⟨r, true, hholds.2.1, hholds.2.2, fun r' hr => ?_⟩⟩
      cases hprog.symm.trans hr
      exact ⟨rfl, rfl⟩

/-- Whoever is exchanging leads the flight that is in the map. -/
theorem Each.exchanging (h : Each renewSkew issues s th) (hex : Exchanging th) :
    ∃ f, th.own.found = some (.lead f) ∧ s.ex.inflight th.own.call.cacheKey = some f := by
  obtain ⟨ph, ⟨hprog, hfound⟩, hholds⟩ := h
  obtain ⟨form, k, hk⟩ := hex
  cases ph with
  | leading f => exact ⟨f, hfound, hholds.2⟩
  | _ => cases hprog.symm.trans hk

/-- A hit was issued, and was not about to expire when it was found. -/
theorem Each.hit (h : Each renewSkew issues s th) (hf : th.own.found = some (.hit cred)) :
    (th.own.call.Valid ∧ ∃ f, s.ex.HasFlight f th.own.call.cacheKey) ∧ issues cred ∧
      (credentialNotAfter cred = zeroTime ∨
        th.own.foundAt + renewSkew < credentialNotAfter cred) := by
  obtain ⟨ph, ⟨-, hfound⟩, hholds⟩ := h
  rw [hfound] at hf
  cases ph with
  | hit cred' =>
      cases hf
      exact hholds
  | _ => cases hf

/-- A waiter returns the result of its flight, unless it was cancelled. -/
theorem Each.wait (h : Each renewSkew issues s th) (hf : th.own.found = some (.wait f))
    (hr : th.prog = .ret r) :
    th.own.call.Valid ∧ (th.own.cancelled = true ∨
      ∃ closed, s.ex.flights[f]? = some ⟨th.own.call.cacheKey, some r, closed⟩) := by
  obtain ⟨ph, ⟨hprog, hfound⟩, hholds⟩ := h
  rw [hfound] at hf
  cases ph with
  | waited g r' =>
      cases hf
      cases hprog.symm.trans hr
      exact hholds
  | waiting g => cases hprog.symm.trans hr
  | _ => cases hf

/-- Somebody with the same key leads a flight, and it ended as that call's
exchange did. -/
theorem exists_leader (hall : All issues s ts)
    (heach : ∀ (i : Nat) th, ts[i]? = some th → Each renewSkew issues s th) {fl : Flight}
    (hf : s.ex.flights[f]? = some fl) :
    ∃ (i : Nat) (th : Resolving), ts[i]? = some th ∧ th.own.found = some (.lead f) ∧
      th.own.call.Valid ∧ th.own.call.cacheKey = fl.key ∧
      ∀ r, fl.result = some r → Outcome issues th.own r := by
  have hlt : f < s.ex.flights.length := (List.getElem?_eq_some_iff.mp hf).1
  obtain ⟨i, hi⟩ := (hall.led.covers f).mp hlt
  obtain ⟨th, hth, hfound⟩ := Option.map_eq_some_iff.mp ((List.getElem?_map ..).symm.trans hi)
  obtain ⟨hv, ⟨hin, -⟩ | ⟨r, closed, hfl, hout, -⟩⟩ := (heach i th hth).lead hfound
  · obtain ⟨hfl, -, -⟩ := hall.sound.inflight _ _ hin
    cases hf.symm.trans hfl
    exact ⟨i, th, hth, hfound, hv, rfl, fun r hr => by cases hr⟩
  · cases hf.symm.trans hfl
    refine ⟨i, th, hth, hfound, hv, rfl, fun r' hr => ?_⟩
    cases hr
    exact hout

/-- A finished call fails with the error of a context only if its own is over,
or it waited for another call whose context is. -/
theorem context_error (hall : All issues s ts)
    (heach : ∀ (i : Nat) th, ts[i]? = some th → Each renewSkew issues s th) {i : Nat} {e : Err}
    (hi : ts[i]? = some th) (hr : th.prog = .ret (.error e)) (he : e.isContext = true)
    (hown : th.own.cancelled = false) :
    ∃ (j : Nat) (lead : Resolving), j ≠ i ∧ ts[j]? = some lead ∧ lead.own.call.Valid ∧
      th.own.call.Valid ∧ lead.own.call.cacheKey = th.own.call.cacheKey ∧
      lead.own.cancelled = true := by
  obtain ⟨ph, ⟨hprog, hfound⟩, hholds⟩ := id (heach i th hi)
  cases ph with
  | refused e' =>
      cases hprog.symm.trans hr
      cases he.symm.trans hholds
  | waited f r =>
      cases hprog.symm.trans hr
      obtain ⟨hv, hcancelled | ⟨closed, hfl⟩⟩ := hholds
      · cases hown.symm.trans hcancelled
      · obtain ⟨j, lead, hj, hlead, hv', hkey, hout⟩ := exists_leader hall heach hfl
        refine ⟨j, lead, ?_, hj, hv', hv, hkey, (hout _ rfl).context e rfl he⟩
        rintro rfl
        cases hi.symm.trans hj
        cases hlead.symm.trans hfound
  | led f r =>
      cases hprog.symm.trans hr
      cases hown.symm.trans (hholds.2.2.context e rfl he)
  | _ => cases hprog.symm.trans hr

end Reading

/-! ## single flight -/

/-- What single flight promises of a state. -/
structure SingleFlight (renewSkew : Int) (t : Clocked × List Resolving) : Prop where
  /-- At most one exchange is under way per key. -/
  exchanges : ∀ (i j : Nat) th th', t.2[i]? = some th → t.2[j]? = some th' → Exchanging th →
    Exchanging th' → th.own.call.cacheKey = th'.own.call.cacheKey → i = j
  /-- A credential with a lifetime is served from the cache only before its
  renewal is due. -/
  served : ∀ (i : Nat) th cred exp, t.2[i]? = some th → th.own.found = some (.hit cred) →
    expiryUnverified cred = some exp → exp ≠ 0 → th.own.foundAt + renewSkew < exp * second
  /-- An exchange that failed leaves nothing in the cache, for as long as there
  is no later one. -/
  failed : ∀ f fl e, t.1.ex.flights[f]? = some fl → fl.result = some (.error e) →
    Latest t.1.ex fl.key f → t.1.ex.cache fl.key = none
  /-- A waiter that is not cancelled returns what its flight ended in. -/
  waiters : ∀ (i : Nat) th f r, t.2[i]? = some th → th.own.found = some (.wait f) →
    th.prog = .ret r → th.own.cancelled = false →
      ∃ fl, t.1.ex.flights[f]? = some fl ∧ fl.result = some r
  /-- So does the leader, which has let the waiters go by then. -/
  leaders : ∀ (i : Nat) th f r, t.2[i]? = some th → th.own.found = some (.lead f) →
    th.prog = .ret r →
      ∃ fl, t.1.ex.flights[f]? = some fl ∧ fl.result = some r ∧ fl.closed = true
  /-- With no call between its lookup and its end, no flight is in the table. -/
  idle : (∀ (i : Nat) th, t.2[i]? = some th → th.own.found = none ∨ Finished th) →
    ∀ key, t.1.ex.inflight key = none

section

variable {renewSkew : Int} {issues : List Char → Prop} {s : Clocked} {ts : List Resolving}
  {cred : List Char}

/-- A credential that reads as having no lifetime has none, but for one
expiry. -/
theorem credentialNotAfter_of_expiry {exp : Int} (h : expiryUnverified cred = some exp)
    (h0 : exp ≠ 0) : credentialNotAfter cred ≤ exp * second ∧
      (credentialNotAfter cred = zeroTime ↔ exp = -unixToInternal) := by
  obtain ⟨h₁, h₂⟩ := expiryUnverified_range h
  have hna : credentialNotAfter cred = ofUnix exp := by
    rw [credentialNotAfter, h]
    exact if_neg h0
  rw [hna]
  exact ⟨ofUnix_le h₁ h₂, ofUnix_eq_zeroTime_iff h₁ h₂⟩

/-- A failed exchange leaves nothing in the cache. -/
theorem Sound.failed {ex : Exchanger} (h : Sound issues ex) {f : Nat} {fl : Flight} {e : Err}
    (hf : ex.flights[f]? = some fl) (hres : fl.result = some (.error e))
    (hl : Latest ex fl.key f) : ex.cache fl.key = none := by
  obtain ⟨key, result, closed⟩ := fl
  cases hres
  cases hc : ex.cache key with
  | none => rfl
  | some entry =>
      obtain ⟨-, -, g, closed', hg, hlg⟩ := h.cache _ _ hc
      rcases Nat.lt_trichotomy f g with hfg | rfl | hgf
      · have hne := hl g _ hfg hg
        exact absurd rfl hne
      · cases hf.symm.trans hg
      · have hne := hlg f _ hgf hf
        exact absurd rfl hne

/-- Everything but the lifetimes holds in any case. -/
theorem singleFlight_of_served (hall : All issues s ts)
    (heach : ∀ (i : Nat) th, ts[i]? = some th → Each renewSkew issues s th)
    (hserved : ∀ (i : Nat) th cred exp, ts[i]? = some th → th.own.found = some (.hit cred) →
      expiryUnverified cred = some exp → exp ≠ 0 → th.own.foundAt + renewSkew < exp * second) :
    SingleFlight renewSkew (s, ts) where
  exchanges i j th th' hi hj hex hex' hkey := by
    obtain ⟨f, hf, hin⟩ := (heach i th hi).exchanging hex
    obtain ⟨f', hf', hin'⟩ := (heach j th' hj).exchanging hex'
    rw [← hkey, hin] at hin'
    cases hin'
    exact hall.led.unique i j f ((getElem?_founds hi).trans (congrArg some hf))
      ((getElem?_founds hj).trans (congrArg some hf'))
  served := hserved
  failed f fl e hf hres hl := hall.sound.failed hf hres hl
  waiters i th f r hi hf hr hc := by
    obtain ⟨-, hcancelled | ⟨closed, hfl⟩⟩ := (heach i th hi).wait hf hr
    · cases hc.symm.trans hcancelled
    · exact ⟨_, hfl, rfl⟩
  leaders i th f r hi hf hr := by
    obtain ⟨-, ⟨-, hfin⟩ | ⟨r', closed, hfl, -, hret⟩⟩ := (heach i th hi).lead hf
    · exact absurd ⟨r, hr⟩ hfin
    · obtain ⟨rfl, rfl⟩ := hret r hr
      exact ⟨_, hfl, rfl, rfl⟩
  idle hquiet key := by
    cases hin : s.ex.inflight key with
    | none => rfl
    | some f =>
        obtain ⟨hfl, -, -⟩ := hall.sound.inflight key f hin
        obtain ⟨i, th, hi, hf, -⟩ := exists_leader hall heach hfl
        obtain ⟨-, ⟨-, hfin⟩ | ⟨r, closed, hfl', -, -⟩⟩ := (heach i th hi).lead hf
        · rcases hquiet i th hi with hnone | hend
          · cases hf.symm.trans hnone
          · exact absurd hend hfin
        · cases hfl.symm.trans hfl'

end

/-! ## two calls with one key -/

/-- Nothing was resolved yet. -/
def fresh : Exchanger := ⟨fun _ => none, fun _ => none, []⟩

section Runs

variable {renewSkew : Int} {issues : List Char → Prop} {calls : List Call} {i j : Nat}
  {ci cj : Call}

/-- The start is reachable at any time of day. -/
theorem reachable_start (renewSkew : Int) (issues : List Char → Prop) (calls : List Call)
    (now : Time) :
    (resolving renewSkew issues calls).Reachable (⟨fresh, now⟩, calls.map Call.start) :=
  .init ⟨rfl, rfl⟩

theorem getElem?_start {c : Call} (hi : calls[i]? = some c) (hv : c.Valid) :
    (calls.map Call.start)[i]? = some ⟨⟨c, false, none, 0⟩, Phase.enter.prog c⟩ := by
  rw [List.getElem?_map, hi, Option.map_some, Call.start, resolve_of_valid hv]

/-- The first call of all leads. -/
theorem runsIn_lead (c : Call) (now : Time) :
    Prog.RunsIn (sections renewSkew issues) (⟨fresh, now⟩, ⟨c, false, none, 0⟩)
      (Phase.enter.prog c)
      (⟨fresh.register c.cacheKey, now⟩, ⟨c, false, some (.lead 0), now⟩) (leadProg c 0) :=
  .step ⟨rfl, rfl⟩ (.refl ..)

/-- The exchanger when the first flight is over. -/
def landed (key : List Char) (r : Result) : Exchanger :=
  ((fresh.register key).settle key 0 r).close 0

/-- The leader from its exchange to the end. -/
theorem runsIn_landed (c : Call) (cancelled : Bool) (now : Time) (x : ExchangeReply)
    (hissued : ∀ cred, exchangeResult x = .ok cred → issues cred)
    (hctx : ∀ e, exchangeResult x = .error e → e.isContext = true → cancelled = true) :
    Prog.RunsIn (sections renewSkew issues)
      (⟨fresh.register c.cacheKey, now⟩, ⟨c, cancelled, some (.lead 0), now⟩) (leadProg c 0)
      (⟨landed c.cacheKey (exchangeResult x), now⟩, ⟨c, cancelled, some (.lead 0), now⟩)
      (.ret (exchangeResult x)) :=
  .step (r := x) ⟨rfl, hissued, hctx⟩ (.step (r := ()) rfl (.step (r := ()) rfl (.refl ..)))

/-- A cached credential with no expiry is a hit at any time. -/
theorem lookup_landed {cred : List Char} (renewSkew : Int) (key : List Char) (now : Time)
    (h : credentialNotAfter cred = zeroTime) :
    (landed key (.ok cred)).lookup renewSkew now key = (.hit cred, landed key (.ok cred)) := by
  have hcache : (landed key (.ok cred)).cache key = some ⟨cred, credentialNotAfter cred⟩ :=
    Function.update_self ..
  have hlive : isLive renewSkew now ⟨cred, credentialNotAfter cred⟩ = true := by
    simp [isLive, h]
  rw [Exchanger.lookup, hcache]
  exact if_pos hlive

/-- The lookup is one critical section. -/
theorem sections_lookup {ex ex' : Exchanger} {r : Lookup} {now : Time}
    (issues : List Char → Prop) (c : Call) (h : ex.lookup renewSkew now c.cacheKey = (r, ex')) :
    sections renewSkew issues (⟨ex, now⟩, ⟨c, false, none, 0⟩) (.lookup c.cacheKey) r
      (⟨ex', now⟩, ⟨c, false, some r, now⟩) := by
  simp only [sections, h]
  exact ⟨rfl, trivial⟩

/-- A second call finds the flight of the first. -/
theorem lookup_registered (renewSkew : Int) (key : List Char) (now : Time) :
    (fresh.register key).lookup renewSkew now key = (.wait 0, fresh.register key) := by
  have hin : (fresh.register key).inflight key = some 0 := Function.update_self ..
  simp only [Exchanger.lookup, Exchanger.join, hin]
  rfl

/-- A credential whose expiry is the zero time is served at any time. -/
theorem reachable_stale {cred : List Char} (now : Time) (hi : calls[i]? = some ci)
    (hj : calls[j]? = some cj) (hij : i ≠ j) (hvi : ci.Valid) (hvj : cj.Valid)
    (hkey : ci.cacheKey = cj.cacheKey) (hiss : issues cred)
    (hexp : expiryUnverified cred = some (-unixToInternal)) :
    ∃ t, (resolving renewSkew issues calls).Reachable t ∧
      t.2[j]? = some ⟨⟨cj, false, some (.hit cred), now⟩, .ret (.ok cred)⟩ := by
  have hne : cred ≠ [] := by
    rintro rfl
    cases hexp
  have hok : exchangeResult (.replied 200 (.ok (.ok cred))) = .ok cred := by
    simp [exchangeResult, hne]
  have hna := (credentialNotAfter_of_expiry hexp (by decide)).2.mpr rfl
  have hstart := getElem?_start hi hvi
  have hlt := (List.getElem?_eq_some_iff.mp hstart).1
  have hj' (th th' : Resolving) : (((calls.map Call.start).set i th).set i th')[j]? =
      some ⟨⟨cj, false, none, 0⟩, Phase.enter.prog cj⟩ := by
    rw [List.set_set, List.getElem?_set_ne hij, getElem?_start hj hvj]
  -- the first call alone, to the end
  have h₁ := Pool.reachable_runsIn (reachable_start renewSkew issues calls now) hstart
    (runsIn_lead ci now)
  have h₂ := Pool.reachable_runsIn h₁ (List.getElem?_set_self hlt)
    (runsIn_landed ci false now (.replied 200 (.ok (.ok cred)))
      (fun cred' h => by cases hok.symm.trans h; exact hiss)
      (fun e h => by cases hok.symm.trans h))
  rw [hok, hkey] at h₂
  -- the second one hits
  have hhit := sections_lookup issues cj (lookup_landed renewSkew cj.cacheKey now hna)
  refine ⟨_, Pool.reachable_effect h₂ (hj' _ _) hhit, List.getElem?_set_self ?_⟩
  exact (List.getElem?_eq_some_iff.mp (hj' _ _)).1

/-- The error of a round trip whose context was cancelled. -/
def cancelledTrip : Err :=
  .wrap [.lit "edgeglue: exchange round trip: "] (.sentinel .contextCanceled) []

/-- A call that leads the first flight. -/
def Call.leading (c : Call) (cancelled : Bool) : Resolving :=
  ⟨⟨c, cancelled, some (.lead 0), 0⟩, leadProg c 0⟩

/-- A call that waits for the first flight. -/
def Call.waiting (c : Call) : Resolving := ⟨⟨c, false, some (.wait 0), 0⟩, waitProg 0⟩

/-- A call whose context is over fails another one that waits for it. -/
theorem reachable_adopted (hi : calls[i]? = some ci) (hj : calls[j]? = some cj) (hij : i ≠ j)
    (hvi : ci.Valid) (hvj : cj.Valid) (hkey : ci.cacheKey = cj.cacheKey)
    (hc : ci.cancellable = true) :
    ∃ t, (resolving renewSkew issues calls).Reachable t ∧
      t.2[j]? = some ⟨⟨cj, false, some (.wait 0), 0⟩, .ret (.error cancelledTrip)⟩ := by
  have hself (ts : List Resolving) (k : Nat) (th th' : Resolving) (hk : ts[k]? = some th) :
      (ts.set k th')[k]? = some th' :=
    List.getElem?_set_self (List.getElem?_eq_some_iff.mp hk).1
  have hother (ts : List Resolving) (th : Resolving) : (ts.set i th)[j]? = ts[j]? :=
    List.getElem?_set_ne hij
  -- `i` leads and `j` waits
  have hi₀ := getElem?_start hi hvi
  have h₁ : (resolving renewSkew issues calls).Reachable
      (⟨fresh.register cj.cacheKey, 0⟩, (calls.map Call.start).set i (ci.leading false)) :=
    hkey ▸ Pool.reachable_runsIn (reachable_start _ _ calls 0) hi₀ (runsIn_lead ci 0)
  have hj₁ : ((calls.map Call.start).set i (ci.leading false))[j]? = _ :=
    (hother _ _).trans (getElem?_start hj hvj)
  have h₂ : (resolving renewSkew issues calls).Reachable (⟨fresh.register cj.cacheKey, 0⟩,
      ((calls.map Call.start).set i (ci.leading false)).set j cj.waiting) :=
    Pool.reachable_effect h₁ hj₁
      (sections_lookup issues cj (lookup_registered renewSkew cj.cacheKey 0))
  -- the context of `i` is cancelled and its exchange fails
  have hi₂ : (((calls.map Call.start).set i (ci.leading false)).set j cj.waiting)[i]? =
      some (ci.leading false) :=
    (List.getElem?_set_ne (Ne.symm hij)).trans (hself _ i _ _ hi₀)
  have h₃ := Pool.reachable_signal h₂ hi₂ ⟨hc, rfl⟩
  have hland : Prog.RunsIn (sections renewSkew issues) _ _ _ _ :=
    runsIn_landed ci true 0 (.failed (.sentinel .contextCanceled)) (fun _ h => by cases h)
      fun _ _ _ => rfl
  rw [hkey] at hland
  have h₄ := Pool.reachable_runsIn h₃ (hself _ i _ _ hi₂) hland
  -- `j` takes the error
  have hj₄ (th th' : Resolving) : (((((calls.map Call.start).set i (ci.leading false)).set j
      cj.waiting).set i th).set i th')[j]? = some cj.waiting := by
    rw [hother, hother]
    exact hself _ j _ _ hj₁
  have h₅ := Pool.reachable_effect h₄ (hj₄ _ _) ⟨rfl, .inr ⟨_, rfl, rfl, rfl⟩⟩
  exact ⟨_, h₅, hself _ j _ _ (hj₄ _ _)⟩

end Runs

/-! ## main results -/

/-- The call of a thread is the one it was started with. -/
theorem getElem?_call {calls : List Call} {ts : List Resolving} {i : Nat} {th : Resolving}
    (h : (ts.map fun th => th.own.call) = calls) (hi : ts[i]? = some th) :
    calls[i]? = some th.own.call := by
  rw [← h, List.getElem?_map, hi, Option.map_some]

/-- **Single flight**: every run of every list of calls keeps its promises, if
and only if the peer issues no credential that expires at the zero time, or no
two calls can meet on a key. -/
theorem single_flight_iff (renewSkew : Int) (issues : List Char → Prop) (calls : List Call) :
    (∀ t, (resolving renewSkew issues calls).Reachable t → SingleFlight renewSkew t) ↔
      (∀ cred, issues cred → expiryUnverified cred ≠ some (-unixToInternal)) ∨
        ∀ (i j : Nat) ci cj, calls[i]? = some ci → calls[j]? = some cj → ci.Valid → cj.Valid →
          ci.cacheKey = cj.cacheKey → i = j := by
  constructor
  · intro h
    by_cases hiss : ∀ cred, issues cred → expiryUnverified cred ≠ some (-unixToInternal)
    · exact .inl hiss
    · simp only [not_forall, not_not] at hiss
      obtain ⟨cred, hcred, hexp⟩ := hiss
      refine .inr fun i j ci cj hi hj hvi hvj hkey => Decidable.byContradiction fun hij => ?_
      -- the second call hits when the renewal is due
      obtain ⟨t, ht, hserved⟩ := reachable_stale (-unixToInternal * second - renewSkew) hi hj hij
        hvi hvj hkey hcred hexp
      have hlt := (h t ht).served j _ cred _ hserved rfl hexp (by decide)
      dsimp only at hlt
      rw [Int.sub_add_cancel] at hlt
      exact Int.lt_irrefl _ hlt
  · rintro h ⟨s, ts⟩ ht
    obtain ⟨hall, heach⟩ := invariant_of_reachable ht
    obtain ⟨hcalls, -⟩ := calls_of_reachable ht
    refine singleFlight_of_served hall heach fun i th cred exp hi hf hexp h0 => ?_
    obtain ⟨⟨hv, f, fl, hfl, hkey⟩, hiss, hlive⟩ := (heach i th hi).hit hf
    obtain ⟨hle, hzero⟩ := credentialNotAfter_of_expiry hexp h0
    rcases h with hnone | halone
    · rcases hlive with hna | hlt
      · exact absurd (hexp.trans (congrArg some (hzero.mp hna))) (hnone cred hiss)
      · exact Int.lt_of_lt_of_le hlt hle
    · -- the leader of the flight that filled the cache is another call
      obtain ⟨j, lead, hj, hlead, hv', hkey', -⟩ := exists_leader hall heach hfl
      have hij := halone j i _ _ (getElem?_call hcalls hj) (getElem?_call hcalls hi) hv' hv
        (hkey'.trans hkey)
      subst hij
      cases hi.symm.trans hj
      cases hf.symm.trans hlead

/-- A credential, `{"exp":-62135596800}` in its payload. -/
def yearOneCred : List Char := "e30.eyJleHAiOi02MjEzNTU5NjgwMH0.AA".toList

/-- A call with the scope of a token that was minted. -/
def callShort (cancellable : Bool) : Call := ⟨['a'], ['b', nul, 'c'], tokenShort, cancellable⟩

theorem callShort_valid (cancellable : Bool) : (callShort cancellable).Valid :=
  ⟨by simp [callShort], ok_of_toOption reads_short.2.2.2.1⟩

/-- Served from the cache in 1970. -/
theorem stale_credential_served :
    expiryUnverified yearOneCred = some (-62135596800) ∧
      ∃ t, (resolving (30 * second) (· = yearOneCred)
          [callShort false, callShort false]).Reachable t ∧
        t.2[1]? = some ⟨⟨callShort false, false, some (.hit yearOneCred), 0⟩,
          .ret (.ok yearOneCred)⟩ ∧
        ¬ (0 + 30 * second < -62135596800 * second) ∧ ¬ SingleFlight (30 * second) t := by
  have hexp : expiryUnverified yearOneCred = some (-62135596800) := by decide +kernel
  obtain ⟨t, ht, hserved⟩ : ∃ t, (resolving (30 * second) (· = yearOneCred)
      [callShort false, callShort false]).Reachable t ∧ t.2[1]? = _ :=
    reachable_stale (i := 0) 0 rfl rfl (by decide) (callShort_valid false) (callShort_valid false)
      rfl rfl hexp
  refine ⟨hexp, t, ht, hserved, by decide, fun h => ?_⟩
  exact absurd (h.served 1 _ yearOneCred _ hserved rfl hexp (by decide)) (by decide)

/-- **Cancellation isolation**: in every run a call fails with the error of a
context only if its own context is over, if and only if no call whose context
can end meets another one on a key. -/
theorem cancellation_isolated_iff (renewSkew : Int) (issues : List Char → Prop)
    (calls : List Call) :
    (∀ t, (resolving renewSkew issues calls).Reachable t → ∀ (i : Nat) th e, t.2[i]? = some th →
        th.prog = .ret (.error e) → e.isContext = true → th.own.cancelled = true) ↔
      ∀ (i j : Nat) ci cj, calls[i]? = some ci → calls[j]? = some cj → i ≠ j → ci.Valid →
        cj.Valid → ci.cacheKey = cj.cacheKey → ci.cancellable = false := by
  constructor
  · intro h i j ci cj hi hj hij hvi hvj hkey
    rw [← Bool.not_eq_true]
    intro hc
    obtain ⟨t, ht, hfailed⟩ := reachable_adopted hi hj hij hvi hvj hkey hc
    have hcancelled := h t ht j _ cancelledTrip hfailed rfl (by decide)
    cases hcancelled
  · intro h t ht i th e hi hr he
    obtain ⟨hall, heach⟩ := invariant_of_reachable ht
    obtain ⟨hcalls, hcancel⟩ := calls_of_reachable ht
    by_contra hown
    obtain ⟨j, lead, hji, hj, hv', hv, hkey, hcancelled⟩ :=
      context_error hall heach hi hr he (Bool.eq_false_iff.mpr hown)
    have hnot := h j i _ _ (getElem?_call hcalls hj) (getElem?_call hcalls hi) hji hv' hv hkey
    cases hnot.symm.trans (hcancel j lead hj hcancelled)

/-- A request that is given up fails another one of the same scope, which has
no deadline at all. -/
theorem waiter_adopts_cancellation :
    ∃ t, (resolving (30 * second) (fun _ => True) [callShort true, callShort false]).Reachable t ∧
      t.2[1]? = some ⟨⟨callShort false, false, some (.wait 0), 0⟩,
        .ret (.error cancelledTrip)⟩ ∧ cancelledTrip.isContext = true := by
  obtain ⟨t, ht, hfailed⟩ : ∃ t, (resolving (30 * second) (fun _ => True)
      [callShort true, callShort false]).Reachable t ∧ t.2[1]? = _ :=
    reachable_adopted (i := 0) rfl rfl (by decide) (callShort_valid true) (callShort_valid false)
      rfl rfl
  exact ⟨t, ht, hfailed, rfl⟩

end OcuFilestore.Edgeglue
